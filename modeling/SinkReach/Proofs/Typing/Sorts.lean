import SinkReach.Proofs.Simulation.Typing

/-!
Sorts of what the machine builds. Conversions, casts and operators keep twins well-sorted; a term that is
compared with itself, where nothing has to carry over, is its own twin, so they keep single terms
well-sorted as well.
-/
namespace SinkReach

/-- The term is a well-sorted one of the sort. -/
def Term.OfSort (s : TermSort) (t : Term) : Prop := t.sort = s ∧ t.wellSorted TermSort.valued = true

/-- A scene where nothing has to carry over. -/
def Scene.silent : Scene where
  fields := fun _ => False
  bridges := fun _ => False
  mirrored := False
  coherent := fun _ _ never => never.elim
  field_carries := fun _ never => never.elim
  tags_carry := fun _ never => never.elim

/-- Links for the constants of terms. -/
def Links.naming (ts : List Term) : Links :=
  ⟨(Term.varsAll ts).map fun x => ⟨.var 0 x.1 x.2, x.1, x.2, .plain⟩, [], []⟩

theorem Plain.ofSort {S : Scene} {κ : Links} {s : TermSort} {a a' : Term} (h : Plain S κ s a a') :
    a.OfSort s := ⟨h.2, h.1.sorted⟩

namespace Term.OfSort

variable {s u : TermSort} {a b c t : Term} {ts : List Term} {l : Label} {w : Nat}

theorem twin (h : a.OfSort s) (ts : List Term) (mem : a ∈ ts) (r : Role) : Twin .silent (.naming ts) r a a := by
  refine .still (fun _ never => never) h.2 fun x hx => ?_
  exact .linked (k := ⟨.var 0 x.1 x.2, x.1, x.2, .plain⟩)
    (List.mem_map.2 ⟨x, mem_varsAll.2 ⟨a, mem, hx⟩, rfl⟩)

theorem plain (h : a.OfSort s) (ts : List Term) (mem : a ∈ ts) : Plain .silent (.naming ts) s a a :=
  ⟨h.twin ts mem .plain, h.1⟩

theorem ofInt (n : Int) (low : 1 ≤ w) (high : w ≤ 64) : (Term.ofInt l n w).OfSort (.bitVec w) :=
  (Plain.ofInt (S := .silent) (κ := .empty) (d := l) n low high).ofSort

theorem ofFloatBits (bits : Nat) {f : FloatFormat} (valued : (TermSort.float f).valued = true) :
    (Term.ofFloatBits l bits f).OfSort (.float f) :=
  (Plain.ofFloatBits (S := .silent) (κ := .empty) (d := l) bits valued).ofSort

theorem var (name : String) (valued : s.valued = true) : (Term.var l name s).OfSort s := by
  refine ⟨rfl, ?_⟩
  rw [Term.var, wellSorted, Bool.and_eq_true]
  exact ⟨valued, rfl⟩

theorem select (ha : a.OfSort (.array Address.sort s)) (hb : b.OfSort Address.sort) :
    (Term.select l a b).OfSort s := by
  have twin := (ha.twin [a, b] (by simp) (.array .plain)).select (l := l) (d := l) ha.1
    (hb.twin _ (by simp) .address) hb.1
  refine ⟨?_, twin.sorted⟩
  rw [Term.select, sort_binary, ha.1]
  rfl

theorem store (ha : a.OfSort (.array Address.sort s)) (hb : b.OfSort Address.sort) (hc : c.OfSort s) :
    (Term.store l a b c).OfSort (.array Address.sort s) := by
  have twin := (ha.twin [a, b, c] (by simp) (.array .plain)).store (l := l) (d := l) ha.1
    (hb.twin _ (by simp) .address) hb.1 (hc.twin _ (by simp) .plain) hc.1
  exact ⟨ha.1, twin.sorted⟩

theorem eq (ha : a.OfSort s) (hb : b.OfSort s) (scalar : s.isArray = false) : (Term.eq l a b).OfSort .bool :=
  ((ha.plain [a, b] (by simp)).eq (d := l) (hb.plain _ (by simp)) scalar).ofSort

theorem not (h : a.OfSort .bool) : (Term.not l a).OfSort .bool :=
  ((h.plain [a] (by simp)).not (d := l)).ofSort

theorem ite (hc : c.OfSort .bool) (ha : a.OfSort s) (hb : b.OfSort s) : (Term.ite l c a b).OfSort s :=
  ((hc.plain [c, a, b] (by simp)).ite (d := l) (ha.plain _ (by simp)) (hb.plain _ (by simp))).ofSort

/-- Conjunctions and disjunctions of conditions. -/
theorem join {o : Junction} (h : ∀ t ∈ ts, t.OfSort .bool) : (Term.join l o ts).OfSort .bool := by
  have stands : Stands (Term.join l o ts) (junction l o ts) := join_stands (wellSortedBools_iff.2 h)
  exact ⟨stands.sort, stands.sorted⟩

theorem and (ha : a.OfSort .bool) (hb : b.OfSort .bool) : (Term.and l a b).OfSort .bool :=
  join (by simp [ha, hb])

theorem or (ha : a.OfSort .bool) (hb : b.OfSort .bool) : (Term.or l a b).OfSort .bool :=
  join (by simp [ha, hb])

theorem convert (h : a.OfSort s) (valued : u.valued = true) (ht : Term.convert l a u = .ok t) : t.OfSort u :=
  ((h.plain [a] (by simp)).convert valued ht ht).ofSort

theorem cast {source target : Ty} (h : a.OfSort source.sort) (ht : Term.cast l a source target = .ok t) :
    t.OfSort target.sort := ((h.plain [a] (by simp)).cast ht ht).ofSort

theorem negate (h : a.OfSort s) (ht : Operator.negate l a = .ok t) : t.OfSort s :=
  ((h.plain [a] (by simp)).negate ht ht).ofSort

/-- An operator gives a well-sorted term of some sort. -/
theorem operator {op : Operator} (ha : a.OfSort s) (hb : b.OfSort u) (ht : op.apply l a b = .ok t) :
    t.OfSort t.sort :=
  ⟨rfl, ((ha.plain [a, b] (by simp)).operator (hb.plain _ (by simp)) ht ht).sorted⟩

/-- The conditional of two terms of one sort. -/
theorem conditional (hc : c.OfSort .bool) (ha : a.OfSort s) (hb : b.OfSort s) :
    ∃ t, Term.conditional l c a b = .ok t ∧ t.OfSort s := by
  refine ⟨Term.ite l c a b, ?_, hc.ite ha hb⟩
  unfold Term.conditional
  rw [if_neg (fun differ => differ (ha.1.trans hb.1.symm)), if_neg (fun differ => differ hc.1)]

end Term.OfSort

namespace Registry

variable {a : Term} {l : Label}

theorem ofSort_isNull (h : a.OfSort Address.sort) : (isNull l a).OfSort .bool :=
  h.eq (.ofInt 0 (by decide) (by decide)) rfl

theorem ofSort_hasTag (h : a.OfSort Address.sort) (id : Nat) : (hasTag l a id).OfSort .bool := by
  have tag : (tag (l + 2) a).OfSort (.bitVec 32) := .select (.var arrayName rfl) h
  exact (tag.eq (.ofInt id (by decide) (by decide)) rfl).and (ofSort_isNull h).not

theorem ofSort_typeConstraint (h : a.OfSort Address.sort) (r : Registry) (ty : Ty) :
    (r.typeConstraint l a ty).1.OfSort .bool := ofSort_hasTag h _

theorem ofSort_typeOrNull (h : a.OfSort Address.sort) (r : Registry) (ty : Ty) :
    (r.typeOrNull l a ty).1.OfSort .bool := (ofSort_hasTag h _).or (ofSort_isNull h)

end Registry
end SinkReach
