import SinkReach.Proofs.Term.Folding

/-!
Valuations and assignments that make terms true, and conditions, which are either true or false. Terms
that a valuation cannot tell apart may be exchanged.
-/
namespace SinkReach

/-- The valuation makes all terms true. -/
def Valuation.Models (ρ : Valuation) (ts : List Term) : Prop :=
  ∀ t ∈ ts, t.denote ρ = some (.bool true)

namespace Valuation

variable {ρ : Valuation} {t : Term} {ts us : List Term}

theorem models_nil : ρ.Models [] := fun _ h => nomatch h

theorem models_append : ρ.Models (ts ++ us) ↔ ρ.Models ts ∧ ρ.Models us := List.forall_mem_append

theorem models_cons : ρ.Models (t :: ts) ↔ t.denote ρ = some (.bool true) ∧ ρ.Models ts :=
  List.forall_mem_cons

end Valuation

namespace Assignment

/-- Whether the assignment binds the constants of the terms to values of their sorts and makes all true. -/
def satisfies (σ : Assignment) (ts : List Term) : Bool :=
  (Term.varsAll ts).all (fun x => (σ.get? x.1).any fun v => v.hasSort x.2) &&
    ts.all fun t => (t.evalBool σ).toOption == some true

theorem of_satisfies {σ : Assignment} {ts : List Term} (h : σ.satisfies ts = true) :
    σ.WellSorted ts ∧ ∀ t ∈ ts, t.Holds σ := by
  obtain ⟨sorted, holds⟩ := Bool.and_eq_true_iff.1 h
  refine ⟨fun x mem => ?_, fun t mem => ?_⟩
  · obtain ⟨v, bound, sort⟩ := (Option.any_eq_true ..).1 (List.all_eq_true.1 sorted x mem)
    exact ⟨v, bound, sort⟩
  · rw [Term.holds_iff_evalBool, ← toOption_eq_some]
    exact eq_of_beq (List.all_eq_true.1 holds t mem)

end Assignment

namespace Term

variable {ρ : Valuation} {l : Label} {a b c : Term} {ts : List Term}

/-- The term is well-sorted and boolean. -/
def IsCondition (t : Term) : Prop := t.sort = .bool ∧ t.wellSorted TermSort.valued = true

theorem andAll_stands (conditions : ∀ t ∈ ts, t.IsCondition) :
    Stands (andAll l ts) (junction l .and ts) := join_stands (wellSortedBools_iff.2 conditions)

/-- Well-sorted terms of one sort that have one value. -/
structure SameUnder (ρ : Valuation) (a b : Term) : Prop where
  sorted : a.wellSorted TermSort.valued = true
  sorted' : b.wellSorted TermSort.valued = true
  sort : a.sort = b.sort
  denote : a.denote ρ = b.denote ρ

/-- Conditions that are true together. -/
def SameTruth (ρ : Valuation) (a b : Term) : Prop := SameUnder ρ a b ∧ a.sort = .bool

namespace SameUnder

variable {l' : Label} {a' b' t t' : Term}

theorem of_stands (h : SameUnder ρ a a') (hρ : ρ.WellSorted) (ht : Stands t a) (ht' : Stands t' a') :
    SameUnder ρ t t' where
  sorted := ht.sorted
  sorted' := ht'.sorted
  sort := ht.sort.trans (h.sort.trans ht'.sort.symm)
  denote := by rw [ht.denote ρ hρ, ht'.denote ρ hρ, h.denote]

theorem unary {op : UnaryOp} (h : SameUnder ρ a a') (accepts : op.accepts a.sort = true)
    (valued : (op.result a.sort).valued = true) :
    SameUnder ρ (Term.unary l op a) (Term.unary l' op a') where
  sorted := by
    rw [wellSorted, sort_unary, valued, accepts, h.sorted]
    rfl
  sorted' := by
    rw [wellSorted, sort_unary, ← h.sort, valued, accepts, h.sorted']
    rfl
  sort := by rw [sort_unary, sort_unary, h.sort]
  denote := by rw [Term.denote, Term.denote, h.denote]

theorem binary {op : BinaryOp} (ha : SameUnder ρ a a') (hb : SameUnder ρ b b')
    (accepts : op.accepts a.sort b.sort = true) (valued : (op.result a.sort).valued = true) :
    SameUnder ρ (Term.binary l op a b) (Term.binary l' op a' b') where
  sorted := by
    rw [wellSorted, sort_binary, valued, accepts, ha.sorted, hb.sorted]
    rfl
  sorted' := by
    rw [wellSorted, sort_binary, ← ha.sort, ← hb.sort, valued, accepts, ha.sorted', hb.sorted']
    rfl
  sort := by rw [sort_binary, sort_binary, ha.sort]
  denote := by rw [Term.denote, Term.denote, ha.denote, hb.denote]

theorem not (h : SameTruth ρ a a') (hρ : ρ.WellSorted) :
    SameTruth ρ (Term.not l a) (Term.not l' a') := by
  have raw : SameUnder ρ (Term.unary l .not a) (Term.unary l' .not a') :=
    h.1.unary (by simp [UnaryOp.accepts, h.2]) rfl
  exact ⟨raw.of_stands hρ (not_stands raw.sorted) (not_stands raw.sorted'), (not_stands raw.sorted).sort⟩

theorem eq (ha : SameUnder ρ a a') (hb : SameUnder ρ b b') (hρ : ρ.WellSorted) (sorts : a.sort = b.sort)
    (scalar : a.sort.isArray = false) : SameTruth ρ (Term.eq l a b) (Term.eq l' a' b') := by
  have raw : SameUnder ρ (Term.binary l .eq a b) (Term.binary l' .eq a' b') :=
    ha.binary hb (by simp [BinaryOp.accepts, sorts]) rfl
  have stands := eq_stands raw.sorted scalar
  exact ⟨raw.of_stands hρ stands (eq_stands raw.sorted' (ha.sort ▸ scalar)), stands.sort⟩

theorem join {op : Junction} (ha : SameTruth ρ a a') (hb : SameTruth ρ b b') (hρ : ρ.WellSorted) :
    SameTruth ρ (Term.join l op [a, b]) (Term.join l' op [a', b']) := by
  have raw : SameUnder ρ (junction l op [a, b]) (junction l' op [a', b']) := {
    sorted := by simp [wellSorted, wellSortedBools, ha.2, hb.2, ha.1.sorted, hb.1.sorted]
    sorted' := by
      simp [wellSorted, wellSortedBools, ← ha.1.sort, ← hb.1.sort, ha.2, hb.2, ha.1.sorted', hb.1.sorted']
    sort := rfl
    denote := by simp only [Term.denote, denoteItems, ha.1.denote, hb.1.denote] }
  exact ⟨raw.of_stands hρ (join_stands raw.sorted) (join_stands raw.sorted'), (join_stands raw.sorted).sort⟩

end SameUnder
end Term
end SinkReach
