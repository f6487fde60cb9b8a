import SinkReach.Proofs.Table
import SinkReach.Proofs.Term.Denotation
import SinkReach.Term.Dag

/-!
The constants found by a traversal are the constants that occur below its roots. A node is marked before
its operands are visited, so a marked node may be unfinished; but then it is larger than the node at
hand, and a node of the same structure as the one at hand is not.
-/
namespace SinkReach.Term

mutual

/-- Number of nodes of a term, shared ones counted each time. -/
def weight : Term → Nat
  | leaf _ _ => 1
  | unary _ _ a => a.weight + 1
  | binary _ _ a b => a.weight + b.weight + 1
  | ternary _ _ a b c => a.weight + b.weight + c.weight + 1
  | junction _ _ items => weightAll items + 1

def weightAll : List Term → Nat
  | [] => 0
  | t :: ts => t.weight + weightAll ts

end

mutual

/-- Terms of the same structure have the same size and the same constants. -/
theorem shape_of_alike : (s t : Term) → s.alike t = true → s.weight = t.weight ∧ s.vars = t.vars
  | leaf _ x, t, h => by
    cases t <;> simp only [alike, Bool.false_eq_true, beq_iff_eq] at h
    subst h
    cases x <;> simp only [weight, vars, and_self]
  | unary _ _ a, t, h => by
    cases t <;> simp only [alike, Bool.false_eq_true, Bool.and_eq_true] at h
    simp only [weight, vars, shape_of_alike a _ h.2, and_self]
  | binary _ _ a b, t, h => by
    cases t <;> simp only [alike, Bool.false_eq_true, Bool.and_eq_true] at h
    simp only [weight, vars, shape_of_alike a _ h.1.2, shape_of_alike b _ h.2, and_self]
  | ternary _ _ a b c, t, h => by
    cases t <;> simp only [alike, Bool.false_eq_true, Bool.and_eq_true] at h
    simp only [weight, vars, shape_of_alike a _ h.1.1.2, shape_of_alike b _ h.1.2,
      shape_of_alike c _ h.2, and_self]
  | junction _ _ items, t, h => by
    cases t <;> simp only [alike, Bool.false_eq_true, Bool.and_eq_true] at h
    simp only [weight, vars, shapeAll_of_alike items _ h.2, and_self]

theorem shapeAll_of_alike : (ss ts : List Term) → alikeAll ss ts = true →
    weightAll ss = weightAll ts ∧ varsAll ss = varsAll ts
  | [], [], _ => ⟨rfl, rfl⟩
  | [], _ :: _, h => by simp [alikeAll] at h
  | _ :: _, [], h => by simp [alikeAll] at h
  | s :: ss, t :: ts, h => by
    simp only [alikeAll, Bool.and_eq_true] at h
    simp only [weightAll, varsAll, shape_of_alike s t h.1, shapeAll_of_alike ss ts h.2, and_self]

end

namespace Visited

section Looking

variable (v : Visited) (t u : Term)

@[simp] theorem met_empty : empty.met t = false := by
  simp [met, empty]

@[simp] theorem met_mark : (v.mark t).met u = if t.label = u.label then t.alike u else v.met u := by
  simp only [met, mark, Std.HashMap.getElem?_insert, beq_iff_eq]
  split
  · exact same_eq_alike t u
  · rfl

@[simp] theorem met_push : (v.push t).met u = v.met u := rfl

@[simp] theorem nodes_empty : empty.nodes = [] := rfl

@[simp] theorem nodes_mark : (v.mark t).nodes = v.nodes := rfl

@[simp] theorem nodes_push : (v.push t).nodes = t :: v.nodes := rfl

end Looking

/-- The occurrences of constants were visited. -/
def Lists (v : Visited) (xs : List (String × TermSort)) : Prop :=
  ∀ x ∈ xs, ∃ l, leaf l (.var x.1 x.2) ∈ v.nodes

/-- Every marked node up to a weight is finished. -/
def Known (v : Visited) (n : Nat) : Prop :=
  ∀ (l : Label) (t : Term), v.seen[l]? = some t → t.weight ≤ n → v.Lists t.vars

/-- The second state results from the first by visiting terms with the given constants. -/
structure Extends (v w : Visited) (xs : List (String × TermSort)) : Prop where
  kept : v.nodes ⊆ w.nodes
  fresh : ∀ t ∈ w.nodes, t ∈ v.nodes ∨ t.vars ⊆ xs
  seen : ∀ (l : Label) (t : Term), w.seen[l]? = some t → v.seen[l]? = some t ∨ w.Lists t.vars
  listed : w.Lists xs

theorem Lists.mono {v w : Visited} {xs : List (String × TermSort)} (h : v.Lists xs)
    (sub : v.nodes ⊆ w.nodes) : w.Lists xs := by
  intro x hx
  obtain ⟨l, hl⟩ := h x hx
  exact ⟨l, sub hl⟩

theorem Lists.append {v : Visited} {xs ys : List (String × TermSort)} (hx : v.Lists xs)
    (hy : v.Lists ys) : v.Lists (xs ++ ys) :=
  fun z hz => (List.mem_append.1 hz).elim (hx z) (hy z)

theorem Extends.known {v w : Visited} {xs : List (String × TermSort)} (h : Extends v w xs) {n : Nat}
    (hv : v.Known n) : w.Known n := by
  intro l t ht small
  rcases h.seen l t ht with old | listed
  · exact (hv l t old small).mono h.kept
  · exact listed

theorem Extends.trans {u v w : Visited} {xs ys : List (String × TermSort)} (h : Extends u v xs)
    (h' : Extends v w ys) : Extends u w (xs ++ ys) where
  kept := fun _ ht => h'.kept (h.kept ht)
  fresh := fun t ht => by
    rcases h'.fresh t ht with old | new
    · rcases h.fresh t old with older | sub
      · exact .inl older
      · exact .inr fun x hx => List.mem_append_left _ (sub hx)
    · exact .inr fun x hx => List.mem_append_right _ (new hx)
  seen := fun l t ht => by
    rcases h'.seen l t ht with old | listed
    · exact (h.seen l t old).imp_right fun hl => hl.mono h'.kept
    · exact .inr listed
  listed := (h.listed.mono h'.kept).append h'.listed

theorem Known.mark {v : Visited} {t : Term} {n : Nat} (h : v.Known n) (large : n < t.weight) :
    (v.mark t).Known n := by
  intro l u hu small
  simp only [Visited.mark, Std.HashMap.getElem?_insert] at hu
  split at hu
  · cases hu
    omega
  · exact h l u hu small

/-- A node whose operands were visited after it was marked is finished by listing it. -/
theorem Extends.finish {v w : Visited} {t : Term} (h : Extends (v.mark t) w t.vars) :
    Extends v (w.push t) t.vars where
  kept := fun _ ht => List.mem_cons_of_mem _ (h.kept ht)
  fresh := fun u hu => by
    rcases List.mem_cons.1 hu with rfl | hu
    · exact .inr fun _ hx => hx
    · exact h.fresh u hu
  seen := fun l u hu => by
    rcases h.seen l u hu with old | listed
    · simp only [Visited.mark, Std.HashMap.getElem?_insert] at old
      split at old
      · cases old
        exact .inr (h.listed.mono fun _ hx => List.mem_cons_of_mem _ hx)
      · exact .inl old
    · exact .inr (listed.mono fun _ hx => List.mem_cons_of_mem _ hx)
  listed := h.listed.mono fun _ hx => List.mem_cons_of_mem _ hx

/-- A node that counts as seen adds nothing. -/
theorem Extends.of_met {v : Visited} {t : Term} (known : v.Known t.weight) (met : v.met t = true) :
    Extends v v t.vars where
  kept := fun _ ht => ht
  fresh := fun _ ht => .inl ht
  seen := fun _ _ ht => .inl ht
  listed := by
    obtain ⟨u, hu, same⟩ := (Option.any_eq_true _ _).1 met
    rw [same_eq_alike] at same
    have shape := shape_of_alike u t same
    have listed := known _ u hu (Nat.le_of_eq shape.1)
    rwa [shape.2] at listed

theorem Extends.leaf (v : Visited) (l : Label) (a : Atom) :
    Extends v ((v.mark (leaf l a)).push (leaf l a)) (Term.leaf l a).vars where
  kept := fun _ ht => List.mem_cons_of_mem _ ht
  fresh := fun u hu => (List.mem_cons.1 hu).elim (fun h => .inr (by rw [h]; exact fun _ hx => hx)) .inl
  seen := fun l' u hu => by
    simp only [push, Visited.mark, Std.HashMap.getElem?_insert] at hu
    split at hu
    · cases hu
      refine .inr fun x hx => ⟨l, List.mem_cons.2 (.inl ?_)⟩
      cases a <;> simp_all [vars]
    · exact .inl hu
  listed := fun x hx => ⟨l, List.mem_cons.2 (.inl (by cases a <;> simp_all [vars]))⟩

theorem Extends.nil (v : Visited) : Extends v v [] where
  kept := fun _ ht => ht
  fresh := fun _ ht => .inl ht
  seen := fun _ _ ht => .inl ht
  listed := fun _ hx => nomatch hx

theorem Known.mono {v : Visited} {m n : Nat} (h : v.Known n) (le : m ≤ n) : v.Known m :=
  fun l t ht small => h l t ht (Nat.le_trans small le)

/-- What holds of a node that was met, and of one whose operands are visited, holds of the node. -/
theorem Extends.node {v w : Visited} {t : Term} (known : v.Known t.weight)
    (h : Extends (v.mark t) w t.vars) : Extends v (if v.met t then v else w.push t) t.vars := by
  split
  next met => exact .of_met known met
  next => exact h.finish

end Visited

open Visited

mutual

theorem visit_extends : (t : Term) → (v : Visited) → v.Known t.weight → Extends v (t.visit v) t.vars
  | leaf l a, v, known => by
    rw [visit]
    split
    next met => exact .of_met known met
    next => exact .leaf v l a
  | unary l op a, v, known => by
    rw [visit]
    have marked := (known.mono (m := a.weight) (by simp only [weight]; omega)).mark
      (t := unary l op a) (by simp only [weight]; omega)
    exact .node known (visit_extends a _ marked)
  | binary l op a b, v, known => by
    rw [visit]
    have marked := (known.mono (m := a.weight + b.weight) (by simp only [weight]; omega)).mark
      (t := binary l op a b) (by simp only [weight]; omega)
    have ha := visit_extends a _ (marked.mono (by omega))
    have hb := visit_extends b _ ((ha.known marked).mono (by omega))
    exact .node known (ha.trans hb)
  | ternary l op a b c, v, known => by
    rw [visit]
    have marked := (known.mono (m := a.weight + b.weight + c.weight)
      (by simp only [weight]; omega)).mark (t := ternary l op a b c) (by simp only [weight]; omega)
    have ha := visit_extends a _ (marked.mono (by omega))
    have hb := visit_extends b _ ((ha.known marked).mono (by omega))
    have hc := visit_extends c _ ((hb.known (ha.known marked)).mono (by omega))
    exact .node known ((ha.trans hb).trans hc)
  | junction l op items, v, known => by
    rw [visit]
    have marked := (known.mono (m := weightAll items) (by simp only [weight]; omega)).mark
      (t := junction l op items) (by simp only [weight]; omega)
    exact .node known (visitAll_extends items _ marked)

theorem visitAll_extends : (ts : List Term) → (v : Visited) → v.Known (weightAll ts) →
    Extends v (visitAll v ts) (varsAll ts)
  | [], v, _ => .nil v
  | t :: ts, v, known => by
    rw [visitAll]
    have ht := visit_extends t v (known.mono (by simp only [weightAll]; omega))
    exact ht.trans (visitAll_extends ts _ ((ht.known known).mono (by simp only [weightAll]; omega)))

end

/-- The visited leaves are the occurrences of constants below the roots. -/
theorem mem_nodes_var (roots : List Term) (name : String) (sort : TermSort) :
    (∃ l, leaf l (.var name sort) ∈ nodes roots) ↔ (name, sort) ∈ varsAll roots := by
  have visited := visitAll_extends roots .empty fun l t ht => by simp [Visited.empty] at ht
  constructor
  · rintro ⟨l, hl⟩
    rcases visited.fresh _ (List.mem_reverse.1 hl) with old | new
    · exact nomatch old
    · exact new (by simp [vars])
  · intro h
    obtain ⟨l, hl⟩ := visited.listed _ h
    exact ⟨l, List.mem_reverse.2 hl⟩

/-- Enters the constant at a node into a table. -/
def enterVar (vars : Table String TermSort) (t : Term) : Table String TermSort :=
  match t with
  | leaf _ (.var name sort) => vars.insert name sort
  | _ => vars

theorem freeVars_eq (roots : List Term) : freeVars roots = (nodes roots).foldl enterVar {} := rfl

theorem enterVar_distinct {vars : Table String TermSort} (h : vars.Distinct) (ts : List Term) :
    (ts.foldl enterVar vars).Distinct := by
  induction ts generalizing vars with
  | nil => exact h
  | cons t ts ih =>
    refine ih ?_
    unfold enterVar
    split
    · exact h.insert _ _
    · exact h

theorem freeVars_distinct (roots : List Term) : (freeVars roots).Distinct := by
  have none : ({} : Table String TermSort).Distinct := List.nodup_nil
  exact enterVar_distinct none _

theorem get?_enterVar_of_ne {vars : Table String TermSort} {t : Term} {name : String}
    (h : ∀ l s, t ≠ leaf l (.var name s)) : (enterVar vars t).get? name = vars.get? name := by
  unfold enterVar
  split
  next l n s => exact Table.get?_insert_ne vars s fun e => h l s (by rw [e])
  next => rfl

/-- The table has nothing but what it had and the constants entered. -/
theorem get?_foldl_enterVar {name : String} {s : TermSort} {ts : List Term}
    {vars : Table String TermSort} (h : (ts.foldl enterVar vars).get? name = some s) :
    vars.get? name = some s ∨ ∃ l, leaf l (.var name s) ∈ ts := by
  induction ts generalizing vars with
  | nil => exact .inl h
  | cons t ts ih =>
    rcases ih h with old | ⟨l, hl⟩
    · by_cases own : ∃ l s', t = leaf l (.var name s')
      · obtain ⟨l, s', rfl⟩ := own
        have entered : s' = s := by simpa [enterVar] using old
        exact .inr ⟨l, by simp [entered]⟩
      · rw [get?_enterVar_of_ne fun l s' e => own ⟨l, s', e⟩] at old
        exact .inl old
    · exact .inr ⟨l, List.mem_cons_of_mem _ hl⟩

/-- A constant that is entered stays entered. -/
theorem contains_foldl_enterVar {name : String} {ts : List Term} {vars : Table String TermSort}
    (h : (∃ s, vars.get? name = some s) ∨ ∃ l s, leaf l (.var name s) ∈ ts) :
    ∃ s, (ts.foldl enterVar vars).get? name = some s := by
  induction ts generalizing vars with
  | nil => exact h.resolve_right fun ⟨_, _, hl⟩ => nomatch hl
  | cons t ts ih =>
    refine ih ?_
    by_cases own : ∃ l s, t = leaf l (.var name s)
    · obtain ⟨l, s, rfl⟩ := own
      exact .inl ⟨s, by simp [enterVar]⟩
    · have other : ∀ l s, t ≠ leaf l (.var name s) := fun l s e => own ⟨l, s, e⟩
      rw [get?_enterVar_of_ne other]
      refine h.imp_right fun ⟨l, s, hl⟩ => ⟨l, s, ?_⟩
      exact (List.mem_cons.1 hl).resolve_left fun e => other l s e.symm

theorem mem_varsAll_of_freeVars {roots : List Term} {name : String} {s : TermSort}
    (h : (freeVars roots).get? name = some s) : (name, s) ∈ varsAll roots := by
  rcases get?_foldl_enterVar (freeVars_eq roots ▸ h) with old | found
  · simp at old
  · exact (mem_nodes_var roots name s).1 found

theorem freeVars_of_mem_varsAll {roots : List Term} {name : String} {s : TermSort}
    (h : (name, s) ∈ varsAll roots) : ∃ s', (freeVars roots).get? name = some s' := by
  obtain ⟨l, hl⟩ := (mem_nodes_var roots name s).2 h
  exact contains_foldl_enterVar (.inr ⟨l, s, hl⟩)

end SinkReach.Term
