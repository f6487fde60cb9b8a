import Mathlib.Data.List.Nodup
import SinkReach.Proofs.Term.Traversal

/-!
Nodes at or below a list of roots. A traversal visits no others, so what every node hands down to its operands
holds of all that is visited if it holds of the roots.
-/
namespace SinkReach.Term

/-- What holds of every term whose operands have it holds of all terms. -/
theorem induction_on_children {P : Term → Prop} (step : ∀ t : Term, (∀ c ∈ t.children, P c) → P t)
    (t : Term) : P t := by
  induction t using induction with
  | leaf l a => exact step _ fun _ mem => nomatch mem
  | unary l op a ha => exact step _ (List.forall_mem_singleton.2 ha)
  | binary l op a b ha hb => exact step _ (List.forall_mem_cons.2 ⟨ha, List.forall_mem_singleton.2 hb⟩)
  | ternary l op a b c ha hb hc =>
    exact step _ (List.forall_mem_cons.2 ⟨ha, List.forall_mem_cons.2 ⟨hb, List.forall_mem_singleton.2 hc⟩⟩)
  | junction l op items each => exact step _ each

/-- Nodes at or below the roots. -/
inductive Below (roots : List Term) : Term → Prop
  | root {t : Term} : t ∈ roots → Below roots t
  | operand {t c : Term} : Below roots t → c ∈ t.children → Below roots c

/-- The roots share their nodes: a label stands for one node. -/
def Labelled (roots : List Term) : Prop :=
  ∀ s t, Below roots s → Below roots t → s.label = t.label → s = t

variable {roots : List Term} {t c : Term}

/-- Roots whose nodes are listed with all their operands, no label twice. -/
theorem Labelled.of_closed (all : List Term) (inside : roots ⊆ all) (closed : ∀ t ∈ all, t.children ⊆ all)
    (once : (all.map label).Nodup) : Labelled roots := by
  have listed {t : Term} (h : Below roots t) : t ∈ all := by
    induction h with
    | root mem => exact inside mem
    | operand _ mem ih => exact closed _ ih mem
  exact fun s t hs ht same => List.inj_on_of_nodup_map once (listed hs) (listed ht) same

theorem vars_subset_of_child (mem : c ∈ t.children) : c.vars ⊆ t.vars := by
  cases t with
  | leaf => cases mem
  | unary l op a =>
    cases List.mem_singleton.1 mem
    exact List.Subset.refl _
  | binary l op a b =>
    simp only [children, List.mem_cons, List.not_mem_nil, or_false] at mem
    rcases mem with rfl | rfl
    · exact List.subset_append_left _ _
    · exact List.subset_append_right _ _
  | ternary l op a b d =>
    simp only [children, List.mem_cons, List.not_mem_nil, or_false] at mem
    rcases mem with rfl | rfl | rfl
    · exact List.subset_append_of_subset_left _ (List.subset_append_left _ _)
    · exact List.subset_append_of_subset_left _ (List.subset_append_right _ _)
    · exact List.subset_append_right _ _
  | junction l op items => exact vars_subset_of_mem mem

theorem Below.vars_subset (h : Below roots t) : t.vars ⊆ varsAll roots := by
  induction h with
  | root mem => exact fun x here => mem_varsAll.2 ⟨_, mem, here⟩
  | operand _ mem ih => exact List.Subset.trans (vars_subset_of_child mem) ih

theorem visit_eq (t : Term) (v : Visited) :
    t.visit v = if v.met t then v else (visitAll (v.mark t) t.children).push t := by
  cases t <;> rfl

/-- A property of visited nodes goes through a traversal if each node hands it down to its operands. -/
def Visits (P : Term → Prop) (visit : Visited → Visited) : Prop :=
  ∀ v : Visited, (∀ u ∈ v.nodes, P u) → ∀ u ∈ (visit v).nodes, P u

theorem visits_visitAll {P : Term → Prop} {ts : List Term} (h : ∀ t ∈ ts, Visits P fun v => t.visit v) :
    Visits P fun v => visitAll v ts := by
  induction ts with
  | nil => exact fun _ hv => hv
  | cons t ts ih =>
    obtain ⟨ht, hts⟩ := List.forall_mem_cons.1 h
    exact fun v hv => ih hts _ (ht v hv)

theorem visits_visit {P : Term → Prop} (down : ∀ t, P t → ∀ c ∈ t.children, P c) (t : Term) (ht : P t) :
    Visits P fun v => t.visit v := by
  induction t using induction_on_children with
  | step t ih =>
    have operands := visits_visitAll fun c mem => ih c mem (down t ht c mem)
    intro v hv
    dsimp only
    rw [visit_eq]
    split
    · exact hv
    · exact List.forall_mem_cons.2 ⟨ht, operands (v.mark t) hv⟩

/-- What a term hands down to its operands holds of all nodes below it. -/
theorem forall_mem_nodes {P : Term → Prop} (down : ∀ t, P t → ∀ c ∈ t.children, P c)
    {roots : List Term} (h : ∀ t ∈ roots, P t) : ∀ t ∈ nodes roots, P t := fun t ht =>
  visits_visitAll (fun t mem => visits_visit down t (h t mem)) .empty (fun _ h => nomatch h) t
    (List.mem_reverse.1 ht)

theorem below_of_mem_nodes (h : t ∈ nodes roots) : Below roots t :=
  forall_mem_nodes (fun _ below _ child => below.operand child) (fun _ mem => .root mem) t h

end SinkReach.Term
