import SinkReach.Proofs.Term.Nodes

/-!
The order of a traversal. Where labels are not shared, every node below the roots is visited once, after all of
its operands. A node that was met and is not visited yet has the node at hand below it and is larger, so a node
of its operands that was met is visited. A traversal that holds the nodes to come on a stack and goes by labels
alone visits the same nodes in the same order.
-/
namespace SinkReach.Term

variable {roots ts : List Term} {s t u c : Term} {v w x : Visited}

theorem weight_le_of_mem (mem : t ∈ ts) : t.weight ≤ weightAll ts := by
  induction ts with
  | nil => cases mem
  | cons s ts ih =>
    rw [weightAll]
    rcases List.mem_cons.1 mem with rfl | mem
    · omega
    · exact Nat.le_trans (ih mem) (Nat.le_add_left _ _)

theorem weight_lt_of_child (mem : c ∈ t.children) : c.weight < t.weight := by
  have le := weight_le_of_mem mem
  cases t with
  | leaf => cases mem
  | unary | binary | ternary | junction =>
    simp only [children, weightAll, weight] at le ⊢
    omega

/-- The operands of every node in the list stand behind it. -/
def OperandsBehind : List Term → Prop
  | [] => True
  | t :: ts => t.children ⊆ ts ∧ OperandsBehind ts

theorem OperandsBehind.of_append (h : OperandsBehind (ts ++ t :: us)) : t.children ⊆ us := by
  induction ts with
  | nil => exact h.1
  | cons _ _ ih => exact ih h.2

theorem OperandsBehind.mem_of_child (h : OperandsBehind ts) (mem : t ∈ ts) (child : c ∈ t.children) : c ∈ ts := by
  obtain ⟨before, behind, rfl⟩ := List.append_of_mem mem
  exact List.mem_append_right _ (List.mem_cons_of_mem _ (h.of_append child))

namespace Visited

/-- A node that was met and is not visited yet. -/
def Open (v : Visited) (t : Term) : Prop := v.met t = true ∧ t ∉ v.nodes

/-- The visited nodes were met, none was visited twice, and the operands of each were visited before it. -/
structure Orderly (roots : List Term) (v : Visited) : Prop where
  inside : ∀ t ∈ v.nodes, Below roots t
  met : ∀ t ∈ v.nodes, v.met t = true
  nodup : v.nodes.Nodup
  behind : OperandsBehind v.nodes

/-- Visits in between add to the nodes, and finish all that they open. -/
structure Grows (roots : List Term) (v w : Visited) : Prop where
  orderly : w.Orderly roots
  kept : v.nodes ⊆ w.nodes
  opened : ∀ t, Below roots t → (w.Open t ↔ v.Open t)

theorem orderly_empty : Orderly roots .empty where
  inside := fun _ mem => nomatch mem
  met := fun _ mem => nomatch mem
  nodup := .nil
  behind := trivial

theorem Grows.refl (orderly : v.Orderly roots) : Grows roots v v := ⟨orderly, List.Subset.refl _, fun _ _ => .rfl⟩

theorem Grows.trans (h : Grows roots v w) (h' : Grows roots w x) : Grows roots v x where
  orderly := h'.orderly
  kept := List.Subset.trans h.kept h'.kept
  opened := fun t below => (h'.opened t below).trans (h.opened t below)

/-- Every open node has more than so many nodes. -/
def OpenAbove (roots : List Term) (v : Visited) (n : Nat) : Prop := ∀ u, Below roots u → v.Open u → n < u.weight

theorem Grows.openAbove {n : Nat} (h : Grows roots v w) (above : v.OpenAbove roots n) : w.OpenAbove roots n :=
  fun u hu isOpen => above u hu ((h.opened u hu).1 isOpen)

theorem open_push : (v.push t).Open u ↔ v.Open u ∧ u ≠ t := by
  simp only [Open, met_push, nodes_push, List.mem_cons, not_or]
  tauto

section Marking

/-- Where labels are not shared, to mark a node is to meet that node alone. -/
theorem met_mark_iff (labelled : Labelled roots) (ht : Below roots t) (hu : Below roots u) :
    (v.mark t).met u = true ↔ u = t ∨ v.met u = true := by
  rw [met_mark]
  split
  next same =>
    obtain rfl := labelled t u ht hu same
    simp [alike_refl]
  next other =>
    have apart : u ≠ t := fun same => other (congrArg label same.symm)
    simp [apart]

variable (labelled : Labelled roots) (below : Below roots t) (orderly : v.Orderly roots)

include labelled below orderly

theorem Orderly.mark : (v.mark t).Orderly roots where
  inside := orderly.inside
  met := fun u mem => (met_mark_iff labelled below (orderly.inside u mem)).2 (.inr (orderly.met u mem))
  nodup := orderly.nodup
  behind := orderly.behind

/-- A node that is marked now is open, besides those that were. -/
theorem Orderly.open_mark (new : v.met t = false) (hu : Below roots u) : (v.mark t).Open u ↔ u = t ∨ v.Open u := by
  unfold Open
  rw [met_mark_iff labelled below hu, nodes_mark]
  constructor
  · rintro ⟨same | met, unvisited⟩
    · exact .inl same
    · exact .inr ⟨met, unvisited⟩
  · rintro (rfl | ⟨met, unvisited⟩)
    · exact ⟨.inl rfl, fun mem => by simp [orderly.met u mem] at new⟩
    · exact ⟨.inr met, unvisited⟩

/-- If all open nodes are larger than the one that is marked now, then all are larger than its operands. -/
theorem Orderly.openAbove_mark (new : v.met t = false) (above : v.OpenAbove roots t.weight) (child : c ∈ t.children) :
    (v.mark t).OpenAbove roots c.weight := by
  intro u hu isOpen
  have smaller := weight_lt_of_child child
  rcases (orderly.open_mark labelled below new hu).1 isOpen with rfl | isOpen
  · exact smaller
  · exact Nat.lt_trans smaller (above u hu isOpen)

/-- A node that was marked before its operands were visited can be visited after them. -/
theorem Orderly.finish (new : v.met t = false) (h : Grows roots (v.mark t) w) (operands : t.children ⊆ w.nodes) :
    Grows roots v (w.push t) := by
  have marked {u : Term} (hu : Below roots u) := orderly.open_mark labelled below new hu
  obtain ⟨met, unvisited⟩ := (h.opened t below).2 ((marked below).2 (.inl rfl))
  refine ⟨?_, fun u mem => List.mem_cons_of_mem _ (h.kept mem), fun u hu => ?_⟩
  · exact
      { inside := List.forall_mem_cons.2 ⟨below, h.orderly.inside⟩
        met := List.forall_mem_cons.2 ⟨met, h.orderly.met⟩
        nodup := List.nodup_cons.2 ⟨unvisited, h.orderly.nodup⟩
        behind := ⟨operands, h.orderly.behind⟩ }
  · rw [open_push, h.opened u hu, marked hu]
    constructor
    · rintro ⟨same | wasOpen, other⟩
      · exact absurd same other
      · exact wasOpen
    · intro wasOpen
      refine ⟨.inr wasOpen, ?_⟩
      rintro rfl
      simp [wasOpen.1] at new

end Marking
end Visited

open Visited

theorem visitAll_grows
    (each : ∀ c ∈ ts, ∀ v, Orderly roots v → v.OpenAbove roots c.weight →
      Grows roots v (c.visit v) ∧ c ∈ (c.visit v).nodes)
    (orderly : v.Orderly roots) (above : ∀ c ∈ ts, v.OpenAbove roots c.weight) :
    Grows roots v (visitAll v ts) ∧ ts ⊆ (visitAll v ts).nodes := by
  induction ts generalizing v with
  | nil => exact ⟨.refl orderly, List.nil_subset _⟩
  | cons c ts ih =>
    obtain ⟨first, rest⟩ := List.forall_mem_cons.1 each
    obtain ⟨aboveFirst, aboveRest⟩ := List.forall_mem_cons.1 above
    obtain ⟨grown, visited⟩ := first v orderly aboveFirst
    obtain ⟨grownRest, visitedRest⟩ := ih rest grown.orderly fun d mem => grown.openAbove (aboveRest d mem)
    exact ⟨grown.trans grownRest, List.cons_subset.2 ⟨grownRest.kept visited, visitedRest⟩⟩

/-- A node that is smaller than all open ones is visited by its visit, if it was not before. -/
theorem visit_grows (labelled : Labelled roots) (t : Term) : Below roots t → ∀ v : Visited, v.Orderly roots →
    v.OpenAbove roots t.weight → Grows roots v (t.visit v) ∧ t ∈ (t.visit v).nodes := by
  induction t using induction_on_children with
  | step t ih =>
    intro below v orderly above
    rw [visit_eq]
    cases met : v.met t with
    | true =>
      -- A node that was met is not larger than itself, so it is not open.
      refine ⟨.refl orderly, ?_⟩
      by_contra unvisited
      exact Nat.lt_irrefl _ (above t below ⟨met, unvisited⟩)
    | false =>
      obtain ⟨grown, operands⟩ := visitAll_grows (fun c child => ih c child (below.operand child))
        (orderly.mark labelled below) fun c => orderly.openAbove_mark labelled below met above
      exact ⟨orderly.finish labelled below met grown operands, List.mem_cons_self⟩

/-- The traversal leaves nothing open, and has visited the roots. -/
theorem visitAll_empty_grows (labelled : Labelled roots) :
    Grows roots .empty (visitAll .empty roots) ∧ roots ⊆ (visitAll .empty roots).nodes := by
  have nothing : ∀ u, ¬ Visited.empty.Open u := fun u isOpen => by simpa using isOpen.1
  exact visitAll_grows (fun c mem => visit_grows labelled c (.root mem)) orderly_empty
    fun _ _ u _ isOpen => absurd isOpen (nothing u)

theorem mem_nodes_iff (labelled : Labelled roots) : t ∈ nodes roots ↔ Below roots t := by
  obtain ⟨grown, visited⟩ := visitAll_empty_grows labelled
  refine ⟨below_of_mem_nodes, fun below => List.mem_reverse.2 ?_⟩
  induction below with
  | root mem => exact visited mem
  | operand _ child ih => exact grown.orderly.behind.mem_of_child ih child

/-- The list has every node below the roots once, no label twice, and each after its operands. -/
structure PostorderOf (roots ns : List Term) : Prop where
  reached : ∀ t, t ∈ ns ↔ Below roots t
  once : (ns.map label).Nodup
  operands : ∀ before t behind, ns = before ++ t :: behind → t.children ⊆ before

theorem nodes_postorder (labelled : Labelled roots) : PostorderOf roots (nodes roots) := by
  have orderly := (visitAll_empty_grows labelled).1.orderly
  refine ⟨fun t => mem_nodes_iff labelled, ?_, fun before t behind split => ?_⟩
  · refine (List.nodup_reverse.2 orderly.nodup).map_on fun s hs t ht same => ?_
    exact labelled s t (below_of_mem_nodes hs) (below_of_mem_nodes ht) same
  · have reversed : (visitAll .empty roots).nodes = behind.reverse ++ t :: before.reverse := by
      rw [← List.reverse_reverse (visitAll .empty roots).nodes, ← nodes, split]
      simp
    exact fun c child => List.mem_reverse.1 ((reversed ▸ orderly.behind).of_append child)

/-- The names of the table are those of the visited constants. -/
theorem mem_keys_freeVars {name : String} :
    name ∈ (freeVars roots).keys ↔ ∃ l sort, leaf l (.var name sort) ∈ nodes roots := by
  have known : name ∈ (freeVars roots).keys ↔ ∃ sort, (freeVars roots).get? name = some sort := by
    rw [← Option.isSome_iff_exists, Table.isSome_get?]
    simp
  rw [known]
  constructor
  · rintro ⟨sort, found⟩
    obtain ⟨l, mem⟩ := (get?_foldl_enterVar (freeVars_eq roots ▸ found)).resolve_left (by simp)
    exact ⟨l, sort, mem⟩
  · rintro ⟨l, sort, mem⟩
    exact contains_foldl_enterVar (.inr ⟨l, sort, mem⟩)

end SinkReach.Term
