import Mathlib.Logic.Relation
import SinkReach.Proofs.Term.VisitOrder

/-!
Traversal without recursion. The nodes to come stand on a stack, a node a second time below its operands until
these are visited. Nodes are told apart by their labels, and an operand that was met since it was put on the stack
is dropped. Where labels are not shared, the stack empties and the visits are those of the recursive traversal.
-/
namespace SinkReach.Term

/-- A traversal part way: the roots to come, the stack, whose nodes are marked if their operands were put above
them, the labels met so far, and the visited nodes, the latest first. -/
structure Tour where
  roots : List Term
  stack : List (Term × Bool)
  seen : List Label
  visited : List Term

namespace Tour

def start (roots : List Term) : Tour := ⟨roots, [], [], []⟩

/-- Operands whose labels were not met, none of them marked. -/
def pending (seen : List Label) (ts : List Term) : List (Term × Bool) :=
  (ts.filter fun t => !seen.contains t.label).map fun t => (t, false)

/-- Takes the next root when the stack is empty; else visits the node on top if it is marked, drops it if its label
was met, or marks it and puts its operands above it. Nothing follows the last root. -/
def step? (a : Tour) : Option Tour :=
  match a.stack with
  | [] =>
    match a.roots with
    | [] => none
    | r :: rs => some { a with roots := rs, stack := [(r, false)] }
  | (t, true) :: stack => some { a with stack := stack, visited := t :: a.visited }
  | (t, false) :: stack =>
    if a.seen.contains t.label then some { a with stack := stack }
    else
      let seen := t.label :: a.seen
      some { a with stack := pending seen t.children ++ (t, true) :: stack, seen := seen }

/-- Some number of steps leads from one state to the other. -/
def Runs : Tour → Tour → Prop := Relation.ReflTransGen fun a b => a.step? = some b

end Tour

variable {roots rs ts : List Term} {t c : Term} {v : Visited} {seen skipped : List Label}
  {stack : List (Term × Bool)}

/-- The labels are those of the nodes that were met. -/
def Visited.Labels (roots : List Term) (v : Visited) (seen : List Label) : Prop :=
  ∀ t, Below roots t → (t.label ∈ seen ↔ v.met t = true)

theorem Visited.Labels.mark (labelled : Labelled roots) (below : Below roots t) (h : v.Labels roots seen) :
    (v.mark t).Labels roots (t.label :: seen) := by
  intro u hu
  rw [List.mem_cons, met_mark_iff labelled below hu, h u hu]
  exact or_congr_left ⟨labelled u t hu below, congrArg label⟩

namespace Tour

/-- A node on top comes off with all visits made that the recursive traversal makes from it, whatever stands
below it on the stack. -/
def Follows (roots : List Term) (t : Term) : Prop :=
  ∀ (v : Visited) (seen : List Label), v.Labels roots seen → ∃ seen', seen ⊆ seen' ∧ (t.visit v).Labels roots seen' ∧
    ∀ rs stack, Runs ⟨rs, (t, false) :: stack, seen, v.nodes⟩ ⟨rs, stack, seen', (t.visit v).nodes⟩

/-- Operands that were not put on the stack had been met. -/
theorem runs_pending (follows : ∀ c ∈ ts, Below roots c ∧ Follows roots c) (met : skipped ⊆ seen)
    (labels : v.Labels roots seen) : ∃ seen', seen ⊆ seen' ∧ (visitAll v ts).Labels roots seen' ∧
      ∀ rs stack, Runs ⟨rs, pending skipped ts ++ stack, seen, v.nodes⟩ ⟨rs, stack, seen', (visitAll v ts).nodes⟩ := by
  induction ts generalizing v seen with
  | nil => exact ⟨seen, List.Subset.refl _, labels, fun _ _ => .refl⟩
  | cons c ts ih =>
    obtain ⟨⟨below, first⟩, others⟩ := List.forall_mem_cons.1 follows
    by_cases skip : c.label ∈ skipped
    · -- Labels stay met, so the recursive traversal passes the operand over as well.
      have same : c.visit v = v := by rw [visit_eq, if_pos ((labels c below).1 (met skip))]
      obtain ⟨seen', sub, labels', runs⟩ := ih others met labels
      rw [visitAll, same]
      refine ⟨seen', sub, labels', fun rs stack => ?_⟩
      simpa [pending, skip] using runs rs stack
    · obtain ⟨seen₁, sub₁, labels₁, runs₁⟩ := first v seen labels
      obtain ⟨seen₂, sub₂, labels₂, runs₂⟩ := ih others (List.Subset.trans met sub₁) labels₁
      refine ⟨seen₂, List.Subset.trans sub₁ sub₂, labels₂, fun rs stack => ?_⟩
      have put : pending skipped (c :: ts) = (c, false) :: pending skipped ts := by simp [pending, skip]
      rw [put, List.cons_append]
      exact (runs₁ rs _).trans (runs₂ rs stack)

/-- By induction on the node, for its operands are on top of the stack when it stands there the second time. -/
theorem follows_visit (labelled : Labelled roots) (t : Term) : Below roots t → Follows roots t := by
  induction t using induction_on_children with
  | step t ih =>
    intro below v seen labels
    rw [visit_eq]
    by_cases met : v.met t = true
    · have known : seen.contains t.label = true := List.contains_iff_mem.2 ((labels t below).2 met)
      rw [if_pos met]
      exact ⟨seen, List.Subset.refl _, labels, fun rs stack => .single (if_pos known)⟩
    · have fresh : ¬ seen.contains t.label = true :=
        fun known => met ((labels t below).1 (List.contains_iff_mem.1 known))
      obtain ⟨seen', sub, labels', runs⟩ := runs_pending
        (fun c child => ⟨below.operand child, ih c child (below.operand child)⟩) (List.Subset.refl _)
        (labels.mark labelled below)
      rw [if_neg met]
      refine ⟨seen', List.Subset.trans (List.subset_cons_self _ _) sub, labels', fun rs stack => ?_⟩
      have opened : step? ⟨rs, (t, false) :: stack, seen, v.nodes⟩ = some
          ⟨rs, pending (t.label :: seen) t.children ++ (t, true) :: stack, t.label :: seen, v.nodes⟩ := if_neg fresh
      exact .head opened ((runs rs ((t, true) :: stack)).tail rfl)

theorem runs_roots (follows : ∀ r ∈ rs, Follows roots r) (labels : v.Labels roots seen) :
    ∃ seen', Runs ⟨rs, [], seen, v.nodes⟩ ⟨[], [], seen', (visitAll v rs).nodes⟩ := by
  induction rs generalizing v seen with
  | nil => exact ⟨seen, .refl⟩
  | cons r rs ih =>
    obtain ⟨first, others⟩ := List.forall_mem_cons.1 follows
    obtain ⟨seen₁, -, labels₁, runs₁⟩ := first v seen labels
    obtain ⟨seen₂, runs₂⟩ := ih others labels₁
    have taken : step? ⟨r :: rs, [], seen, v.nodes⟩ = some ⟨rs, [(r, false)], seen, v.nodes⟩ := rfl
    exact ⟨seen₂, .head taken ((runs₁ rs []).trans runs₂)⟩

/-- The stack empties after the last root, with the visits of the recursive traversal made. -/
theorem runs_start (labelled : Labelled roots) :
    ∃ seen, Runs (start roots) ⟨[], [], seen, (nodes roots).reverse⟩ := by
  have none : Visited.empty.Labels roots [] := fun t _ => by simp
  obtain ⟨seen, runs⟩ := runs_roots (fun r mem => follows_visit labelled r (.root mem)) none
  exact ⟨seen, by rwa [nodes, List.reverse_reverse]⟩

end Tour

/-- A traversal on a stack ends, and visits every node below the roots once, no others, and each after its
operands; so the free constants are named by the variables below the roots. -/
theorem tour_visits (labelled : Labelled roots) :
    ∃ tour, (Tour.start roots).Runs tour ∧ tour.step? = none ∧ tour.visited.reverse = nodes roots ∧
      PostorderOf roots (nodes roots) ∧
      ∀ name, name ∈ (freeVars roots).keys ↔ ∃ l sort, Below roots (leaf l (.var name sort)) := by
  obtain ⟨seen, runs⟩ := Tour.runs_start labelled
  refine ⟨_, runs, rfl, List.reverse_reverse _, nodes_postorder labelled, fun name => ?_⟩
  rw [mem_keys_freeVars]
  exact exists_congr fun l => exists_congr fun sort => mem_nodes_iff labelled

section Difference

/-- Twice a constant, and the difference of its square and itself. -/
def twiceX : Term := .binary 1 (.bits .add) (.leaf 0 (.var "x" (.bitVec 32))) (.leaf 0 (.var "x" (.bitVec 32)))

@[inherit_doc twiceX]
def differenceOfTwice : Term := .binary 3 (.bits .sub) (.binary 2 (.bits .mul) twiceX twiceX) twiceX

/-- Besides the difference, a root that is below it and one that is not. -/
def differenceRoots : List Term := [differenceOfTwice, twiceX, .leaf 4 (.var "y" .bool)]

theorem tour_visits_difference : Labelled differenceRoots ∧
    ∃ tour, (Tour.start differenceRoots).Runs tour ∧ tour.step? = none ∧
      tour.visited.reverse = [.leaf 0 (.var "x" (.bitVec 32)), twiceX, .binary 2 (.bits .mul) twiceX twiceX,
        differenceOfTwice, .leaf 4 (.var "y" .bool)] ∧
      ∀ name, name ∈ (freeVars differenceRoots).keys ↔ name = "x" ∨ name = "y" := by
  have listed : nodes differenceRoots = [.leaf 0 (.var "x" (.bitVec 32)), twiceX,
      .binary 2 (.bits .mul) twiceX twiceX, differenceOfTwice, .leaf 4 (.var "y" .bool)] := by
    simp [nodes, differenceRoots, differenceOfTwice, twiceX, visitAll, visit, label, alike]
  have labelled : Labelled differenceRoots := by
    refine Labelled.of_closed (nodes differenceRoots) ?_ ?_ (by rw [listed]; decide)
    · rw [listed]
      simp [differenceRoots]
    · rw [listed]
      simp [children, differenceOfTwice, twiceX]
  obtain ⟨tour, runs, ended, visited, postorder, names⟩ := tour_visits labelled
  refine ⟨labelled, tour, runs, ended, visited.trans listed, fun name => ?_⟩
  rw [names]
  simp only [← postorder.reached, listed]
  constructor
  · rintro ⟨l, sort, mem⟩
    simp [differenceOfTwice, twiceX] at mem
    exact mem.imp (·.2.1) (·.2.1)
  · rintro (rfl | rfl)
    · exact ⟨0, .bitVec 32, by simp⟩
    · exact ⟨4, .bool, by simp⟩

end Difference
end SinkReach.Term
