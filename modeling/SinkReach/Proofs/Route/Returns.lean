import Mathlib.Data.Finset.Card
import SinkReach.Proofs.Route.Digraph
import SinkReach.Proofs.Route.Instances

/-!
Where returns along the path lead. A method that was entered without a call returns to the site which the
path names, and from there execution goes on along the edges of the caller's graph, perhaps to another such
return. Unless a return leads back to itself, fewer points of the path are ahead after it than before.
-/
namespace SinkReach

open Relation (ReflTransGen)

/-- An instruction of a method. -/
abbrev Point := Method × InstrId

def Node.point (n : Node) : Point := (n.method, n.instr)

namespace Instruction

def isReturn : Instruction → Bool
  | ret _ | retVoid => true
  | _ => false

end Instruction

namespace Query

variable {q : Query} {p r : Point} {m : Method}

/-- Whether the program returns at a point. -/
def returnsAt (q : Query) (p : Point) : Bool :=
  (q.program.body? p.1).any fun b => (b.instruction? p.2).any Instruction.isReturn

/-- The program returns at a point, and the path names another to go on from. -/
def ReturnsTo (q : Query) (p r : Point) : Prop :=
  q.returnsAt p = true ∧ Instances.returnSite q ⟨0, p.1, p.2⟩ = .ok (r.2, r.1)

/-- Points that follow each other in an outermost frame: along an edge of the method's graph, or by a
return along the path. -/
inductive Follows (q : Query) : Point → Point → Prop
  | edge {m : Method} {g : Digraph} {i j : InstrId} : q.graph m = .ok g → g.Edge i j →
    Follows q (m, i) (m, j)
  | ret {p r : Point} : q.ReturnsTo p r → Follows q p r

/-- No return that is met from the entry of a method on leads back to itself. -/
def ReturnsOnward (q : Query) (m : Method) : Prop :=
  ∀ p r, ReflTransGen q.Follows (m, Body.entry) p → q.ReturnsTo p r → ¬ ReflTransGen q.Follows r p

open Classical in
/-- How many points of the path may still be met. -/
noncomputable def ahead (q : Query) (p : Point) : Nat :=
  ((q.path.entries.map fun e => (e.method, e.instr)).toFinset.filter fun r => ReflTransGen q.Follows p r).card

theorem ahead_le_length (q : Query) (p : Point) : q.ahead p ≤ q.path.entries.length := by
  classical
  refine (Finset.card_filter_le _ _).trans ((List.toFinset_card_le _).trans ?_)
  rw [List.length_map]

theorem ahead_le (h : q.Follows p r) : q.ahead r ≤ q.ahead p := by
  classical
  refine Finset.card_le_card fun k mem => ?_
  obtain ⟨named, follows⟩ := Finset.mem_filter.1 mem
  exact Finset.mem_filter.2 ⟨named, .head h follows⟩

/-- An entry of the path names both points. -/
theorem ReturnsTo.entry (h : q.ReturnsTo p r) :
    ∃ e ∈ q.path.entries, (e.method, e.instr) = p ∧ e.returnSite? = some (r.2, r.1) := by
  have site := h.2
  unfold Instances.returnSite at site
  split at site
  · cases site
  next e found =>
    have mem := List.mem_reverse.1 (List.mem_of_find?_eq_some found)
    have names := List.find?_some found
    obtain ⟨instr, method⟩ := Bool.and_eq_true_iff.1 names
    refine ⟨e, mem, by rw [of_decide_eq_true instr, of_decide_eq_true method], ?_⟩
    split at site
    · cases site
    next named =>
      split at site
      · cases site
        exact named
      · cases site

/-- A return that does not lead back to itself leaves fewer points ahead. -/
theorem ahead_lt (h : q.ReturnsTo p r) (onward : ¬ ReflTransGen q.Follows r p) : q.ahead r < q.ahead p := by
  classical
  refine Finset.card_lt_card (Finset.ssubset_iff_subset_ne.2 ⟨fun k mem => ?_, fun same => ?_⟩)
  · obtain ⟨named, follows⟩ := Finset.mem_filter.1 mem
    exact Finset.mem_filter.2 ⟨named, .head (.ret h) follows⟩
  · obtain ⟨e, mem, named, -⟩ := h.entry
    have here : p ∈ (q.path.entries.map fun e => (e.method, e.instr)).toFinset.filter
        fun k => ReflTransGen q.Follows p k :=
      Finset.mem_filter.2 ⟨List.mem_toFinset.2 (List.mem_map.2 ⟨e, mem, named⟩), .refl⟩
    rw [← same] at here
    exact onward (Finset.mem_filter.1 here).2

/-- Returns that go up a ranking of the methods, as from callees to callers, never lead back. -/
theorem returnsOnward_of_rank (rank : Method → Nat)
    (rises : ∀ e ∈ q.path.entries, ∀ r ∈ e.returnSite?, rank e.method < rank r.2) (m : Method) :
    q.ReturnsOnward m := by
  have up {p r : Point} (h : q.ReturnsTo p r) : rank p.1 < rank r.1 := by
    obtain ⟨e, mem, rfl, site⟩ := h.entry
    exact rises e mem _ site
  have along {p r : Point} (h : ReflTransGen q.Follows p r) : rank p.1 ≤ rank r.1 := by
    induction h with
    | refl => exact Nat.le_refl _
    | tail _ step ih =>
      cases step with
      | edge => exact ih
      | ret returns => exact ih.trans (up returns).le
  intro p r _ returns back
  exact Nat.lt_irrefl _ (Nat.lt_of_lt_of_le (up returns) (along back))

end Query

end SinkReach
