import SinkReach.Proofs.Analysis.Lineage

/-!
What the path of a state says of the search. A step appends the node it leads to, and a merge keeps what both
paths share, followed by the node at which they meet; so links of a path are not single steps, but each of
them stands for steps that were made, one after the other, from nodes that were processed. As a node is
processed once, and everything on a path but its end was, no path of a state that is expanded comes back.
-/
namespace SinkReach

open Relation (ReflTransGen TransGen)

namespace Snapshot

variable {t : Task} {m : Method} {p p' : Snapshot} {x f u : ExecState} {a b : Node}

/-- Where the traverser goes from a state: to a successor of its node, to the entry of a callee's new instance,
behind the call site on its stack, or along the path into a new instance of a caller. -/
inductive Traverses (q : Query) (calls : Instances ExecState) (x : ExecState) : Node → Prop
  | successor {b : Node} {ns : List Node} : calls.successors x.node = .ok ns → b ∈ ns → Traverses q calls x b
  | entry {callee : Method} {g : Digraph} : q.graph callee = .ok g →
    Traverses q calls x ⟨calls.count, callee, Body.entry⟩
  | returns {caller b : Node} : x.stack.top.caller = some caller → calls.first? caller = .ok (some b) →
    Traverses q calls x b
  | resumes {i : InstrId} {caller : Method} : Instances.returnSite q x.node = .ok (i, caller) →
    Traverses q calls x ⟨calls.count, caller, i⟩

theorem traverses_of_transition {q : Query} {w w' : World} {fs : List ExecState}
    (h : Transition q w w' x fs) (mem : f ∈ fs) : Traverses q w.calls x f.node := by
  cases h with
  | stays _ goes =>
    obtain ⟨ns, found, edge⟩ := (goes f mem).edge
    exact .successor found edge
  | enters graph _ node =>
    obtain rfl := List.mem_singleton.1 mem
    exact node ▸ .entry graph
  | leaves _ _ top first =>
    obtain rfl := List.mem_singleton.1 mem
    exact .returns top first
  | resumes _ _ site _ _ node =>
    obtain rfl := List.mem_singleton.1 mem
    exact node ▸ .resumes site

/-- Until a moment, a node was processed and its state expanded, and that led to another node. -/
structure Leads (t : Task) (m : Method) (p : Snapshot) (a b : Node) : Prop where
  processed : a ∈ p.search.worklist.processed
  step : ∃ p₀ p₁ x f, p₀.IsMoment t m ∧ Expands t p₀ p₁ x f ∧ ReflTransGen (Moves t) p₁ p ∧ x.node = a ∧
    f.node = b ∧ Traverses t.query p₀.calls x b

/-- What is expanded next is kept at a node that waits and is not processed. -/
theorem expanding?_some (here : p.expanding? = some x) :
    ∃ n, p.calls.data? n = some x ∧ n ∈ p.search.worklist.queue ∧ n ∉ p.search.worklist.processed := by
  unfold expanding? at here
  split at here
  next n worklist _ pop =>
    split at here
    · cases here
    next fresh =>
      obtain ⟨queue, processed⟩ := Worklist.pop?_ok pop
      refine ⟨n, here, queue ▸ List.mem_cons_self, ?_⟩
      rw [← processed]
      exact Worklist.not_mem_processed (eq_false_of_ne_true fresh)
  next => cases here

/-- A node is processed by the expansion of its state. -/
theorem Expands.processed (h : Expands t p p' x f) (moment : p.IsMoment t m) :
    x.node ∈ p'.search.worklist.processed := by
  cases h.moves.change with
  | settles none => cases none.symm.trans h.here
  | expands here data queued _ _ processed =>
    cases h.here.symm.trans here
    rw [moment.located.node_eq queued data, processed]
    exact List.mem_cons_self

/-- What was processed stays processed. -/
theorem Moves.processed (h : Moves t p p') (mem : a ∈ p.search.worklist.processed) :
    a ∈ p'.search.worklist.processed := by
  cases h.change with
  | settles _ _ _ same => exact same ▸ mem
  | expands _ _ _ _ _ more => exact more ▸ List.mem_cons_of_mem _ mem

theorem Leads.moves (h : Leads t m p a b) (moves : Moves t p p') : Leads t m p' a b := by
  obtain ⟨processed, p₀, p₁, x, f, moment, expands, later, rest⟩ := h
  exact ⟨moves.processed processed, p₀, p₁, x, f, moment, expands, later.tail moves, rest⟩

/-- The path starts at the entry and led where it ends; what is before its end is processed, once. -/
structure Truthful (t : Task) (m : Method) (p : Snapshot) (x : ExecState) : Prop where
  head : x.path.toList.head? = some ⟨0, m, Body.entry⟩
  processed : ∀ n ∈ x.path.before, n ∈ p.search.worklist.processed
  once : x.path.before.Nodup
  links : x.path.toList.Pairwise (TransGen (Leads t m p))

namespace Truthful

theorem initial : Truthful t m p (.initial ⟨0, m, Body.entry⟩) :=
  ⟨rfl, fun _ mem => (nomatch mem), .nil, List.pairwise_singleton ..⟩

theorem moves (h : Truthful t m p x) (moves : Moves t p p') : Truthful t m p' x :=
  ⟨h.head, fun n mem => moves.processed (h.processed n mem), h.once,
    h.links.imp fun chain => TransGen.mono (fun _ _ leads => Leads.moves leads moves) _ _ chain⟩

theorem merge {y r : ExecState} {o : Overflow} {c c' : Context} (merge : (x.merge y o).run.run c = (.ok r, c'))
    (hx : Truthful t m p x) (hy : Truthful t m p y) : Truthful t m p r := by
  obtain ⟨path, -⟩ := ExecState.merge_history merge
  have before := (Path.merge?_before path).sublist
  obtain ⟨last, -⟩ := Path.merge?_last path
  have subset : r.path.before ⊆ x.path.before := by
    have reversed := before.subset
    rwa [List.reverse_subset, List.subset_reverse] at reversed
  refine ⟨?_, fun n mem => hx.processed n (subset mem), ?_, ?_⟩
  · rw [Path.merge?_head path (hx.head.trans hy.head.symm)]
    exact hx.head
  · exact hx.once.sublist (List.reverse_sublist.1 before)
  · refine hx.links.sublist ?_
    rw [Path.toList, Path.toList, last]
    exact before.append (.refl _)

/-- A state that is expanded was not processed, so its path has not been there before. -/
theorem nodup (h : Truthful t m p x) (fresh : x.node ∉ p.search.worklist.processed) : x.path.toList.Nodup := by
  refine List.nodup_append.2 ⟨List.nodup_reverse.2 h.once, List.nodup_singleton _, ?_⟩
  rintro n mem k here rfl
  obtain rfl := List.mem_singleton.1 here
  exact fresh (h.processed _ (List.mem_reverse.1 mem))

/-- The path of a state that follows goes one step further. -/
theorem follows (h : Truthful t m p x) (moment : p.IsMoment t m) (expands : Expands t p p' x f) :
    Truthful t m p' f := by
  obtain ⟨_, _, -, -, advances⟩ := expands.advances
  obtain ⟨n, data, queued, fresh⟩ := expanding?_some expands.here
  have node := moment.located.node_eq queued data
  have processed := expands.processed moment
  have leads : Leads t m p' x.path.last f.node :=
    ⟨processed, p, p', x, f, moment, expands, .refl, rfl, rfl,
      traverses_of_transition (expands.moves.expands expands.here) expands.mem⟩
  obtain ⟨head, before, once, links⟩ := h.moves expands.moves
  have path : f.path.toList = x.path.toList ++ [f.node] := by rw [advances.path, Path.toList_push]
  refine ⟨?_, ?_, ?_, ?_⟩
  · rw [path, List.head?_append, head]
    rfl
  · rw [advances.path]
    exact List.forall_mem_cons.2 ⟨processed, before⟩
  · rw [advances.path]
    exact List.nodup_cons.2 ⟨fun back => fresh (node ▸ h.processed _ back), once⟩
  · rw [path]
    refine List.pairwise_append.2 ⟨links, List.pairwise_singleton .., fun a mem b here => ?_⟩
    obtain rfl := List.mem_singleton.1 here
    rcases List.mem_append.1 mem with earlier | last
    · have chain := (List.pairwise_append.1 links).2.2 a earlier x.path.last List.mem_cons_self
      exact chain.tail leads
    · obtain rfl := List.mem_singleton.1 last
      exact .single leads

end Truthful

theorem IsMoment.truthful (moment : p.IsMoment t m) (held : p.Holds x) : Truthful t m p x := by
  obtain ⟨s, started, moves⟩ := moment.reached
  induction moves generalizing x with
  | refl =>
    rcases held with mem | ⟨n, data⟩
    · cases mem
    · obtain ⟨-, rfl⟩ := (Search.start_kept started).2 n x data
      exact .initial
  | @tail p p' before move ih =>
    have moment := (IsMoment.start started).reaches before
    rcases move.holds held with old | ⟨y, z, c, c', hy, hz, merge⟩ | ⟨y, expands⟩
    · exact (ih moment old).moves move
    · exact ((ih moment hy).merge merge (ih moment hz)).moves move
    · exact (ih moment (holds_expanding expands.here)).follows moment expands

/-- Paths are truthful. The state that is expanded next, be it traversed or checked, is kept at the node that
its path ends with; the path starts at the entry of the analysed method and has no node twice; and between two
nodes that follow each other on it, there is a chain of steps of the traverser, at least one, each of them
from a node that was processed in this search. -/
theorem paths_truthful (moment : p.IsMoment t m) (here : p.expanding? = some x) :
    (∃ n, x.path.toList.getLast? = some n ∧ p.calls.data? n = some x ∧ n ∉ p.search.worklist.processed) ∧
      x.path.toList.head? = some ⟨0, m, Body.entry⟩ ∧ x.path.toList.Nodup ∧
      x.path.toList.IsChain (TransGen (Leads t m p)) := by
  have truthful := moment.truthful (holds_expanding here)
  obtain ⟨n, data, queued, fresh⟩ := expanding?_some here
  obtain rfl := moment.located.node_eq queued data
  exact ⟨⟨_, x.path.getLast?_toList, data, fresh⟩, truthful.head, truthful.nodup fresh, truthful.links.isChain⟩

section Picking

/-- Whether the state to be expanded after a number of moves passes a test. -/
def expandsAfter (t : Task) (m : Method) (k : Nat) (test : ExecState → Bool) : Bool :=
  (nth? t m k).any fun p => p.expanding?.any test

/-- The state behind the call, whose path goes through the node at which the two ways of the callee join. -/
theorem paths_truthful_picking : ∃ (p : Snapshot) (x : ExecState), p.IsMoment callingTask calling ∧
    p.expanding? = some x ∧ p.calls.data? ⟨0, calling, 2⟩ = some x ∧
    x.path.toList = [⟨0, calling, 0⟩, ⟨0, calling, 1⟩, ⟨1, picking, 0⟩, ⟨1, picking, 1⟩, ⟨1, picking, 2⟩,
      ⟨1, picking, 4⟩, ⟨0, calling, 2⟩] ∧
    x.path.toList.Nodup ∧ x.path.toList.IsChain (TransGen (Leads callingTask calling p)) := by
  have run : expandsAfter callingTask calling 16 (fun x =>
      x.path.toList = [⟨0, calling, 0⟩, ⟨0, calling, 1⟩, ⟨1, picking, 0⟩, ⟨1, picking, 1⟩, ⟨1, picking, 2⟩,
        ⟨1, picking, 4⟩, ⟨0, calling, 2⟩]) = true := by
    decide +kernel
  obtain ⟨p, after, tested⟩ := (Option.any_eq_true ..).1 run
  obtain ⟨x, here, tested⟩ := (Option.any_eq_true ..).1 tested
  have path := of_decide_eq_true tested
  have moment := isMoment_of_nth? after
  obtain ⟨⟨n, last, data, -⟩, -, once, links⟩ := paths_truthful moment here
  rw [path] at last
  cases last
  exact ⟨p, x, moment, here, data, path, once, links⟩

end Picking
end Snapshot
end SinkReach
