import Mathlib.Data.Set.Card
import SinkReach.Proofs.Analysis.Exhaustion
import SinkReach.Proofs.Analysis.Faults

/-!
The search of a body without calls is complete: it asks the solver if and only if the sink can be reached in
the pruned graph. Every step stays in the first instance and goes along all edges there, so what is queued can
be reached, and once nothing is queued what was processed is all that can be reached, each node once.
-/
namespace SinkReach

variable {q : Query} {t : Task} {m : Method} {b : Body} {g : Digraph} {limit : Nat}

section Edges

/-- A step without a call or a site to return to goes along edges, within its instance. -/
theorem ExecState.next_stays {x : ExecState} {w w' : World} {fs : List ExecState}
    (inMethod : ∀ e ∈ q.path.entries, e.method = m) (path : q.path.ReturnsNowhere) (body : q.body m = .ok b)
    (callFree : b.callFree = true) (graph : q.graph m = .ok g) (within : x.Within m)
    (uniform : w.calls.Uniform q m) (next : (x.next q limit).run.run w = (.ok fs, w')) :
    w'.calls = w.calls ∧ ∀ f ∈ fs, f.Within m ∧ ∃ j, g.Edge x.node.instr j ∧ f.node = x.node.withInstr j := by
  obtain ⟨i, -, led⟩ := next_led inMethod body callFree within uniform next
  have inside := led.within
  cases next_transition next with
  | stays calls goes =>
    refine ⟨calls, fun f mem => ⟨inside f mem, ?_⟩⟩
    obtain ⟨ns, found, edge⟩ := (goes f mem).edge
    obtain ⟨g', graph', rfl⟩ := uniform.successors found
    cases graph.symm.trans graph'
    obtain ⟨j, successor, node⟩ := List.mem_map.1 edge
    exact ⟨j, successor, node.symm⟩
  | enters _ _ _ stack =>
    have outermost := (inside _ List.mem_cons_self).outermost
    rw [stack] at outermost
    cases outermost
  | leaves _ inner => exact absurd within.outermost inner
  | resumes _ _ site => exact absurd site (path.returnSite _ _)

end Edges

/-- The node is one of the first instance, and the entry reaches it. -/
structure Node.Reachable (n : Node) (m : Method) (g : Digraph) : Prop where
  callId : n.callId = 0
  method : n.method = m
  reached : g.Reaches Body.entry n.instr

theorem Node.Reachable.eq {n k : Node} (h : n.Reachable m g) (h' : k.Reachable m g)
    (same : n.instr = k.instr) : n = k := by
  obtain ⟨callId, method, instr⟩ := n
  obtain ⟨callId', method', instr'⟩ := k
  obtain ⟨rfl, rfl, -⟩ := h
  obtain ⟨rfl, rfl, -⟩ := h'
  cases same
  rfl

theorem Node.Reachable.step {n : Node} (h : n.Reachable m g) {j : InstrId} (edge : g.Edge n.instr j) :
    (n.withInstr j).Reachable m g :=
  ⟨h.callId, h.method, h.reached.tail edge⟩

namespace Snapshot

variable {p p' : Snapshot} {x : ExecState}

/-- All nodes that are known are reachable, those that were processed are counted, each once, and the
solver was not asked yet. -/
structure Visiting (q : Query) (m : Method) (g : Digraph) (p : Snapshot) : Prop where
  uniform : p.calls.Uniform q m
  held : ∀ x, p.Holds x → x.Within m ∧ x.node.Reachable m g
  known : ∀ n, n ∈ p.search.worklist.queue ∨ n ∈ p.search.worklist.processed → n.Reachable m g
  once : p.search.worklist.processed.Nodup
  counted : p.search.stats.processed = p.search.worklist.processed.length
  unasked : p.search.stats.queries = 0

namespace Visiting

theorem start {s : Search} (h : Search.start t m = .ok s) : Visiting t.query m g (start s) := by
  have kept := (Search.start_kept h).2
  obtain ⟨entry, calls, calls', enter, keep, rfl⟩ := Search.start_ok h
  obtain ⟨g', graph, rfl, rfl⟩ := Instances.enter_ok enter
  have entered : Node.Reachable ⟨0, m, Body.entry⟩ m g := ⟨rfl, rfl, .refl⟩
  refine ⟨(Instances.Uniform.empty.withNew graph).keep keep, fun x hx => ?_, fun n mem => ?_, .nil, rfl, rfl⟩
  · rcases hx with mem | ⟨n, data⟩
    · cases mem
    · obtain ⟨-, rfl⟩ := kept n x data
      exact ⟨⟨rfl, rfl⟩, entered⟩
  · rcases mem with mem | mem
    · cases List.mem_singleton.1 mem
      exact entered
    · cases mem

theorem receive {xs : List ExecState} {s : Search} (h : Visiting q m g p) (pending : p.pending = x :: xs)
    (received : (Searching.receive t.overflow p.first x).run.run p.search = (.ok (), s)) :
    Visiting q m g ⟨s, p.first, xs⟩ := by
  obtain ⟨stored, c, calls, -, keep, world, worklist, stats⟩ := Searching.receive_ok received
  have incoming := h.held x (.inl (pending ▸ List.mem_cons_self))
  have processed : s.worklist.processed = p.search.worklist.processed := by
    rw [worklist, Worklist.processed_schedule]
  refine ⟨?_, fun u hu => ?_, fun n mem => ?_, processed ▸ h.once, ?_, ?_⟩
  · rw [Snapshot.calls, world]
    exact h.uniform.keep keep
  · obtain ⟨y, hy, node, stack⟩ := Moves.exists_held_received pending received hu
    obtain ⟨within, reachable⟩ := h.held y hy
    exact ⟨⟨node ▸ within.method, stack ▸ within.outermost⟩, node ▸ reachable⟩
  · rcases mem with mem | mem
    · rw [worklist] at mem
      rcases Worklist.mem_queue_schedule.1 mem with old | ⟨rfl, -⟩
      · exact h.known n (.inl old)
      · exact incoming.2
    · exact h.known n (.inr (processed ▸ mem))
  · rw [stats, processed]
    exact h.counted
  · rw [stats]
    exact h.unasked

theorem moves (h : Visiting t.query m g p) (inMethod : ∀ e ∈ t.query.path.entries, e.method = m)
    (path : t.query.path.ReturnsNowhere) (body : t.query.body m = .ok b) (callFree : b.callFree = true)
    (graph : t.query.graph m = .ok g) (moves : Moves t p p') : Visiting t.query m g p' := by
  cases moves with
  | receive pending received => exact h.receive pending received
  | skip pending pop _ =>
    obtain ⟨queue, processed⟩ := Worklist.pop?_ok pop
    refine ⟨h.uniform, fun u hu => h.held u (hu.elim (fun mem => nomatch mem) .inr), fun k mem => h.known k ?_,
      processed ▸ h.once, processed ▸ h.counted, h.unasked⟩
    exact mem.imp (fun mem => queue ▸ List.mem_cons_of_mem _ mem) fun mem => processed ▸ mem
  | @expand n worklist x first fs w pending pop fresh data _ next =>
    obtain ⟨queue, processed⟩ := Worklist.pop?_ok pop
    obtain ⟨within, reachable⟩ := h.held x (.inr ⟨n, data⟩)
    obtain ⟨calls, stays⟩ := ExecState.next_stays inMethod path body callFree graph within h.uniform next
    have marked : (worklist.mark n).processed = n :: p.search.worklist.processed :=
      processed ▸ Worklist.processed_mark fresh
    have isNew : n ∉ p.search.worklist.processed := processed ▸ Worklist.not_mem_processed fresh
    refine ⟨?_, fun u hu => ?_, fun k mem => ?_, ?_, ?_, h.unasked⟩
    · exact (calls ▸ h.uniform : w.calls.Uniform t.query m)
    · rcases hu with mem | ⟨k, found⟩
      · obtain ⟨inside, j, edge, node⟩ := stays u mem
        exact ⟨inside, node ▸ reachable.step edge⟩
      · exact h.held u (.inr ⟨k, (congrArg (Instances.data? · k) calls).symm.trans found⟩)
    · rcases mem with mem | mem
      · have mem : k ∈ worklist.queue := Worklist.queue_mark ▸ mem
        exact h.known k (.inl (queue ▸ List.mem_cons_of_mem _ mem))
      · rcases List.mem_cons.1 (marked ▸ mem : k ∈ n :: p.search.worklist.processed) with rfl | old
        · exact h.known k (.inl (queue ▸ List.mem_cons_self))
        · exact h.known k (.inr old)
    · exact (marked ▸ List.nodup_cons.2 ⟨isNew, h.once⟩ : (worklist.mark n).processed.Nodup)
    · show p.search.stats.processed + 1 = (worklist.mark n).processed.length
      rw [marked, List.length_cons, h.counted]

end Visiting

end Snapshot

namespace Search

variable {s : Search}

/-- What the search has processed is closed under steps. -/
theorem Reached.closed (h : Reached t m s) (inMethod : ∀ e ∈ t.query.path.entries, e.method = m)
    (body : t.query.body m = .ok b) (callFree : b.callFree = true) : s.Closed t.query m b [] := by
  obtain ⟨s₀, n, start, after⟩ := h
  refine after?_invariant (fun s => s.Closed t.query m b []) (fun s s' closed running => ?_) (.start start) after
  exact closed.steps inMethod body callFree (steps_of_running running)

end Search

section Forks

end Forks
end SinkReach
