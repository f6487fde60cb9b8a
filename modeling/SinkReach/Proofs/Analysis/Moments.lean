import Mathlib.Logic.Relation
import SinkReach.Proofs.Analysis.Frontier
import SinkReach.Proofs.Step.Budget
import SinkReach.Proofs.Step.Transition

/-!
Searches move by move. A move receives a state, skips a node or expands the state kept at one. Every moment
of a search is reached from its start by moves, of which there is at most one at a time, so that of two
moments one is reached from the other. A state that the search holds was held before, is a merge of two
that were, or follows from the state that was expanded.
-/
namespace SinkReach

open Relation (ReflTransGen)

/-- A search at a moment, with the states that it has still to receive and the first successor of the
node which they come from. -/
structure Snapshot where
  search : Search
  first : Option Node
  pending : List ExecState

namespace Snapshot

variable {t : Task} {m : Method} {p p' : Snapshot} {x u : ExecState} {n : Node}

def calls (p : Snapshot) : Instances ExecState := p.search.world.calls

def start (s : Search) : Snapshot := ⟨s, none, []⟩

/-- It is a moment of the search for a method. -/
def IsMoment (t : Task) (m : Method) (p : Snapshot) : Prop := Search.Moment t m p.search p.first p.pending

/-- The state is to be received, or is kept at a node. -/
def Holds (p : Snapshot) (x : ExecState) : Prop := x ∈ p.pending ∨ ∃ n, p.calls.data? n = some x

/-- The state that the next move expands. -/
def expanding? (p : Snapshot) : Option ExecState :=
  match p.pending, p.search.worklist.pop? with
  | [], some (n, worklist) => if worklist.isProcessed n then none else p.calls.data? n
  | _, _ => none

/-- A search after it has taken a node from its worklist. -/
def taken (s : Search) (worklist : Worklist) : Search :=
  { s with worklist, stats := { s.stats with iterations := s.stats.iterations + 1 } }

/-- A search whose world has changed by the expansion of a node. -/
def expanded (s : Search) (w : World) (worklist : Worklist) (n : Node) : Search :=
  ⟨w, worklist.mark n, { s.stats with
    iterations := s.stats.iterations + 1, processed := s.stats.processed + 1 }⟩

/-- The snapshot after the next move; none if that fails or nothing is left to do. -/
def move? (t : Task) (p : Snapshot) : Option Snapshot :=
  match p.pending with
  | x :: xs =>
    match (Searching.receive t.overflow p.first x).run.run p.search with
    | (.ok (), s) => some ⟨s, p.first, xs⟩
    | (.error _, _) => none
  | [] =>
    match p.search.worklist.pop? with
    | none => none
    | some (n, worklist) =>
      if worklist.isProcessed n then some (start (taken p.search worklist))
      else
        match p.calls.data? n, p.calls.first? n with
        | some x, .ok first =>
          match (x.next t.query t.limit).run.run p.search.world with
          | (.ok following, w) => some ⟨expanded p.search w worklist n, first, following⟩
          | (.error _, _) => none
        | _, _ => none

/-- One move. -/
inductive Moves (t : Task) (p : Snapshot) : Snapshot → Prop
  | receive {x : ExecState} {xs : List ExecState} {s : Search} : p.pending = x :: xs →
    (Searching.receive t.overflow p.first x).run.run p.search = (.ok (), s) → Moves t p ⟨s, p.first, xs⟩
  | skip {n : Node} {worklist : Worklist} : p.pending = [] → p.search.worklist.pop? = some (n, worklist) →
    worklist.isProcessed n = true → Moves t p (start (taken p.search worklist))
  | expand {n : Node} {worklist : Worklist} {x : ExecState} {first : Option Node}
      {following : List ExecState} {w : World} : p.pending = [] →
    p.search.worklist.pop? = some (n, worklist) → worklist.isProcessed n = false →
    p.calls.data? n = some x → p.calls.first? n = .ok first →
    (x.next t.query t.limit).run.run p.search.world = (.ok following, w) →
    Moves t p ⟨expanded p.search w worklist n, first, following⟩

theorem moves_iff : Moves t p p' ↔ p.move? t = some p' := by
  constructor
  · intro h
    unfold move?
    cases h with
    | receive pending received => simp only [pending, received]
    | skip pending pop processed => simp only [pending, pop, processed, if_true]
    | expand pending pop fresh data first next =>
      simp only [pending, pop, fresh, data, first, next, Bool.false_eq_true, if_false]
  · intro h
    unfold move? at h
    split at h
    next x xs pending =>
      split at h
      next received =>
        cases h
        exact .receive pending received
      next => cases h
    next pending =>
      split at h
      next => cases h
      next n worklist pop =>
        split at h
        next processed =>
          cases h
          exact .skip pending pop processed
        next fresh =>
          split at h
          next data first =>
            split at h
            next next =>
              cases h
              exact .expand pending pop (eq_false_of_ne_true fresh) data first next
            next => cases h
          next => cases h

theorem IsMoment.moves (h : p.IsMoment t m) (moves : Moves t p p') : p'.IsMoment t m := by
  unfold IsMoment at h
  cases moves with
  | receive pending received =>
    rw [pending] at h
    exact h.receive received
  | skip pending pop processed =>
    rw [pending] at h
    exact h.skip pop processed
  | expand pending pop fresh data first next =>
    rw [pending] at h
    exact h.expand pop fresh data first next

/-- Moments are reached by moves from the start of the search. -/
theorem IsMoment.reached (h : p.IsMoment t m) :
    ∃ s, Search.start t m = .ok s ∧ ReflTransGen (Moves t) (start s) p := by
  obtain ⟨s, first, pending⟩ := p
  unfold IsMoment at h
  dsimp only at h
  induction h with
  | start started => exact ⟨_, started, .refl⟩
  | skip _ pop processed ih =>
    obtain ⟨s₀, started, moves⟩ := ih
    exact ⟨s₀, started, moves.tail (.skip rfl pop processed)⟩
  | expand _ pop fresh data first next ih =>
    obtain ⟨s₀, started, moves⟩ := ih
    exact ⟨s₀, started, moves.tail (.expand rfl pop fresh data first next)⟩
  | receive _ received ih =>
    obtain ⟨s₀, started, moves⟩ := ih
    exact ⟨s₀, started, moves.tail (.receive rfl received)⟩

/-- What holds at the start and is kept by every move holds at every moment. -/
theorem IsMoment.invariant {I : Snapshot → Prop} (h : p.IsMoment t m)
    (begins : ∀ s, Search.start t m = .ok s → I (start s)) (keeps : ∀ {p p'}, I p → Moves t p p' → I p') :
    I p := by
  obtain ⟨s, started, moves⟩ := h.reached
  clear h
  induction moves with
  | refl => exact begins s started
  | tail _ move ih => exact keeps ih move

theorem IsMoment.start {s : Search} (h : Search.start t m = .ok s) : (start s).IsMoment t m := Search.Moment.start h

theorem IsMoment.reaches (h : p.IsMoment t m) (moves : ReflTransGen (Moves t) p p') : p'.IsMoment t m := by
  induction moves with
  | refl => exact h
  | tail _ move ih => exact ih.moves move

/-- Of two moments of a search one is reached from the other. -/
theorem IsMoment.total (h : p.IsMoment t m) (h' : p'.IsMoment t m) :
    ReflTransGen (Moves t) p p' ∨ ReflTransGen (Moves t) p' p := by
  obtain ⟨s, started, moves⟩ := h.reached
  obtain ⟨s', started', moves'⟩ := h'.reached
  cases started.symm.trans started'
  refine ReflTransGen.total_of_right_unique ?_ moves moves'
  intro a b c ab ac
  exact Option.some.inj ((moves_iff.1 ab).symm.trans (moves_iff.1 ac))

/-- The snapshot after a number of moves of the search for a method. -/
def nth? (t : Task) (m : Method) : Nat → Option Snapshot
  | 0 => (Search.start t m).toOption.map start
  | n + 1 => (nth? t m n).bind (move? t)

theorem isMoment_of_nth? {k : Nat} (h : nth? t m k = some p) : p.IsMoment t m := by
  induction k generalizing p with
  | zero =>
    obtain ⟨s, started, rfl⟩ := Option.map_eq_some_iff.1 h
    exact .start (toOption_eq_some.1 started)
  | succ k ih =>
    obtain ⟨p₀, before, moved⟩ := Option.bind_eq_some_iff.1 h
    exact (ih before).moves (moves_iff.2 moved)

section Changes

/-- What a move changes. Either the states held are rearranged, two of them perhaps merged; or the state
kept at a node that was not processed yet is expanded, and what follows from it is held besides. -/
inductive Change (t : Task) (p p' : Snapshot) : Prop
  | settles : p.expanding? = none → p'.calls.count = p.calls.count →
    (∀ n, p'.calls.Places n ↔ p.calls.Places n) →
    p'.search.worklist.processed = p.search.worklist.processed →
    (∀ u, p'.Holds u → p.Holds u ∨ ∃ x y c c', p.Holds x ∧ p.Holds y ∧
      (x.merge y t.overflow).run.run c = (.ok u, c')) → Change t p p'
  | expands {n : Node} {x : ExecState} : p.expanding? = some x → p.calls.data? n = some x →
    n ∈ p.search.worklist.queue → n ∉ p.search.worklist.processed →
    Transition t.query p.search.world p'.search.world x p'.pending →
    p'.search.worklist.processed = n :: p.search.worklist.processed →
    (∀ u, p'.Holds u → p.Holds u ∨ u ∈ p'.pending) → Change t p p'

theorem Moves.holds_received {xs : List ExecState} {s : Search} (pending : p.pending = x :: xs)
    (received : (Searching.receive t.overflow p.first x).run.run p.search = (.ok (), s))
    (hu : (⟨s, p.first, xs⟩ : Snapshot).Holds u) : p.Holds u ∨ ∃ y z c c', p.Holds y ∧ p.Holds z ∧
      (y.merge z t.overflow).run.run c = (.ok u, c') := by
  obtain ⟨stored, c, calls, how, kept, world, -, -⟩ := Searching.receive_ok received
  have incoming : p.Holds x := .inl (pending ▸ List.mem_cons_self)
  rcases hu with mem | ⟨n, data⟩
  · exact .inl (.inl (pending ▸ List.mem_cons_of_mem _ mem))
  · have data : calls.data? n = some u := by rw [← data, Snapshot.calls, world]
    rcases Instances.put_or_kept kept data with ⟨-, rfl⟩ | old
    · cases how with
      | first => exact .inl incoming
      | merged found merge => exact .inr ⟨_, x, _, c, .inr ⟨_, found⟩, incoming, merge⟩
    · exact .inl (.inr ⟨n, old⟩)

/-- A state that is held once another was received has the node and the stack of one held before. -/
theorem Moves.exists_held_received {xs : List ExecState} {s : Search} (pending : p.pending = x :: xs)
    (received : (Searching.receive t.overflow p.first x).run.run p.search = (.ok (), s))
    (hu : (⟨s, p.first, xs⟩ : Snapshot).Holds u) : ∃ y, p.Holds y ∧ u.node = y.node ∧ u.stack = y.stack := by
  rcases holds_received pending received hu with old | ⟨y, z, c, c', hy, -, merge⟩
  · exact ⟨u, old, rfl, rfl⟩
  · obtain ⟨-, node, -, stack⟩ := ExecState.merge_ok merge
    exact ⟨y, hy, node, stack⟩

theorem Moves.change (h : Moves t p p') : Change t p p' := by
  cases h with
  | receive pending received =>
    obtain ⟨stored, c, calls, -, kept, world, worklist, -⟩ := Searching.receive_ok received
    refine .settles (by simp only [expanding?, pending]) ?_ (fun n => ?_) ?_ fun u hu =>
      Moves.holds_received pending received hu
    · rw [Snapshot.calls, world]
      exact Instances.count_keep kept
    · rw [Snapshot.calls, world]
      exact Instances.places_keep kept
    · rw [worklist]
      exact Worklist.processed_schedule
  | skip pending pop processed =>
    refine .settles ?_ rfl (fun n => .rfl) (Worklist.pop?_ok pop).2 fun u hu => .inl ?_
    · simp only [expanding?, pending, pop, processed, if_true]
    · exact hu.elim (fun mem => nomatch mem) .inr
  | @expand n worklist x first following w pending pop fresh data asked next =>
    obtain ⟨queue, processed⟩ := Worklist.pop?_ok pop
    have new : n ∉ p.search.worklist.processed := processed ▸ Worklist.not_mem_processed fresh
    refine .expands (n := n) (x := x) ?_ data ?_ new (ExecState.next_transition next) ?_
      fun u hu => ?_
    · simp only [expanding?, pending, pop, fresh, data, Bool.false_eq_true, if_false]
    · rw [queue]
      exact List.mem_cons_self
    · show (worklist.mark n).processed = _
      rw [Worklist.processed_mark fresh, processed]
    · rcases hu with mem | ⟨k, data'⟩
      · exact .inr mem
      · exact .inl (.inr ⟨k, (ExecState.next_transition next).data? data'⟩)

/-- Nodes stay where they are. -/
theorem Moves.places (h : Moves t p p') (placed : p.calls.Places n) : p'.calls.Places n := by
  cases h.change with
  | settles _ _ places => exact (places n).2 placed
  | expands _ _ _ _ transition => exact transition.places placed

theorem Moves.expands (h : Moves t p p') (here : p.expanding? = some x) :
    Transition t.query p.search.world p'.search.world x p'.pending := by
  cases h.change with
  | settles none => cases none.symm.trans here
  | expands here' _ _ _ transition =>
    cases here'.symm.trans here
    exact transition

theorem holds_expanding (here : p.expanding? = some x) : p.Holds x := by
  unfold expanding? at here
  split at here
  next =>
    split at here
    · cases here
    · exact .inr ⟨_, here⟩
  next => cases here

end Changes

/-- Every state is at a node of a known instance, and kept there. -/
structure Located (q : Query) (p : Snapshot) : Prop where
  drawn : p.calls.Drawn q
  queued : ∀ n ∈ p.search.worklist.queue, p.calls.Places n
  placed : ∀ x, p.Holds x → p.calls.Places x.node
  kept : ∀ n x, p.calls.data? n = some x → x.node.callId = n.callId ∧ x.node.instr = n.instr

namespace Located

variable {q : Query}

theorem start {s : Search} (h : Search.start t m = .ok s) : Located t.query (start s) := by
  obtain ⟨placed, only⟩ := Search.start_kept h
  have frontier := Search.Frontier.start h
  refine ⟨frontier.drawn, frontier.queued, fun x hx => ?_, fun n x data => ?_⟩
  · rcases hx with mem | ⟨n, data⟩
    · cases mem
    · obtain ⟨-, rfl⟩ := only n x data
      exact placed
  · obtain ⟨here, rfl⟩ := only n x data
    exact here

/-- The node that is expanded is that of its state. -/
theorem node_eq (h : Located q p) (queued : n ∈ p.search.worklist.queue) (data : p.calls.data? n = some x) :
    x.node = n := by
  obtain ⟨callId, instr⟩ := h.kept n x data
  exact (h.placed x (.inr ⟨n, data⟩)).eq (h.queued n queued) callId instr

theorem receive {xs : List ExecState} {s : Search} (h : Located q p) (pending : p.pending = x :: xs)
    (received : (Searching.receive t.overflow p.first x).run.run p.search = (.ok (), s)) :
    Located q ⟨s, p.first, xs⟩ := by
  obtain ⟨stored, c, calls, how, keep, world, worklist, -⟩ := Searching.receive_ok received
  have incoming : p.Holds x := .inl (pending ▸ List.mem_cons_self)
  have places (k : Node) : (⟨s, p.first, xs⟩ : Snapshot).calls.Places k ↔ p.calls.Places k := by
    rw [Snapshot.calls, world]
    exact Instances.places_keep keep
  refine ⟨?_, fun k mem => ?_, fun u hu => ?_, fun k u data => ?_⟩
  · rw [Snapshot.calls, world]
    exact h.drawn.keep keep
  · rw [places]
    rw [worklist] at mem
    rcases Worklist.mem_queue_schedule.1 mem with mem | ⟨rfl, -⟩
    · exact h.queued k mem
    · exact h.placed x incoming
  · rw [places]
    obtain ⟨y, hy, node, -⟩ := Moves.exists_held_received pending received hu
    exact node ▸ h.placed y hy
  · have data : calls.data? k = some u := by rw [← data, Snapshot.calls, world]
    rcases Instances.put_or_kept keep data with ⟨here, rfl⟩ | old
    · rw [how.node]
      exact here
    · exact h.kept k u old

theorem moves (h : Located t.query p) (moves : Moves t p p') : Located t.query p' := by
  cases moves with
  | receive pending received => exact h.receive pending received
  | skip pending pop _ =>
    obtain ⟨queue, -⟩ := Worklist.pop?_ok pop
    refine ⟨h.drawn, fun k mem => h.queued k ?_, fun u hu => h.placed u ?_, h.kept⟩
    · rw [queue]
      exact List.mem_cons_of_mem _ mem
    · exact hu.elim (fun mem => nomatch mem) .inr
  | expand pending pop fresh data _ next =>
    obtain ⟨queue, -⟩ := Worklist.pop?_ok pop
    have transition := ExecState.next_transition next
    refine ⟨transition.drawn h.drawn, fun k mem => ?_, fun u hu => ?_, fun k u found => ?_⟩
    · have mem := (Worklist.queue_mark ▸ mem : k ∈ Worklist.queue _)
      exact transition.places (h.queued k (queue ▸ List.mem_cons_of_mem _ mem))
    · rcases hu with mem | ⟨k, found⟩
      · exact transition.placed mem
      · exact transition.places (h.placed u (.inr ⟨k, transition.data? found⟩))
    · exact h.kept k u (transition.data? found)

end Located

theorem IsMoment.located (h : p.IsMoment t m) : Located t.query p :=
  h.invariant (fun _ started => .start started) .moves

end Snapshot
end SinkReach
