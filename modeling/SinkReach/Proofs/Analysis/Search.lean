import SinkReach.Analysis.Search
import SinkReach.Proofs.Route.Instances
import SinkReach.Proofs.Step.Merge
import SinkReach.Proofs.Step.Next

/-!
The search, taken apart. A step of the search that goes on skips a node or expands the state kept at
one; what follows from the state is received one by one. What every step keeps is true when the search
ends.
-/
namespace SinkReach

/-- What is kept at the node of an incoming state, and the context after it. -/
inductive Received (o : Overflow) (w : World) (incoming : ExecState) : ExecState → Context → Prop
  | first : w.calls.data? incoming.node = none → Received o w incoming incoming w.context
  | merged {previous stored : ExecState} {c : Context} :
    w.calls.data? incoming.node = some previous →
    (previous.merge incoming o).run.run w.context = (.ok stored, c) → Received o w incoming stored c

theorem Received.node {o : Overflow} {w : World} {incoming stored : ExecState} {c : Context}
    (h : Received o w incoming stored c) : stored.node = incoming.node := by
  cases h with
  | first => rfl
  | merged _ merge =>
    obtain ⟨-, node, same, -⟩ := ExecState.merge_ok merge
    exact node.trans same

namespace Worklist

variable {w w' : Worklist} {n k : Node} {first : Bool}

theorem pop?_ok (h : w.pop? = some (n, w')) : w.queue = n :: w'.queue ∧ w'.processed = w.processed := by
  unfold pop? at h
  split at h
  · cases h
  next queue =>
    cases h
    exact ⟨queue, rfl⟩

theorem processed_schedule : (w.schedule n first).processed = w.processed := by
  unfold schedule
  split
  · rfl
  · split <;> rfl

theorem isProcessed_schedule : (w.schedule n first).isProcessed k = w.isProcessed k := by
  unfold isProcessed
  rw [processed_schedule]

theorem mem_queue_schedule :
    k ∈ (w.schedule n first).queue ↔ k ∈ w.queue ∨ k = n ∧ w.isProcessed n = false := by
  unfold schedule
  split
  next processed => simp [processed]
  next fresh => split <;> simp [eq_false_of_ne_true fresh, or_comm]

theorem queue_mark : (w.mark n).queue = w.queue := by
  unfold mark
  split <;> rfl

theorem mem_processed_mark : k ∈ (w.mark n).processed ↔ k = n ∨ k ∈ w.processed := by
  unfold mark
  split
  next processed =>
    have known : n ∈ w.processed := List.contains_iff_mem.1 processed
    constructor
    · exact .inr
    · rintro (rfl | mem)
      · exact known
      · exact mem
  next => exact List.mem_cons

theorem processed_mark (fresh : w.isProcessed n = false) : (w.mark n).processed = n :: w.processed := by
  unfold mark
  rw [fresh]
  rfl

theorem not_mem_processed (fresh : w.isProcessed n = false) : n ∉ w.processed :=
  fun mem => Bool.eq_false_iff.1 fresh (List.contains_iff_mem.2 mem)

theorem isProcessed_mark : (w.mark n).isProcessed k = true ↔ k = n ∨ w.isProcessed k = true := by
  unfold isProcessed
  rw [List.contains_iff_mem, mem_processed_mark, List.contains_iff_mem]

end Worklist

namespace Searching

variable {s s' : Search} {t : Task} {o : Overflow} {first : Option Node} {x : ExecState}

theorem explore_ok {α : Type} {x : Explore α} {a : α} :
    (explore x).run.run s = (.ok a, s') ↔
      ∃ w, x.run.run s.world = (.ok a, w) ∧ s' = { s with world := w } := by
  change ((x.run.run s.world).1, { s with world := (x.run.run s.world).2 }) = _ ↔ _
  rcases x.run.run s.world with ⟨r, w⟩
  constructor
  · intro h
    cases h
    exact ⟨w, rfl, rfl⟩
  · rintro ⟨_, h, rfl⟩
    cases h
    rfl

/-- A state that was received is kept at its node, which is queued. -/
theorem receive_ok (h : (receive o first x).run.run s = (.ok (), s')) :
    ∃ stored c calls, Received o s.world x stored c ∧ s.world.calls.keep x.node stored = .ok calls ∧
      s'.world = ⟨calls, c⟩ ∧
      s'.worklist = s.worklist.schedule x.node (first.map (·.instr) = some x.node.instr) ∧
      s'.stats = { s.stats with
        merged := s.stats.merged + if (s.world.calls.data? x.node).isSome then 1 else 0 } := by
  have keeps : ∀ {s₁ : Search} {stored : ExecState}, (do
        let calls ← liftExcept ((← getThe Search).world.calls.keep x.node stored)
        modifyThe Search fun s => { s with
          world := { s.world with calls }
          worklist := s.worklist.schedule x.node (first.map (·.instr) = some x.node.instr) } :
            Searching Unit).run.run s₁ = (.ok (), s') →
      ∃ calls, s₁.world.calls.keep x.node stored = .ok calls ∧ s' = { s₁ with
        world := { s₁.world with calls }
        worklist := s₁.worklist.schedule x.node (first.map (·.instr) = some x.node.instr) } := by
    intro s₁ stored run
    obtain ⟨_, _, get, run⟩ := run_bind_ok.1 run
    cases get
    obtain ⟨calls, _, lift, modify⟩ := run_bind_ok.1 run
    obtain ⟨kept, rfl⟩ := run_lift_ok.1 lift
    cases modify
    exact ⟨calls, kept, rfl⟩
  unfold receive at h
  obtain ⟨_, _, get, h⟩ := run_bind_ok.1 h
  cases get
  simp only at h
  split at h
  next none =>
    obtain ⟨stored, _, choose, h⟩ := run_bind_ok.1 h
    obtain ⟨rfl, rfl⟩ := run_pure_ok.1 choose
    obtain ⟨calls, kept, rfl⟩ := keeps h
    exact ⟨_, _, calls, .first none, kept, rfl, rfl, by rw [none]; rfl⟩
  next previous found =>
    obtain ⟨_, _, count, h⟩ := run_bind_ok.1 h
    cases count
    obtain ⟨stored, _, choose, h⟩ := run_bind_ok.1 h
    obtain ⟨w, explored, rfl⟩ := explore_ok.1 choose
    obtain ⟨c, merge, rfl⟩ := Explore.onContext_ok.1 explored
    obtain ⟨calls, kept, rfl⟩ := keeps h
    exact ⟨stored, c, calls, .merged found merge, kept, rfl, rfl, by rw [found]; rfl⟩

/-- States are received one after the other. -/
inductive Receives (o : Overflow) (first : Option Node) : List ExecState → Search → Search → Prop
  | nil (s : Search) : Receives o first [] s s
  | cons {x : ExecState} {xs : List ExecState} {s s₁ s' : Search} :
    (receive o first x).run.run s = (.ok (), s₁) → Receives o first xs s₁ s' →
    Receives o first (x :: xs) s s'

theorem receives_of_ok {xs : List ExecState} (h : (xs.forM (receive o first)).run.run s = (.ok (), s')) :
    Receives o first xs s s' := by
  induction xs generalizing s with
  | nil =>
    cases h
    exact .nil _
  | cons x xs ih =>
    obtain ⟨_, s₁, head, tail⟩ := run_bind_ok.1 h
    exact .cons head (ih tail)

theorem expand_ok {n : Node} (h : (expand t n x).run.run s = (.ok (), s')) :
    ∃ first following w, s.world.calls.first? n = .ok first ∧
      (x.next t.query t.limit).run.run s.world = (.ok following, w) ∧
      Receives t.overflow first following { s with world := w } s' := by
  unfold expand at h
  obtain ⟨first, s₁, ask, h⟩ := run_bind_ok.1 h
  obtain ⟨w, asked, rfl⟩ := explore_ok.1 ask
  obtain ⟨found, rfl⟩ := Explore.askCalls_ok.1 asked
  obtain ⟨following, s₂, go, h⟩ := run_bind_ok.1 h
  obtain ⟨w, next, rfl⟩ := explore_ok.1 go
  exact ⟨first, following, w, found, next, receives_of_ok h⟩

end Searching

/-- A fault is reported, unless it stops the program. -/
theorem Verdict.ofFault_cases (f : Fault) : ofFault f = .failed f ∨ f = .overflow ∧ ofFault f = .aborted := by
  cases f with
  | overflow => exact .inr ⟨rfl, rfl⟩
  | _ => exact .inl rfl

/-- A fault gives no answer. -/
theorem Verdict.ofFault_ne {v : Verdict} (answers : v.undecided = false) (f : Fault) : ofFault f ≠ v := by
  rintro rfl
  rcases ofFault_cases f with fails | ⟨-, stops⟩
  · rw [fails] at answers
    cases answers
  · rw [stops] at answers
    cases answers

namespace Search

variable {s s' : Search} {t : Task} {r : Result}

/-- A search starts with the initial state at the entry of a new instance. -/
theorem start_ok {m : Method} (h : start t m = .ok s) :
    ∃ entry calls calls', (Instances.enter t.query m).run.run .empty = (.ok entry, calls) ∧
      calls.keep entry (.initial entry) = .ok calls' ∧ s = ⟨⟨calls', {}⟩, .start entry, {}⟩ := by
  unfold start at h
  rcases enter : (Instances.enter (α := ExecState) t.query m).run.run .empty with ⟨r, calls⟩
  rw [enter] at h
  obtain ⟨entry, ok, rest⟩ := except_bind_ok.1 h
  obtain ⟨calls', keep, rest⟩ := except_bind_ok.1 rest
  cases rest
  cases ok
  exact ⟨entry, calls, calls', rfl, keep, rfl⟩

/-- A step that goes on: a node that was processed is skipped, the state kept at another is expanded. -/
inductive Steps (t : Task) (s : Search) : Search → Prop
  | skip {n : Node} {worklist : Worklist} : s.worklist.pop? = some (n, worklist) →
    worklist.isProcessed n = true →
    Steps t s { s with worklist, stats := { s.stats with iterations := s.stats.iterations + 1 } }
  | expand {n : Node} {worklist : Worklist} {x : ExecState} {first : Option Node}
      {following : List ExecState} {w : World} {s' : Search} :
    s.worklist.pop? = some (n, worklist) → worklist.isProcessed n = false →
    s.world.calls.data? n = some x → t.query.path.isSink x.node.method x.node.instr = false →
    s.world.calls.first? n = .ok first → (x.next t.query t.limit).run.run s.world = (.ok following, w) →
    Searching.Receives t.overflow first following ⟨w, worklist.mark n, { s.stats with
      iterations := s.stats.iterations + 1, processed := s.stats.processed + 1 }⟩ s' → Steps t s s'

theorem steps_of_running (h : s.step t = .running s') : Steps t s s' := by
  unfold step at h
  split at h
  · cases h
  next n worklist popped =>
    split at h
    next done =>
      cases h
      exact .skip popped done
    next fresh =>
      unfold process at h
      dsimp only at h
      split at h
      · cases h
      next x found =>
        split at h
        · cases h
        next notSink =>
          split at h
          next expanded =>
            cases h
            obtain ⟨first, following, w, found₁, next, receives⟩ := Searching.expand_ok expanded
            exact .expand popped (eq_false_of_ne_true fresh) found (eq_false_of_ne_true notSink) found₁ next
              receives
          next => cases h

/-- The search before the node at hand is expanded. -/
def processing (s : Search) (worklist : Worklist) (n : Node) : Search :=
  { s with
    worklist := worklist.mark n
    stats := { s.stats with iterations := s.stats.iterations + 1, processed := s.stats.processed + 1 } }

/-- A step that ends the search: nothing is queued, the node that was taken has no state, the solver is asked
about the one at the sink, or a fault comes up where another one is expanded. -/
inductive Ends (t : Task) (s : Search) : Result → Prop
  | empty : s.worklist.queue = [] → Ends t s ⟨.exhausted, none, s.stats⟩
  | lost {n : Node} {worklist : Worklist} {stats : Stats} : s.worklist.pop? = some (n, worklist) →
    worklist.isProcessed n = false → s.world.calls.data? n = none →
    Ends t s ⟨.failed (.noState n), none, stats⟩
  | sink {n : Node} {worklist : Worklist} {x : ExecState} : s.worklist.pop? = some (n, worklist) →
    worklist.isProcessed n = false → s.world.calls.data? n = some x →
    t.query.path.isSink x.node.method x.node.instr = true →
    Ends t s (t.conclude x (s.processing worklist n).stats)
  | fault {n : Node} {worklist : Worklist} {x : ExecState} {f : Fault} {s' : Search} :
    s.worklist.pop? = some (n, worklist) → worklist.isProcessed n = false → s.world.calls.data? n = some x →
    (Searching.expand t n x).run.run (s.processing worklist n) = (.error f, s') →
    Ends t s ⟨.ofFault f, none, s'.stats⟩

theorem ends_of_done (h : s.step t = .done r) : Ends t s r := by
  unfold step at h
  split at h
  next popped =>
    cases h
    refine .empty ?_
    unfold Worklist.pop? at popped
    split at popped
    next empty => exact empty
    next => cases popped
  next n worklist popped =>
    split at h
    · cases h
    next fresh =>
      unfold process at h
      dsimp only at h
      split at h
      next none =>
        cases h
        exact .lost popped (eq_false_of_ne_true fresh) none
      next x found =>
        split at h
        next isSink =>
          cases h
          exact .sink popped (eq_false_of_ne_true fresh) found isSink
        next =>
          split at h
          · cases h
          next f s' failed =>
            cases h
            exact .fault popped (eq_false_of_ne_true fresh) found failed

/-- Goes on for a number of steps that do not end the search. -/
def after? (t : Task) : Nat → Search → Option Search
  | 0, s => some s
  | n + 1, s =>
    match s.step t with
    | .running s => after? t n s
    | .done _ => none

/-- What every step keeps is true after any number of steps. -/
theorem after?_invariant (I : Search → Prop) (keeps : ∀ s s', I s → s.step t = .running s' → I s') {n : Nat}
    (start : I s) (h : s.after? t n = some s') : I s' := by
  induction n generalizing s with
  | zero =>
    cases h
    exact start
  | succ n ih =>
    unfold after? at h
    split at h
    next s₁ running => exact ih (keeps s s₁ start running) h
    next => cases h

/-- A search that ends has gone through some number of steps. -/
theorem exists_after? {fuel : Nat} (h : s.run t fuel = some r) :
    ∃ n s', s.after? t n = some s' ∧ s'.step t = .done r := by
  induction fuel generalizing s with
  | zero => cases h
  | succ fuel ih =>
    unfold run at h
    split at h
    next ended =>
      cases h
      exact ⟨0, s, rfl, ended⟩
    next s₁ running =>
      obtain ⟨n, s', after, ended⟩ := ih h
      refine ⟨n + 1, s', ?_, ended⟩
      unfold after?
      rw [running]
      exact after

/-- A search that ends after some number of steps ends with fuel for one more. -/
theorem run_of_after? {n : Nat} (after : s.after? t n = some s') (ended : s'.step t = .done r) :
    s.run t (n + 1) = some r := by
  induction n generalizing s with
  | zero =>
    cases after
    rw [run, ended]
  | succ n ih =>
    unfold after? at after
    split at after
    next running =>
      rw [run, running]
      exact ih after
    next => cases after

/-- The search for a method gets to a state. -/
def Reached (t : Task) (m : Method) (s : Search) : Prop :=
  ∃ s₀ n, Search.start t m = .ok s₀ ∧ s₀.after? t n = some s

end Search

/-- An analysis that does not fail at once is a search that ends. -/
theorem Analyzer.analyze_ok {a : Analyzer} {fuel : Nat} {q : Query} {m : Method} {o : Overflow} {r : Result}
    (h : a.analyze fuel q m o = some r) :
    (∃ f, r.verdict = .failed f) ∨ ∃ s, Search.Reached (a.task q o) m s ∧ s.step (a.task q o) = .done r := by
  unfold Analyzer.analyze at h
  split at h
  next f _ =>
    cases h
    exact .inl ⟨f, rfl⟩
  next s₀ start =>
    obtain ⟨n, s, after, ended⟩ := Search.exists_after? h
    exact .inr ⟨s, ⟨s₀, n, start, after⟩, ended⟩

/-- A procedure that searches for models within some budget. -/
def Solver.IsModelSearch (s : Solver) : Prop :=
  ∃ budget, ∀ constraints, s.check constraints = .ok (ModelSearch.check budget constraints)

/-- Valid settings name such a procedure. -/
theorem Analyzer.ofSettings_isModelSearch {settings : Settings} {a : Analyzer}
    (h : Analyzer.ofSettings settings = .ok a) : a.solver.IsModelSearch := by
  obtain ⟨_, _, h⟩ := except_bind_ok.1 h
  obtain ⟨solver, named, h⟩ := except_bind_ok.1 h
  cases h
  obtain ⟨_, _, named⟩ := except_bind_ok.1 named
  cases named
  exact ⟨_, fun _ => rfl⟩

/-- The analyzer of the default settings. -/
def plainAnalyzer : Analyzer :=
  ⟨{}, ⟨"lightweight", fun constraints => .ok (ModelSearch.check 50000 constraints)⟩⟩

theorem ofSettings_default : Analyzer.ofSettings {} = .ok plainAnalyzer := rfl

theorem plainAnalyzer_isModelSearch : plainAnalyzer.solver.IsModelSearch :=
  Analyzer.ofSettings_isModelSearch ofSettings_default

end SinkReach
