import Mathlib.Data.List.Forall2
import SinkReach.Proofs.Analysis.Search
import SinkReach.Proofs.Analysis.Unmerged
import SinkReach.Proofs.Term.Models

/-!
A search that is exhausted has seen every instruction that a run can get to. Where a step leads depends on
the instruction alone, so what the search has processed is closed under steps.
-/
namespace SinkReach

variable {q : Query} {m : Method} {limit : Nat} {b : Body} {w w' : World} {x : ExecState}
  {fs : List ExecState} {s s' : Search} {t : Task} {first : Option Node}

section Leading

/-- Instructions to which a way leads from one of a method that was entered without a call. -/
def Way.leads (q : Query) (m : Method) (g : Digraph) (k : InstrId) : Way → List InstrId
  | .all => g.successors k
  | .first => (g.successors k).head?.toList
  | .out => ((Instances.returnSite q ⟨0, m, k⟩).toOption.map (·.1)).toList

/-- States that go on from another one to nodes. -/
def Advances (x : ExecState) (ns : List Node) (fs : List ExecState) : Prop :=
  List.Forall₂ (fun n f => ∃ u, f = x.advance n u) ns fs

theorem Advances.map (x : ExecState) (ns : List Node) (u : Node → SymState) :
    Advances x ns (ns.map fun n => x.advance n (u n)) :=
  List.forall₂_map_right_iff.2 (List.forall₂_same.2 fun n _ => ⟨u n, rfl⟩)

theorem Advances.afterSwitch {u : SymState} {cases : List (Term × InstrId)} {ns : List Node}
    (h : ExecState.AfterSwitch x u cases ns fs) : Advances x ns fs := by
  induction h with
  | nil => exact .nil
  | cons l _ _ ih => exact .cons ⟨_, rfl⟩ ih

/-- The states that follow from a step, by instruction. -/
structure Led (q : Query) (m : Method) (w' : World) (k : InstrId) (y : Way) (fs : List ExecState) : Prop where
  instrs : ∃ g, q.graph m = .ok g ∧ fs.map (·.node.instr) = y.leads q m g k
  within : ∀ f ∈ fs, f.Within m
  uniform : w'.calls.Uniform q m

theorem Advances.led {js : List InstrId} {g : Digraph} {y : Way}
    (h : Advances x (js.map x.node.withInstr) fs) (within : x.Within m) (uniform : w.calls.Uniform q m)
    (graph : q.graph m = .ok g) (leads : y.leads q m g x.node.instr = js) :
    Led q m w x.node.instr y fs := by
  have each : fs.map (·.node.instr) = js ∧ ∀ f ∈ fs, f.Within m := by
    clear leads
    induction js generalizing fs with
    | nil =>
      cases h
      exact ⟨rfl, fun _ mem => nomatch mem⟩
    | cons j js ih =>
      cases h with
      | cons head rest =>
        obtain ⟨u, rfl⟩ := head
        obtain ⟨instrs, inside⟩ := ih rest
        exact ⟨congrArg (j :: ·) instrs, List.forall_mem_cons.2 ⟨⟨within.method, within.outermost⟩, inside⟩⟩
  exact ⟨⟨g, graph, each.1.trans leads.symm⟩, each.2, uniform⟩

theorem ExecState.proceed_led {e : Effect} {us : List Update} {y : Way}
    (inMethod : ∀ e ∈ q.path.entries, e.method = m) (within : x.Within m) (uniform : w.calls.Uniform q m)
    (way : e.way? = some y) (h : (x.proceed q limit b us e).run.run w = (.ok fs, w')) :
    Led q m w' x.node.instr y fs := by
  cases proceed_ok h with
  | goOn found | branch found =>
    cases way
    obtain ⟨g, graph, rfl⟩ := uniform.successors found
    exact (Advances.map x _ _).led within uniform graph rfl
  | parameter _ first =>
    cases way
    obtain ⟨ns, found, rfl⟩ := Instances.first?_ok first
    obtain ⟨g, graph, rfl⟩ := uniform.successors found
    refine ⟨⟨g, graph, ?_⟩, ?_, uniform⟩
    · rw [Way.leads]
      cases g.successors x.node.instr <;> rfl
    · intro f mem
      obtain ⟨n, head, rfl⟩ := Option.map_eq_some_iff.1 (Option.mem_toList.1 mem)
      obtain ⟨j, -, rfl⟩ := List.mem_map.1 (List.mem_of_mem_head? head)
      exact ⟨within.method, within.outermost⟩
  | switch found after =>
    cases way
    obtain ⟨g, graph, rfl⟩ := uniform.successors found
    exact (Advances.afterSwitch after).led within uniform graph rfl
  | skip | enter => cases way
  | resume _ resume =>
    cases way
    obtain ⟨i, m', g, returns, graph, rfl, rfl⟩ := Instances.resume_ok resume
    obtain rfl := Instances.returnSite_method inMethod returns
    -- The path names the site by method and instruction, whatever the instance.
    have returns' : Instances.returnSite q ⟨0, m', x.node.instr⟩ = .ok (i, m') := by
      refine Instances.returnSite_congr ?_ ?_ returns
      · exact within.method
      · rfl
    refine ⟨⟨g, graph, ?_⟩, List.forall_mem_singleton.2 ⟨rfl, rfl⟩, uniform.withNew graph⟩
    rw [Way.leads, returns']
    rfl
  | stop inner | leave inner => exact absurd within.outermost inner

/-- Where a step leads depends on the instruction alone. -/
theorem ExecState.next_led (inMethod : ∀ e ∈ q.path.entries, e.method = m) (body : q.body m = .ok b)
    (callFree : b.callFree = true) (within : x.Within m) (uniform : w.calls.Uniform q m)
    (h : (x.next q limit).run.run w = (.ok fs, w')) :
    ∃ i, b.instruction? x.node.instr = some i ∧ Led q m w' x.node.instr i.way fs := by
  obtain ⟨b', i, e, M, c, body', found, run, rest⟩ := next_ok h
  rw [within.method, body] at body'
  cases body'
  have noCall : i.call? = none := by
    simpa using List.all_eq_true.1 callFree i (List.mem_of_getElem? found)
  exact ⟨i, found, proceed_led (w := w.withContext c) inMethod within uniform
    (Effect.ofInstruction_way noCall run) rest⟩

end Leading

section Closing

namespace Search

/-- A node at the instruction is queued or processed. -/
def Knows (s : Search) (k : InstrId) : Prop :=
  ∃ n, n.instr = k ∧ (n ∈ s.worklist.queue ∨ n ∈ s.worklist.processed)

variable {o : Overflow} {n : Node} {k : InstrId} {worklist : Worklist} {stats : Stats}

theorem Knows.schedule {b : Bool} (h : s.Knows k) (scheduled : s'.worklist = s.worklist.schedule n b) :
    s'.Knows k := by
  obtain ⟨n', instr, queued | processed⟩ := h
  · refine ⟨n', instr, .inl ?_⟩
    rw [scheduled]
    exact Worklist.mem_queue_schedule.2 (.inl queued)
  · refine ⟨n', instr, .inr ?_⟩
    rw [scheduled, Worklist.processed_schedule]
    exact processed

theorem knows_scheduled {b : Bool} (scheduled : s'.worklist = s.worklist.schedule n b) :
    s'.Knows n.instr := by
  refine ⟨n, rfl, ?_⟩
  rw [scheduled]
  by_cases processed : s.worklist.isProcessed n = true
  · right
    rw [Worklist.processed_schedule]
    exact List.contains_iff_mem.1 processed
  · left
    exact Worklist.mem_queue_schedule.2 (.inr ⟨rfl, eq_false_of_ne_true processed⟩)

/-- A node that is taken from the queue and processed stays known. -/
theorem Knows.pop (h : s.Knows k) (pop : s.worklist.pop? = some (n, worklist))
    (queue : s'.worklist.queue = worklist.queue)
    (processed : ∀ n', n' ∈ s'.worklist.processed ↔ n' = n ∨ n' ∈ worklist.processed) : s'.Knows k := by
  obtain ⟨front, same⟩ := Worklist.pop?_ok pop
  obtain ⟨n', instr, queued | done⟩ := h
  · rw [front] at queued
    rcases List.mem_cons.1 queued with rfl | queued
    · exact ⟨n', instr, .inr ((processed n').2 (.inl rfl))⟩
    · exact ⟨n', instr, .inl (queue ▸ queued)⟩
  · exact ⟨n', instr, .inr ((processed n').2 (.inr (same ▸ done)))⟩

/-- What is processed is no sink, and steps lead from it to what is known or still to be received. -/
structure Closed (q : Query) (m : Method) (b : Body) (s : Search) (pending : List InstrId) : Prop where
  uniform : s.world.calls.Uniform q m
  kept : ∀ n x, s.world.calls.data? n = some x → x.Within m ∧ x.node.instr = n.instr
  entered : s.Knows Body.entry
  passed : ∀ n ∈ s.worklist.processed, q.path.isSink m n.instr = false
  closed : ∀ n ∈ s.worklist.processed, ∀ i g, b.instruction? n.instr = some i → q.graph m = .ok g →
    ∀ k ∈ i.way.leads q m g n.instr, s.Knows k ∨ k ∈ pending

namespace Closed

theorem start (run : Search.start t m = .ok s) : s.Closed t.query m b [] := by
  obtain ⟨entry, calls, calls', enter, keep, rfl⟩ := Search.start_ok run
  obtain ⟨g, graph, rfl, rfl⟩ := Instances.enter_ok enter
  have uniform := (Instances.Uniform.empty (α := ExecState)).withNew graph
  refine ⟨uniform.keep keep, ?_, ⟨_, rfl, .inl List.mem_cons_self⟩, fun _ mem => (nomatch mem),
    fun _ mem => nomatch mem⟩
  intro n x found
  rw [Instances.data?_keep keep] at found
  split at found
  next here =>
    cases found
    exact ⟨⟨rfl, rfl⟩, here.2⟩
  next => cases Instances.data?_withNew g found

theorem skip (h : s.Closed q m b []) (pop : s.worklist.pop? = some (n, worklist))
    (done : worklist.isProcessed n = true) : ({ s with worklist, stats } : Search).Closed q m b [] := by
  obtain ⟨-, same⟩ := Worklist.pop?_ok pop
  have known : ∀ k, s.Knows k → ({ s with worklist, stats } : Search).Knows k := by
    intro k knows
    refine knows.pop pop rfl fun n' => ?_
    constructor
    · exact .inr
    · rintro (rfl | mem)
      · exact List.contains_iff_mem.1 done
      · exact mem
  refine ⟨h.uniform, h.kept, known _ h.entered, fun n' mem => h.passed n' (same ▸ mem), ?_⟩
  intro n' mem i g found graph k leads
  exact (h.closed n' (same ▸ mem) i g found graph k leads).imp_left (known k)

theorem receive {xs : List ExecState} (h : s.Closed q m b ((x :: xs).map (·.node.instr)))
    (within : x.Within m) (run : (Searching.receive o first x).run.run s = (.ok (), s')) :
    s'.Closed q m b (xs.map (·.node.instr)) := by
  obtain ⟨stored, c, calls, how, keep, world, scheduled, -⟩ := Searching.receive_ok run
  have inside : stored.Within m := by
    refine ⟨how.node ▸ within.method, ?_⟩
    cases how with
    | first => exact within.outermost
    | merged found merge =>
      obtain ⟨-, -, -, stack⟩ := ExecState.merge_ok merge
      exact stack ▸ (h.kept _ _ found).1.outermost
  have processed : ∀ n, n ∈ s'.worklist.processed ↔ n ∈ s.worklist.processed := by
    intro n
    rw [scheduled, Worklist.processed_schedule]
  refine ⟨?_, ?_, h.entered.schedule scheduled, fun n mem => h.passed n ((processed n).1 mem), ?_⟩
  · rw [world]
    exact h.uniform.keep keep
  · intro n y found
    rw [world, Instances.data?_keep keep] at found
    split at found
    next here =>
      cases found
      exact ⟨inside, (congrArg Node.instr how.node).trans here.2⟩
    next => exact h.kept n y found
  · intro n mem i g found graph k leads
    rcases h.closed n ((processed n).1 mem) i g found graph k leads with knows | pending
    · exact .inl (knows.schedule scheduled)
    · rcases List.mem_cons.1 pending with rfl | pending
      · exact .inl (knows_scheduled scheduled)
      · exact .inr pending

theorem receives {xs : List ExecState} (h : s.Closed q m b (xs.map (·.node.instr)))
    (within : ∀ x ∈ xs, x.Within m) (run : Searching.Receives o first xs s s') : s'.Closed q m b [] := by
  induction run with
  | nil => exact h
  | cons head _ ih =>
    obtain ⟨here, rest⟩ := List.forall_mem_cons.1 within
    exact ih (h.receive here head) rest

theorem expand (h : s.Closed q m b []) (inMethod : ∀ e ∈ q.path.entries, e.method = m)
    (body : q.body m = .ok b) (callFree : b.callFree = true)
    (pop : s.worklist.pop? = some (n, worklist)) (data : s.world.calls.data? n = some x)
    (notSink : q.path.isSink x.node.method x.node.instr = false)
    (next : (x.next q limit).run.run s.world = (.ok fs, w)) :
    (⟨w, worklist.mark n, stats⟩ : Search).Closed q m b (fs.map (·.node.instr)) ∧ ∀ f ∈ fs, f.Within m := by
  obtain ⟨-, same⟩ := Worklist.pop?_ok pop
  obtain ⟨within, instr⟩ := h.kept n x data
  obtain ⟨i, found, led⟩ := ExecState.next_led inMethod body callFree within h.uniform next
  obtain ⟨g, graph, instrs⟩ := led.instrs
  have known : ∀ k, s.Knows k → (⟨w, worklist.mark n, stats⟩ : Search).Knows k := fun k knows =>
    knows.pop pop Worklist.queue_mark fun n' => Worklist.mem_processed_mark
  refine ⟨⟨led.uniform, ?_, known _ h.entered, ?_, ?_⟩, led.within⟩
  · intro n' y later
    have body' : q.body x.node.method = .ok b := by rw [within.method, body]
    refine h.kept n' y (ExecState.next_data? body' (fun i mem => ?_) within.outermost next later)
    simpa using List.all_eq_true.1 callFree i mem
  · intro n' mem
    rcases Worklist.mem_processed_mark.1 mem with rfl | old
    · rw [← instr, ← within.method]
      exact notSink
    · exact h.passed n' (same ▸ old)
  · intro n' mem i' g' found' graph' k leads
    rcases Worklist.mem_processed_mark.1 mem with rfl | old
    · rw [← instr] at found' leads
      cases found.symm.trans found'
      cases graph.symm.trans graph'
      -- What the node leads to is still to be received.
      rw [← instrs] at leads
      exact .inr leads
    · rcases h.closed n' (same ▸ old) i' g' found' graph' k leads with knows | pending
      · exact .inl (known k knows)
      · cases pending

theorem steps (h : s.Closed t.query m b []) (inMethod : ∀ e ∈ t.query.path.entries, e.method = m)
    (body : t.query.body m = .ok b) (callFree : b.callFree = true) (steps : Search.Steps t s s') :
    s'.Closed t.query m b [] := by
  cases steps with
  | skip pop done => exact h.skip pop done
  | expand pop _ data notSink _ next receives =>
    obtain ⟨closed, within⟩ := h.expand inMethod body callFree pop data notSink next
    exact closed.receives within receives

/-- A run does not leave what was processed by a search whose queue is empty. -/
theorem unmerged (h : s.Closed q m b []) (inMethod : ∀ e ∈ q.path.entries, e.method = m)
    (body : q.body m = .ok b) (callFree : b.callFree = true) (empty : s.worklist.queue = [])
    (run : Unmerged q m limit w x) :
    x.Within m ∧ w.calls.Uniform q m ∧ ∃ n ∈ s.worklist.processed, n.instr = x.node.instr := by
  have processed : ∀ k, s.Knows k → ∃ n ∈ s.worklist.processed, n.instr = k := by
    rintro k ⟨n, instr, queued | mem⟩
    · rw [empty] at queued
      cases queued
    · exact ⟨n, mem, instr⟩
  induction run with
  | start enter =>
    obtain ⟨g, graph, rfl, rfl⟩ := Instances.enter_ok enter
    exact ⟨⟨rfl, rfl⟩, Instances.Uniform.empty.withNew graph, processed _ h.entered⟩
  | step _ _ next mem ih =>
    obtain ⟨within, uniform, n, here, instr⟩ := ih
    obtain ⟨i, found, led⟩ := ExecState.next_led inMethod body callFree within uniform next
    obtain ⟨g, graph, instrs⟩ := led.instrs
    refine ⟨led.within _ mem, led.uniform, processed _ ?_⟩
    have leads := List.mem_map_of_mem (f := (·.node.instr)) mem
    rw [instrs, ← instr] at leads
    rw [← instr] at found
    exact (h.closed n here i g found graph _ leads).resolve_right fun pending => nomatch pending

end Closed
end Search
end Closing

/-- An answer of the solver is no exhaustion. -/
theorem Task.conclude_ne_exhausted {stats : Stats} : (t.conclude x stats).verdict ≠ .exhausted := by
  unfold Task.conclude
  split <;> exact fun h => nomatch h

/-- No run gets to the sink if the search is exhausted. -/
theorem Analyzer.exhausted_sound {a : Analyzer} {fuel : Nat} {o : Overflow} {r : Result}
    (body : q.body m = .ok b) (callFree : b.callFree = true) (inMethod : ∀ e ∈ q.path.entries, e.method = m)
    (analyzed : a.analyze fuel q m o = some r) (verdict : r.verdict = .exhausted)
    (run : Unmerged q m a.settings.methodCalls w x) :
    q.path.isSink x.node.method x.node.instr = false := by
  rcases Analyzer.analyze_ok analyzed with ⟨f, failed⟩ | ⟨s, ⟨s₀, n, start, after⟩, done⟩
  · rw [failed] at verdict
    cases verdict
  have closed : s.Closed q m b [] := by
    refine Search.after?_invariant (fun s => s.Closed q m b []) ?_ (Search.Closed.start start) after
    intro s s' closed running
    exact Search.Closed.steps closed inMethod body callFree (Search.steps_of_running running)
  cases Search.ends_of_done done with
  | empty empty =>
    -- The queue is empty, so all that is known was processed, and nothing processed is a sink.
    obtain ⟨within, -, n, processed, instr⟩ := closed.unmerged inMethod body callFree empty run
    rw [within.method, ← instr]
    exact closed.passed n processed
  | lost => cases verdict
  | sink => exact absurd verdict Task.conclude_ne_exhausted
  | fault => exact absurd verdict (Verdict.ofFault_ne rfl _)

section DeadKey

def passing : Method := ⟨"A", "run", [.int], .void⟩

/-- The path asks for the test at 2 before the sink at 4, to which no way leads from there. -/
def passingBody : Body where
  method := passing
  locals := [⟨"p", .int⟩]
  instructions := [
    .identity ⟨"p", .int⟩ (.parameter 0),
    .branch (.binary .gt (.loc ⟨"p", .int⟩) (.const (.int 0)) .boolean) 4,
    .branch (.binary .gt (.loc ⟨"p", .int⟩) (.const (.int 10)) .boolean) 5,
    .retVoid, .nop, .retVoid]
  successors := [[1], [2, 4], [3, 5], [], [5], []]
  nonempty := List.cons_ne_nil _ _
  successors_length := rfl
  edges_lt := show ∀ i ∈ [1, 2, 4, 3, 5, 5], i < 6 by decide

def passingQuery : Query where
  program := .ofBodies [passingBody] []
  path := ⟨[⟨.read, passing, 2, none, none⟩, ⟨.sink, passing, 4, none, none⟩], by decide⟩

/-- A verdict that is told apart by a test is that of the result. -/
theorem exists_verdict {a : Analyzer} {fuel : Nat} {p : Verdict → Bool} {v : Verdict}
    (only : ∀ u, p u = true → u = v) (h : ((a.analyze fuel q m o).any fun r => p r.verdict) = true) :
    ∃ r, a.analyze fuel q m o = some r ∧ r.verdict = v := by
  obtain ⟨r, analyzed, tested⟩ := (Option.any_eq_true ..).1 h
  exact ⟨r, analyzed, only _ tested⟩

/-- Pruning leaves nothing behind the first key: the search is exhausted, and no run gets to the sink. -/
theorem exhausted_sound_deadKey :
    (∃ r, plainAnalyzer.analyze 4 passingQuery passing = some r ∧ r.verdict = .exhausted) ∧
    ∀ w x, Unmerged passingQuery passing plainAnalyzer.settings.methodCalls w x →
      passingQuery.path.isSink x.node.method x.node.instr = false := by
  obtain ⟨r, analyzed, verdict⟩ : ∃ r, plainAnalyzer.analyze 4 passingQuery passing = some r ∧
      r.verdict = .exhausted := by
    refine exists_verdict (p := fun v => v matches .exhausted) ?_ ?_
    · rintro (_ | _ | _ | _ | _) h <;> first | rfl | cases h
    · decide +kernel
  refine ⟨⟨r, analyzed, verdict⟩, fun w x run => ?_⟩
  refine Analyzer.exhausted_sound (b := passingBody) rfl rfl ?_ analyzed verdict run
  decide

end DeadKey

section Diamond

def forking : Method := ⟨"A", "run", [], .void⟩

/-- A fork whose sides meet again at the sink; one side is taken for certain, the other one comes first. -/
def diamondBody : Body where
  method := forking
  locals := [⟨"x", .int⟩]
  instructions := [
    .assign (.loc ⟨"x", .int⟩) (.use (.const (.int 0))),
    .branch (.binary .eq (.loc ⟨"x", .int⟩) (.const (.int 0)) .boolean) 4,
    .nop, .goto 5, .nop, .nop]
  successors := [[1], [2, 4], [3], [5], [5], []]
  nonempty := List.cons_ne_nil _ _
  successors_length := rfl
  edges_lt := show ∀ i ∈ [1, 2, 4, 3, 5, 5], i < 6 by decide

def diamondQuery : Query where
  program := .ofBodies [diamondBody] []
  path := ⟨[⟨.sink, forking, 5, none, none⟩], by decide⟩

/-- The search answers at the first arrival at the sink, here with the side that is never taken; the other
side still waits, and on it the sink is reached. -/
theorem unreachable_unsound_diamond :
    diamondBody.successors = deriveSuccessors diamondBody.instructions ∧ diamondBody.callFree = true ∧
    (∀ k < diamondBody.length, ∀ j ∈ diamondBody.successorsOf k, k < j) ∧
    diamondQuery.body forking = .ok diamondBody ∧ (∀ e ∈ diamondQuery.path.entries, e.method = forking) ∧
    Analyzer.ofSettings {} = .ok plainAnalyzer ∧
    (∃ r, plainAnalyzer.analyze 6 diamondQuery forking = some r ∧ r.verdict = .unreachable) ∧
    ∃ w x, ∃ σ : Assignment, Unmerged diamondQuery forking plainAnalyzer.settings.methodCalls w x ∧
      diamondQuery.path.isSink x.node.method x.node.instr = true ∧
      σ.WellSorted x.symbolic.constraints ∧ ∀ t ∈ x.symbolic.constraints, t.Holds σ := by
  have ended : ∃ r, plainAnalyzer.analyze 6 diamondQuery forking = some r ∧ r.verdict = .unreachable := by
    refine exists_verdict (p := fun v => v matches .unreachable) ?_ ?_
    · rintro (_ | _ | _ | _ | _) h <;> first | rfl | cases h
    · decide +kernel
  have arrives : ((Unmerged.runs diamondQuery forking plainAnalyzer.settings.methodCalls 3).any fun r =>
      diamondQuery.path.isSink r.2.node.method r.2.node.instr &&
        Assignment.satisfies {} r.2.symbolic.constraints) = true := by decide +kernel
  obtain ⟨⟨w, x⟩, run, arrived⟩ := List.any_eq_true.1 arrives
  obtain ⟨isSink, satisfied⟩ := Bool.and_eq_true_iff.1 arrived
  obtain ⟨sorted, holds⟩ := Assignment.of_satisfies satisfied
  exact ⟨rfl, rfl, by decide, rfl, by decide, ofSettings_default, ended, w, x, {}, Unmerged.of_mem_runs run,
    isSink, sorted, holds⟩

end Diamond
end SinkReach
