import SinkReach.Proofs.Analysis.CallStacks
import SinkReach.Proofs.Naming.Search
import SinkReach.Proofs.Step.Faults

/-!
A search never loses its way. Where a node is queued a state is kept, at an instruction of a known instance,
and all call sites on its stack are known; so a search that fails does so because of the values at hand, the
program, the taint path or the solver.
-/
namespace SinkReach

/-- What was kept is still there when an instance is made. -/
theorem Instances.data?_of_older {α : Type} {s : Instances α} {n : Node} {a : α} (h : s.data? n = some a) (m : Method)
    (g : Digraph) : (s.withNew m g).data? n = some a := by
  obtain ⟨i, known, found⟩ := Option.bind_eq_some_iff.1 h
  refine Option.bind_eq_some_iff.2 ⟨i, ?_, found⟩
  exact List.getElem?_append_left (List.getElem?_eq_some_iff.1 known).1 ▸ known

theorem Searching.safe_explore {α : Type} {x : Explore α} {s : Search} {P : World → α → Prop}
    (h : Safe o x s.world P) : Safe o (explore x) s fun s' a => P s'.world a := by
  have run : (explore x).run.run s = ((x.run.run s.world).1, { s with world := (x.run.run s.world).2 }) := rfl
  unfold Safe at h ⊢
  rw [run]
  revert h
  rcases x.run.run s.world with ⟨e | a, w⟩
  · exact fun fault => fault
  · exact fun ha => ha

namespace Snapshot

variable {t : Task} {m : Method} {p p' : Snapshot} {x : ExecState} {n : Node}

/-- Where a node is queued a state is kept; states are at instructions, and the call sites on their stacks
are known. -/
structure Guided (q : Query) (p : Snapshot) : Prop where
  supplied : ∀ n ∈ p.search.worklist.queue, ∃ x, p.calls.data? n = some x
  inside : ∀ x, p.Holds x → q.HasInstruction x.node
  sites : ∀ x, p.Holds x → ∀ site ∈ x.stack.sites, ∀ n, site.1 = some n → p.calls.Places n

/-- A state that is held is ready for a step. -/
theorem Guided.ready (h : Guided t.query p) (moment : p.IsMoment t m) (held : p.Holds x) :
    x.Ready t.query p.search.world := by
  have located := moment.located
  refine ⟨moment.accounted x held, located.drawn, located.placed x held, h.inside x held, fun inner => ?_⟩
  obtain ⟨σ, stacked⟩ := moment.stacked
  obtain ⟨known, own⟩ := stacked.held x held
  have split := Stack.sites_pop inner
  cases stacked.rooted _ known with
  | root only =>
    -- A root has one site, and the frame is not the outermost one.
    rw [own, only] at split
    have short := congrArg List.length split
    rw [List.length_singleton, List.length_cons, Stack.length_sites, Stack.depth] at short
    omega
  | @call caller result _ called _ =>
    rw [own, called] at split
    injection split with site _
    have top : x.stack.top.caller = some caller := (congrArg Prod.fst site).symm
    exact ⟨caller, top, h.sites x held _ List.mem_cons_self caller top⟩

namespace Guided

theorem start {s : Search} (h : Search.start t m = .ok s) : Guided t.query (start s) := by
  obtain ⟨entry, calls, calls', enter, keep, rfl⟩ := Search.start_ok h
  have inside : t.query.HasInstruction entry := (Instances.safe_enter (o := t.overflow)).of_ok enter
  obtain ⟨g, -, rfl, rfl⟩ := Instances.enter_ok enter
  have only : ∀ x, Holds (Snapshot.start ⟨⟨calls', {}⟩, .start ⟨0, m, Body.entry⟩, {}⟩) x →
      x = .initial ⟨0, m, Body.entry⟩ := by
    rintro x (mem | ⟨n, data⟩)
    · cases mem
    · exact ((Search.start_kept h).2 n x data).2
  have kept : calls'.data? ⟨0, m, Body.entry⟩ = some (.initial ⟨0, m, Body.entry⟩) :=
    (Instances.data?_keep keep _).trans (if_pos ⟨rfl, rfl⟩)
  refine ⟨List.forall_mem_singleton.2 ⟨_, kept⟩, fun x hx => only x hx ▸ inside, fun x hx site mem n caller => ?_⟩
  rw [only x hx] at mem
  obtain rfl := List.mem_singleton.1 mem
  cases caller

theorem receive {xs : List ExecState} {s : Search} (h : Guided t.query p) (pending : p.pending = x :: xs)
    (received : (Searching.receive t.overflow p.first x).run.run p.search = (.ok (), s)) :
    Guided t.query ⟨s, p.first, xs⟩ := by
  obtain ⟨stored, c, calls, how, keep, world, worklist, -⟩ := Searching.receive_ok received
  have places (k : Node) : (⟨s, p.first, xs⟩ : Snapshot).calls.Places k ↔ p.calls.Places k := by
    rw [Snapshot.calls, world]
    exact Instances.places_keep keep
  have data (k : Node) : (⟨s, p.first, xs⟩ : Snapshot).calls.data? k =
      if x.node.callId = k.callId ∧ x.node.instr = k.instr then some stored else p.calls.data? k := by
    rw [Snapshot.calls, world]
    exact Instances.data?_keep keep k
  refine ⟨fun k mem => ?_, fun u hu => ?_, fun u hu site mem k caller => ?_⟩
  · rw [data]
    split
    · exact ⟨stored, rfl⟩
    next elsewhere =>
      rw [worklist] at mem
      rcases Worklist.mem_queue_schedule.1 mem with mem | ⟨rfl, -⟩
      · exact h.supplied k mem
      · exact absurd ⟨rfl, rfl⟩ elsewhere
  · obtain ⟨y, hy, node, -⟩ := Moves.exists_held_received pending received hu
    exact node ▸ h.inside y hy
  · obtain ⟨y, hy, -, stack⟩ := Moves.exists_held_received pending received hu
    rw [places]
    exact h.sites y hy site (stack ▸ mem) k caller

/-- The states that follow from one that is held return to known call sites. -/
theorem sites_of_transition {fs : List ExecState} {w : World} (h : Guided t.query p) (located : Located t.query p)
    (held : p.Holds x) (transition : Transition t.query p.search.world w x fs) :
    ∀ f ∈ fs, ∀ site ∈ f.stack.sites, ∀ k, site.1 = some k → w.calls.Places k := by
  intro f mem site listed k caller
  have old (among : site ∈ x.stack.sites) : w.calls.Places k :=
    transition.places (h.sites x held site among k caller)
  cases transition with
  | stays _ goes => exact old ((goes f mem).sites ▸ listed)
  | leaves _ inner _ _ stack =>
    obtain rfl := List.mem_singleton.1 mem
    refine old ?_
    rw [Stack.sites_pop inner]
    exact List.mem_cons_of_mem _ (stack ▸ listed)
  | enters _ calls _ stack =>
    obtain rfl := List.mem_singleton.1 mem
    rw [stack, Stack.sites_push] at listed
    rcases List.mem_cons.1 listed with rfl | among
    · cases caller
      rw [calls]
      exact (located.placed x held).withNew _ _
    · exact old among
  | resumes _ _ _ _ _ _ stack =>
    obtain rfl := List.mem_singleton.1 mem
    rw [stack, Stack.sites_root] at listed
    obtain rfl := List.mem_singleton.1 listed
    cases caller

theorem moves (h : Guided t.query p) (moment : p.IsMoment t m) (moves : Moves t p p') : Guided t.query p' := by
  cases moves with
  | receive pending received => exact h.receive pending received
  | @skip n worklist pending pop _ =>
    obtain ⟨queue, -⟩ := Worklist.pop?_ok pop
    have holds (u : ExecState) (hu : (Snapshot.start (taken p.search worklist)).Holds u) : p.Holds u :=
      hu.elim (fun mem => nomatch mem) .inr
    refine ⟨fun k mem => h.supplied k ?_, fun u hu => h.inside u (holds u hu), fun u hu => h.sites u (holds u hu)⟩
    exact queue ▸ List.mem_cons_of_mem _ mem
  | @expand n worklist x first fs w pending pop _ data _ next =>
    obtain ⟨queue, -⟩ := Worklist.pop?_ok pop
    have held : p.Holds x := .inr ⟨n, data⟩
    have transition := ExecState.next_transition next
    have holds (u : ExecState) (hu : (⟨expanded p.search w worklist n, first, fs⟩ : Snapshot).Holds u) :
        u ∈ fs ∨ p.Holds u := hu.imp_right fun ⟨k, found⟩ => .inr ⟨k, transition.data? found⟩
    refine ⟨fun k mem => ?_, fun u hu => ?_, fun u hu => ?_⟩
    · have mem := (Worklist.queue_mark ▸ mem : k ∈ Worklist.queue _)
      obtain ⟨y, kept⟩ := h.supplied k (queue ▸ List.mem_cons_of_mem _ mem)
      refine ⟨y, ?_⟩
      show w.calls.data? k = some y
      rcases transition.calls with same | ⟨m', g, -, new⟩
      · exact same ▸ kept
      · exact new ▸ Instances.data?_of_older kept m' g
    · rcases holds u hu with mem | old
      · exact (ExecState.next_safe (o := t.overflow) (h.ready moment held)).of_ok next u mem
      · exact h.inside u old
    · rcases holds u hu with mem | old
      · exact h.sites_of_transition moment.located held transition u mem
      · exact fun site listed k caller => transition.places (h.sites u old site listed k caller)

end Guided

theorem IsMoment.guided (h : p.IsMoment t m) : Guided t.query p :=
  (h.invariant (I := fun p => p.IsMoment t m ∧ Guided t.query p) (fun _ started => ⟨.start started, .start started⟩)
    fun ⟨moment, guided⟩ move => ⟨moment.moves move, guided.moves moment move⟩).2

/-- A state is received unless it fails to merge with the one that is kept, because of the values at hand. -/
theorem IsMoment.receive_safe {xs : List ExecState} (h : p.IsMoment t m) (pending : p.pending = x :: xs) :
    Safe t.overflow (Searching.receive t.overflow p.first x) p.search fun _ _ => True := by
  have located := h.located
  have held : p.Holds x := .inl (pending ▸ List.mem_cons_self)
  have placed := located.placed x held
  have keeps (stored : ExecState) (s : Search) (calls : s.world.calls = p.calls) : Safe t.overflow (do
      let calls ← liftExcept ((← getThe Search).world.calls.keep x.node stored)
      modifyThe Search fun s => { s with
        world := { s.world with calls }
        worklist := s.worklist.schedule x.node (p.first.map (·.instr) = some x.node.instr) } : Searching Unit) s
      fun _ _ => True := by
    refine .bind (P := fun s' s₁ => s' = s ∧ s₁ = s) ⟨rfl, rfl⟩ fun s₁ s' ⟨same, same'⟩ => ?_
    subst same same'
    refine .bind (P := fun _ _ => True) (.lift (fun _ _ => trivial) fun f failed => ?_) fun _ _ _ => trivial
    obtain ⟨i, known, -⟩ := calls ▸ placed
    simp only [Instances.keep, known] at failed
    cases failed
  unfold Searching.receive
  refine .bind (P := fun s' s₁ => s' = p.search ∧ s₁ = p.search) ⟨rfl, rfl⟩ fun s₁ s' ⟨same, same'⟩ => ?_
  subst same same'
  dsimp only
  split
  · exact .bind (P := fun s' _ => s'.world.calls = p.calls) (.pure rfl) fun stored s' calls => keeps stored s' calls
  next previous data =>
    have counted : Safe t.overflow (Searching.count fun s => { s with merged := s.merged + 1 }) p.search
        fun s' _ => s'.world = p.search.world := rfl
    refine .bind counted fun _ s₁ world => ?_
    refine .bind (P := fun s' _ => s'.world.calls = p.calls) ?_ fun stored s' calls => keeps stored s' calls
    have same : previous.node = x.node := by
      obtain ⟨callId, instr⟩ := located.kept _ _ data
      exact (located.placed previous (.inr ⟨_, data⟩)).eq placed callId instr
    have accounted := h.accounted previous (.inr ⟨_, data⟩)
    have merge := ExecState.merge_safe (o := t.overflow) accounted (h.accounted x held) same
    refine Searching.safe_explore (P := fun w _ => w.calls = p.calls) ?_
    rw [world]
    exact (Explore.safe_onContext merge).mono fun _ _ after => after.2

/-- So are the states that follow from a node, one after the other. -/
theorem IsMoment.receives_safe {s : Search} {first : Option Node} {xs : List ExecState}
    (h : IsMoment t m ⟨s, first, xs⟩) :
    Safe t.overflow (xs.forM (Searching.receive t.overflow first)) s fun _ _ => True := by
  induction xs generalizing s with
  | nil => exact .pure trivial
  | cons x xs ih =>
    have one := h.receive_safe rfl
    refine .bind (P := fun s' _ => IsMoment t m ⟨s', first, xs⟩) ?_ fun _ s' moment => ih moment
    unfold Safe at one ⊢
    revert one
    rcases run : (Searching.receive t.overflow first x).run.run s with ⟨e | ⟨⟩, s'⟩
    · exact fun fault => fault
    · exact fun _ => h.moves (.receive rfl run)

end Snapshot

namespace Search

open Snapshot

variable {t : Task} {m : Method} {s s' : Search} {first : Option Node} {n : Node} {worklist : Worklist}
  {x : ExecState} {f : Fault} {r : Result}

/-- The expansion of a node that was taken from the worklist does not lose its way. -/
theorem expand_safe (h : IsMoment t m ⟨s, first, []⟩) (pop : s.worklist.pop? = some (n, worklist))
    (fresh : worklist.isProcessed n = false) (data : s.world.calls.data? n = some x) :
    Safe t.overflow (Searching.expand t n x) (s.processing worklist n) fun _ _ => True := by
  have held : Holds ⟨s, first, []⟩ x := .inr ⟨n, data⟩
  have queued : n ∈ s.worklist.queue := (Worklist.pop?_ok pop).1 ▸ List.mem_cons_self
  obtain ⟨ns, found⟩ := (h.located.queued n queued).exists_successors
  have head : s.world.calls.first? n = .ok ns.head? := except_bind_ok.2 ⟨ns, found, rfl⟩
  have ask : (Searching.explore (Explore.askCalls (·.first? n))).run.run (s.processing worklist n) =
      (.ok ns.head?, s.processing worklist n) :=
    Searching.explore_ok.2 ⟨s.world, Explore.askCalls_ok.2 ⟨head, rfl⟩, rfl⟩
  refine .bind (P := fun s' o => s' = s.processing worklist n ∧ o = ns.head?) ?_ fun o s' ⟨same, same'⟩ => ?_
  · rw [Safe, ask]
    exact ⟨rfl, rfl⟩
  · subst same same'
    refine .bind (P := fun s' fs => IsMoment t m ⟨s', ns.head?, fs⟩) ?_ fun fs s' moment => moment.receives_safe
    have step : Safe t.overflow (x.next t.query t.limit) s.world (ExecState.Following t.query) :=
      ExecState.next_safe (h.guided.ready h held)
    have run : (Searching.explore (x.next t.query t.limit)).run.run (s.processing worklist n) =
        (((x.next t.query t.limit).run.run s.world).1,
          { s.processing worklist n with world := ((x.next t.query t.limit).run.run s.world).2 }) := rfl
    unfold Safe at step ⊢
    rw [run]
    revert step
    rcases next : (x.next t.query t.limit).run.run s.world with ⟨e | fs, w⟩
    · exact fun fault => fault
    · exact fun _ => h.moves (.expand rfl pop fresh data head next)

/-- A search that fails in a step fails for a reason of its input or of the solver. -/
theorem step_external (h : IsMoment t m ⟨s, first, []⟩) (solver : ∀ ts f, t.solver.check ts = .error f → ¬ f.Internal)
    (done : s.step t = .done r) (failed : r.verdict = .failed f) : ¬ f.Internal := by
  cases ends_of_done done with
  | empty => cases failed
  | @lost n _ _ pop _ none =>
    obtain ⟨x, data⟩ := h.guided.supplied n ((Worklist.pop?_ok pop).1 ▸ List.mem_cons_self)
    cases none.symm.trans data
  | sink =>
    unfold Task.conclude at failed
    split at failed
    next f' answer =>
      cases failed
      exact solver _ _ answer
    all_goals cases failed
  | @fault _ _ _ f' _ pop fresh data run =>
    have external := (expand_safe h pop fresh data).of_error run
    rcases Verdict.ofFault_cases f' with fails | ⟨-, stops⟩
    · cases fails.symm.trans failed
      exact fun internal => external internal.stray
    · cases stops.symm.trans failed

theorem start_external (h : Search.start t m = .error f) : ¬ f.Internal := by
  have entered := Instances.safe_enter (o := t.overflow) (q := t.query) (m := m) (s := .empty)
  unfold Search.start at h
  rcases enter : (Instances.enter (α := ExecState) t.query m).run.run .empty with ⟨e | entry, calls⟩
  · rw [enter] at h
    cases h
    exact fun internal => entered.of_error enter internal.stray
  · rw [enter] at h
    -- A state can be kept at the entry of the instance just made.
    obtain ⟨g, -, rfl, rfl⟩ := Instances.enter_ok enter
    cases h

end Search

/-- No analysis fails with an internal fault, unless the solver does: at every moment each queued node has a
state whose path ends there, belongs to an instance of its method, and is at an instruction of the method's
body. -/
theorem Analyzer.analyze_external {a : Analyzer} {o : Overflow} {q : Query} {m : Method}
    (solver : ∀ ts f, a.solver.check ts = .error f → ¬ f.Internal) :
    (∀ fuel r f, a.analyze fuel q m o = some r → r.verdict = .failed f → ¬ f.Internal) ∧
    ∀ p : Snapshot, p.IsMoment (a.task q o) m → ∀ n ∈ p.search.worklist.queue,
      (∃ x, p.calls.data? n = some x ∧ x.path.last = n) ∧ p.calls.Places n ∧ q.HasInstruction n := by
  refine ⟨fun fuel r f analyzed failed => ?_, fun p moment n queued => ?_⟩
  · unfold Analyzer.analyze at analyzed
    split at analyzed
    next f' start =>
      cases analyzed
      cases failed
      exact Search.start_external start
    next s₀ start =>
      obtain ⟨k, s, after, done⟩ := Search.exists_after? analyzed
      obtain ⟨first, moment⟩ := (Search.Moment.start start).after? after
      exact Search.step_external moment solver done failed
  · obtain ⟨x, data⟩ := moment.guided.supplied n queued
    have node := moment.located.node_eq queued data
    exact ⟨⟨x, data, node⟩, moment.located.queued n queued, node ▸ moment.guided.inside x (.inr ⟨n, data⟩)⟩

/-- The callee by itself: where its two ways meet a state is kept, and the return that follows has no call
site to go to. -/
theorem Analyzer.analyze_external_picking :
    (∀ ts f, plainAnalyzer.solver.check ts = .error f → ¬ f.Internal) ∧
    (∃ r f, plainAnalyzer.analyze 8 Snapshot.callingTask.query Snapshot.picking = some r ∧
      r.verdict = .failed f ∧ ¬ f.Internal) ∧
    ∃ p : Snapshot, p.IsMoment (plainAnalyzer.task Snapshot.callingTask.query) Snapshot.picking ∧
      ∃ x, p.calls.data? ⟨0, Snapshot.picking, 4⟩ = some x ∧ x.path.last = ⟨0, Snapshot.picking, 4⟩ := by
  have solver (ts : List Term) (f : Fault) (h : plainAnalyzer.solver.check ts = .error f) : ¬ f.Internal := by
    cases h
  obtain ⟨ends, supplied⟩ := analyze_external (q := Snapshot.callingTask.query) (m := Snapshot.picking) solver
  refine ⟨solver, ?_, ?_⟩
  · have failing : ((plainAnalyzer.analyze 8 Snapshot.callingTask.query Snapshot.picking).any fun r =>
        r.verdict.name == "failed") = true := by decide +kernel
    obtain ⟨r, analyzed, fails⟩ := (Option.any_eq_true ..).1 failing
    cases verdict : r.verdict with
    | failed f => exact ⟨r, f, analyzed, verdict, ends _ r f analyzed verdict⟩
    | _ =>
      rw [verdict] at fails
      exact absurd fails (by decide)
  · have waiting : ((Snapshot.nth? (plainAnalyzer.task Snapshot.callingTask.query) Snapshot.picking 9).any fun p =>
        p.search.worklist.queue.contains ⟨0, Snapshot.picking, 4⟩) = true := by decide +kernel
    obtain ⟨p, after, queued⟩ := (Option.any_eq_true ..).1 waiting
    have moment := Snapshot.isMoment_of_nth? after
    exact ⟨p, moment, (supplied p moment _ (List.contains_iff_mem.1 queued)).1⟩

end SinkReach
