import SinkReach.Proofs.Route.Instances
import SinkReach.Proofs.Symbolic.Run
import SinkReach.Step.Next

/-!
Steps of execution that succeed, taken apart. A step performs the instruction at its node on the symbolic
state, and then goes where the effect of the instruction says.
-/
namespace SinkReach

namespace World

/-- The world with another context. -/
def withContext (w : World) (c : Context) : World := { w with context := c }

/-- The world after labels were handed out for updates. -/
def relabel (w : World) (updates : Nat) : World :=
  w.withContext { w.context with labels := w.context.labels + 2 * updates }

end World

namespace Explore

variable {w w' : World} {s t : SymState} {us : List Update}

theorem onContext_ok {α : Type} {x : Symbolic α} {a : α} :
    (onContext x).run.run w = (.ok a, w') ↔
      ∃ c, x.run.run w.context = (.ok a, c) ∧ w' = w.withContext c := by
  change ((x.run.run w.context).1, w.withContext (x.run.run w.context).2) = _ ↔ _
  rcases x.run.run w.context with ⟨r, c⟩
  constructor
  · intro h
    cases h
    exact ⟨c, rfl, rfl⟩
  · rintro ⟨_, h, rfl⟩
    cases h
    rfl

theorem onCalls_ok {α : Type} {x : Instances.Making ExecState α} {a : α} :
    (onCalls x).run.run w = (.ok a, w') ↔
      ∃ calls, x.run.run w.calls = (.ok a, calls) ∧ w' = { w with calls } := by
  change ((x.run.run w.calls).1, { w with calls := (x.run.run w.calls).2 }) = _ ↔ _
  rcases x.run.run w.calls with ⟨r, calls⟩
  constructor
  · intro h
    cases h
    exact ⟨calls, rfl, rfl⟩
  · rintro ⟨_, h, rfl⟩
    cases h
    rfl

theorem askCalls_ok {α : Type} {f : Instances ExecState → Except Fault α} {a : α} :
    (askCalls f).run.run w = (.ok a, w') ↔ f w.calls = .ok a ∧ w' = w := by
  refine Iff.trans ?_ (run_lift_ok (x := f w.calls))
  rfl

/-- Updates are gathered by a machine that starts on the state. -/
theorem gather_ok {α : Type} {x : Run α} {a : α} :
    (gather s x).run.run w = (.ok (a, us), w') ↔
      ∃ M c, x.Yields (.start s) w.context a M c ∧ us = M.pending ∧ w' = w.withContext c := by
  unfold gather
  rw [onContext_ok]
  constructor
  · rintro ⟨c, h, rfl⟩
    obtain ⟨M, h⟩ := Machine.on_ok.1 h
    obtain ⟨a₁, M₁, c₁, run, h⟩ := Run.yields_bind.1 h
    obtain ⟨us₁, M₂, c₂, drain, h⟩ := Run.yields_bind.1 h
    obtain ⟨rfl, rfl, rfl⟩ := Run.yields_machine.1 drain
    obtain ⟨same, rfl, rfl⟩ := Run.yields_pure.1 h
    cases same
    exact ⟨M₁, c, run, rfl, rfl⟩
  · rintro ⟨M, c, run, rfl, rfl⟩
    refine ⟨c, Machine.on_ok.2 ⟨{ M with pending := [] }, ?_⟩, rfl⟩
    refine Run.yields_bind.2 ⟨a, M, c, run, Run.yields_bind.2 ⟨M.pending, _, c, ?_, rfl⟩⟩
    exact Run.yields_machine.2 ⟨rfl, rfl, rfl⟩

theorem perform_ok : (perform s us).run.run w = (.ok t, w') ↔
    t = s.updateAll w.context.labels us ∧ w' = w.relabel us.length := by
  unfold perform
  rw [onContext_ok]
  constructor
  · rintro ⟨c, h, rfl⟩
    cases h
    exact ⟨rfl, rfl⟩
  · rintro ⟨rfl, rfl⟩
    exact ⟨_, rfl, rfl⟩

end Explore

namespace ExecState

open Explore

variable {w w' : World} {s : ExecState} {t : SymState} {us : List Update} {fs : List ExecState}

theorem toAll_ok (h : (s.toAll t).run.run w = (.ok fs, w')) :
    ∃ ns, w.calls.successors s.node = .ok ns ∧ fs = ns.map (fun n => s.advance n t) ∧ w' = w := by
  unfold toAll at h
  obtain ⟨ns, w₁, ask, rest⟩ := run_bind_ok.1 h
  obtain ⟨found, rfl⟩ := askCalls_ok.1 ask
  obtain ⟨rfl, rfl⟩ := run_pure_ok.1 rest
  exact ⟨ns, found, rfl, rfl⟩

theorem toFirst_ok (h : (s.toFirst t).run.run w = (.ok fs, w')) :
    ∃ n?, w.calls.first? s.node = .ok n? ∧ fs = (n?.map fun n => s.advance n t).toList ∧ w' = w := by
  unfold toFirst at h
  obtain ⟨n?, w₁, ask, rest⟩ := run_bind_ok.1 h
  obtain ⟨found, rfl⟩ := askCalls_ok.1 ask
  obtain ⟨rfl, rfl⟩ := run_pure_ok.1 rest
  exact ⟨n?, found, rfl, rfl⟩

theorem afterParameter_ok {id : LocalId} (h : (s.afterParameter us id).run.run w = (.ok fs, w')) :
    ∃ v n?, (s.symbolic.updateAll w.context.labels us).memory.local? id = some v ∧
      w.calls.first? s.node = .ok n? ∧ fs = (n?.map fun n => (s.addParameter id v).advance n
        (s.symbolic.updateAll w.context.labels us)).toList ∧ w' = w.relabel us.length := by
  obtain ⟨t, w₁, perform, h⟩ := run_bind_ok.1 h
  obtain ⟨rfl, rfl⟩ := perform_ok.1 perform
  split at h
  · exact absurd h run_throw_ne_ok
  next v bound =>
    obtain ⟨n?, found, rfl, rfl⟩ := toFirst_ok h
    exact ⟨v, n?, bound, found, rfl, rfl⟩

theorem afterBranch_ok {b : Body} {onTrue onFalse : Term} {target : InstrId}
    (h : (s.afterBranch us b onTrue onFalse target).run.run w = (.ok fs, w')) :
    ∃ ns, w.calls.successors s.node = .ok ns ∧ w' = w.relabel us.length ∧
      fs = ns.map (fun n => s.advance n <|
        if b.successorsOf s.node.instr = [target] then s.symbolic.updateAll w.context.labels us
        else (s.symbolic.updateAll w.context.labels us).assume
          (if n.instr = target then onTrue else onFalse)) := by
  obtain ⟨t, w₁, perform, h⟩ := run_bind_ok.1 h
  obtain ⟨rfl, rfl⟩ := perform_ok.1 perform
  split at h
  next only =>
    obtain ⟨ns, found, rfl, rfl⟩ := toAll_ok h
    exact ⟨ns, found, rfl, by simp only [if_pos only]⟩
  next several =>
    obtain ⟨ns, w₂, ask, h⟩ := run_bind_ok.1 h
    obtain ⟨found, rfl⟩ := askCalls_ok.1 ask
    obtain ⟨rfl, rfl⟩ := run_pure_ok.1 h
    exact ⟨ns, found, rfl, by simp only [if_neg several]⟩

/-- The cases of a switch that lead to a node. -/
def casesAt (cases : List (Term × InstrId)) (i : InstrId) : List (Term × InstrId) :=
  cases.filter fun c => c.2 = i

/-- States that follow a switch, with the labels of their conditions. -/
inductive AfterSwitch (s : ExecState) (t : SymState) (cases : List (Term × InstrId)) :
    List Node → List ExecState → Prop
  | nil : AfterSwitch s t cases [] []
  | cons {n : Node} {ns : List Node} {fs : List ExecState} (l : Label) :
    casesAt cases n.instr ≠ [] → AfterSwitch s t cases ns fs →
    AfterSwitch s t cases (n :: ns)
      (s.advance n (t.assume (.orAll l ((casesAt cases n.instr).map (·.1)))) :: fs)

/-- Goes on to one node of a switch. -/
def toCase (s : ExecState) (t : SymState) (cases : List (Term × InstrId)) (n : Node) :
    Explore ExecState := do
  match casesAt cases n.instr with
  | [] => throw (.noSwitchCase s.node n.instr)
  | mine =>
    let l ← onContext freshLabel
    return s.advance n (t.assume (.orAll l (mine.map (·.1))))

theorem toCase_ok {cases : List (Term × InstrId)} {n : Node} {f : ExecState}
    (h : (s.toCase t cases n).run.run w = (.ok f, w')) :
    casesAt cases n.instr ≠ [] ∧ ∃ l labels, w' = w.withContext { w.context with labels } ∧
      f = s.advance n (t.assume (.orAll l ((casesAt cases n.instr).map (·.1)))) := by
  unfold toCase at h
  split at h
  · exact absurd h run_throw_ne_ok
  next some =>
    obtain ⟨l, w₁, label, h⟩ := run_bind_ok.1 h
    obtain ⟨c, label, rfl⟩ := onContext_ok.1 label
    cases label
    obtain ⟨rfl, rfl⟩ := run_pure_ok.1 h
    exact ⟨some, _, _, rfl, rfl⟩

theorem toCases_ok {cases : List (Term × InstrId)} {ns : List Node}
    (h : (ns.mapM (s.toCase t cases)).run.run w = (.ok fs, w')) :
    (∃ labels, w' = w.withContext { w.context with labels }) ∧ AfterSwitch s t cases ns fs := by
  induction ns generalizing w fs with
  | nil =>
    rw [List.mapM_nil] at h
    obtain ⟨rfl, rfl⟩ := run_pure_ok.1 h
    exact ⟨⟨_, rfl⟩, .nil⟩
  | cons n ns ih =>
    rw [List.mapM_cons] at h
    obtain ⟨f, w₁, head, h⟩ := run_bind_ok.1 h
    obtain ⟨rest, w₂, tail, h⟩ := run_bind_ok.1 h
    obtain ⟨rfl, rfl⟩ := run_pure_ok.1 h
    obtain ⟨some, l, labels, rfl, rfl⟩ := toCase_ok head
    obtain ⟨⟨labels', rfl⟩, after⟩ := ih tail
    exact ⟨⟨labels', rfl⟩, .cons l some after⟩

theorem afterSwitch_ok {cases : List (Term × InstrId)}
    (h : (s.afterSwitch us cases).run.run w = (.ok fs, w')) :
    ∃ ns labels, w.calls.successors s.node = .ok ns ∧
      w' = w.withContext { w.context with labels } ∧
      AfterSwitch s (s.symbolic.updateAll w.context.labels us) cases ns fs := by
  obtain ⟨t, w₁, perform, h⟩ := run_bind_ok.1 h
  obtain ⟨rfl, rfl⟩ := perform_ok.1 perform
  obtain ⟨ns, w₂, ask, h⟩ := run_bind_ok.1 h
  obtain ⟨found, rfl⟩ := askCalls_ok.1 ask
  obtain ⟨⟨labels, rfl⟩, after⟩ := toCases_ok h
  exact ⟨ns, labels, found, rfl, after⟩

/-- Unknown values for the locals of the method that is resumed. -/
def resumed (m : Method) (b : Body) : Run (List (LocalId × SymValue)) :=
  b.locals.mapM fun l => do
    let id := LocalId.ofLocal m l
    return (id, ← Machine.unknown id.ty)

theorem returnAlongPath_ok {q : Query} (h : (s.returnAlongPath q us).run.run w = (.ok fs, w')) :
    ∃ site calls b bindings M c, (Instances.resume q s.node).run.run w.calls = (.ok site, calls) ∧
      q.body site.method = .ok b ∧
      (resumed site.method b).Yields (.start s.symbolic) w.context bindings M c ∧
      ∃ l l' labels, w' = ⟨calls, { c with labels }⟩ ∧
        fs = [s.restart.advance site (((s.symbolic.updateAll l us).withMemory
          (((s.symbolic.updateAll l us).memory.withoutLocalsOf s.node.method).bindAll bindings)).updateAll
            l' M.pending)] := by
  unfold returnAlongPath at h
  obtain ⟨site, w₁, onCalls, h⟩ := run_bind_ok.1 h
  obtain ⟨calls, resume, rfl⟩ := onCalls_ok.1 onCalls
  obtain ⟨b, w₂, lift, h⟩ := run_bind_ok.1 h
  obtain ⟨body, rfl⟩ := run_lift_ok.1 lift
  obtain ⟨⟨bindings, more⟩, w₃, gather, h⟩ := run_bind_ok.1 h
  obtain ⟨M, c, run, rfl, rfl⟩ := gather_ok.1 gather
  obtain ⟨t, w₄, perform, h⟩ := run_bind_ok.1 h
  obtain ⟨rfl, rfl⟩ := perform_ok.1 perform
  obtain ⟨t', w₅, perform', h⟩ := run_bind_ok.1 h
  obtain ⟨rfl, rfl⟩ := perform_ok.1 perform'
  obtain ⟨rfl, rfl⟩ := run_pure_ok.1 h
  exact ⟨site, calls, b, bindings, M, c, resume, body, run, _, _, _, rfl, rfl⟩

/-- An unknown value for the local that takes the result of a call. -/
def unknownResult : Option LocalId → Run Unit
  | some id => do Machine.bind id (← Machine.unknown id.ty)
  | none => return ()

theorem skipCall_ok {result : Option LocalId} (h : (s.skipCall us result).run.run w = (.ok fs, w')) :
    ∃ M c n? l labels, (unknownResult result).Yields (.start s.symbolic) w.context () M c ∧
      w.calls.first? s.node = .ok n? ∧ w' = w.withContext { c with labels } ∧
      fs = (n?.map fun n => s.advance n (s.symbolic.updateAll l (us ++ M.pending))).toList := by
  unfold skipCall at h
  obtain ⟨⟨⟨⟩, more⟩, w₁, gather, h⟩ := run_bind_ok.1 h
  obtain ⟨M, c, run, rfl, rfl⟩ := gather_ok.1 gather
  obtain ⟨t, w₂, perform, h⟩ := run_bind_ok.1 h
  obtain ⟨rfl, rfl⟩ := perform_ok.1 perform
  obtain ⟨n?, found, rfl, rfl⟩ := toFirst_ok h
  refine ⟨M, c, n?, _, _, ?_, found, rfl, rfl⟩
  cases result with
  | none => exact run
  | some id => exact run

theorem enterCall_ok {q : Query} {callee : Method} {arguments : List SymValue} {result : Option LocalId}
    (h : (s.enterCall q us callee arguments result).run.run w = (.ok fs, w')) :
    ∃ entry calls b bindings M c l l' labels, (Instances.enter q callee).run.run w.calls = (.ok entry, calls) ∧
      q.body callee = .ok b ∧
      (bindParameters (b.parameters callee) arguments).Yields (.start s.symbolic) w.context bindings M c ∧
      w' = ⟨calls, { c with labels }⟩ ∧
      fs = [(s.call (.ofCall s.node result) callee).advance entry
        (((s.symbolic.updateAll l us).withMemory
          ((s.symbolic.updateAll l us).memory.bindAll bindings)).updateAll l' M.pending)] := by
  unfold enterCall at h
  obtain ⟨entry, w₁, onCalls, h⟩ := run_bind_ok.1 h
  obtain ⟨calls, enter, rfl⟩ := onCalls_ok.1 onCalls
  obtain ⟨b, w₂, lift, h⟩ := run_bind_ok.1 h
  obtain ⟨body, rfl⟩ := run_lift_ok.1 lift
  obtain ⟨⟨bindings, more⟩, w₃, gather, h⟩ := run_bind_ok.1 h
  obtain ⟨M, c, run, rfl, rfl⟩ := gather_ok.1 gather
  obtain ⟨t, w₄, perform, h⟩ := run_bind_ok.1 h
  obtain ⟨rfl, rfl⟩ := perform_ok.1 perform
  obtain ⟨t', w₅, perform', h⟩ := run_bind_ok.1 h
  obtain ⟨rfl, rfl⟩ := perform_ok.1 perform'
  obtain ⟨rfl, rfl⟩ := run_pure_ok.1 h
  exact ⟨entry, calls, b, bindings, M, c, _, _, _, enter, body, run, rfl, rfl⟩

/-- The value that a return hands to the local which takes the result. -/
def handedResult (v : SymValue) : Option LocalId → Run Unit
  | some id => do Machine.bind id (← Machine.declaredAs v id.ty)
  | none => return ()

theorem returnToCaller_ok {v : SymValue} (h : (s.returnToCaller us v).run.run w = (.ok fs, w')) :
    fs = [] ∧ w' = w ∨ ∃ caller n M c l l' labels labels', s.stack.top.caller = some caller ∧
      w.calls.first? caller = .ok (some n) ∧
      (handedResult v s.stack.top.result).Yields (.start s.symbolic) { w.context with labels } () M c ∧
      w' = w.withContext { c with labels := labels' } ∧
      fs = [s.leave.advance n (((s.symbolic.withMemory
        (s.symbolic.memory.withoutLocalsOf s.node.method)).updateAll l us).updateAll l' M.pending)] := by
  unfold returnToCaller at h
  split at h
  · exact absurd h run_throw_ne_ok
  next caller known =>
    obtain ⟨n?, w₁, ask, h⟩ := run_bind_ok.1 h
    obtain ⟨found, rfl⟩ := askCalls_ok.1 ask
    cases n? with
    | none =>
      obtain ⟨rfl, rfl⟩ := run_pure_ok.1 h
      exact .inl ⟨rfl, rfl⟩
    | some n =>
      obtain ⟨t, w₂, perform, h⟩ := run_bind_ok.1 h
      obtain ⟨rfl, rfl⟩ := perform_ok.1 perform
      obtain ⟨⟨⟨⟩, more⟩, w₃, gather, h⟩ := run_bind_ok.1 h
      obtain ⟨M, c, run, rfl, rfl⟩ := gather_ok.1 gather
      obtain ⟨t', w₄, perform', h⟩ := run_bind_ok.1 h
      obtain ⟨rfl, rfl⟩ := perform_ok.1 perform'
      obtain ⟨rfl, rfl⟩ := run_pure_ok.1 h
      refine .inr ⟨caller, n, M, c, _, _, (w₁.relabel us.length).context.labels, _, known, found, ?_, rfl, rfl⟩
      cases result : s.stack.top.result with
      | none =>
        rw [result] at run
        exact run
      | some id =>
        rw [result] at run
        exact run

/-- Goes where an effect says. -/
def proceed (s : ExecState) (q : Query) (limit : Nat) (b : Body) (us : List Update) :
    Effect → Explore (List ExecState)
  | .goOn => do s.toAll (← perform s.symbolic us)
  | .parameter id => s.afterParameter us id
  | .branch onTrue onFalse target => s.afterBranch us b onTrue onFalse target
  | .switch cases => s.afterSwitch us cases
  | .call callee arguments result =>
    if (skipReason? limit q.program s callee).isSome then s.skipCall us result
    else s.enterCall q us callee arguments result
  | .ret v => if s.stack.below.isEmpty then s.returnAlongPath q us else s.returnToCaller us v

/-- What a state does where an effect leads: it goes on in its instance, past a call or into one; or it
returns, along the path from the outermost frame and to the caller from others, unless nothing follows the
call there. -/
inductive Proceeds (s : ExecState) (q : Query) (limit : Nat) (b : Body) (us : List Update) (w : World) :
    Effect → List ExecState → World → Prop
  | goOn {ns : List Node} : w.calls.successors s.node = .ok ns →
    Proceeds s q limit b us w .goOn (ns.map fun n => s.advance n (s.symbolic.updateAll w.context.labels us))
      (w.relabel us.length)
  | parameter {id : LocalId} {v : SymValue} {n? : Option Node} :
    (s.symbolic.updateAll w.context.labels us).memory.local? id = some v → w.calls.first? s.node = .ok n? →
    Proceeds s q limit b us w (.parameter id)
      (n?.map fun n => (s.addParameter id v).advance n (s.symbolic.updateAll w.context.labels us)).toList
      (w.relabel us.length)
  | branch {onTrue onFalse : Term} {target : InstrId} {ns : List Node} : w.calls.successors s.node = .ok ns →
    Proceeds s q limit b us w (.branch onTrue onFalse target)
      (ns.map fun n => s.advance n <|
        if b.successorsOf s.node.instr = [target] then s.symbolic.updateAll w.context.labels us
        else (s.symbolic.updateAll w.context.labels us).assume (if n.instr = target then onTrue else onFalse))
      (w.relabel us.length)
  | switch {cases : List (Term × InstrId)} {ns : List Node} {fs : List ExecState} {labels : Label} :
    w.calls.successors s.node = .ok ns →
    AfterSwitch s (s.symbolic.updateAll w.context.labels us) cases ns fs →
    Proceeds s q limit b us w (.switch cases) fs (w.withContext { w.context with labels })
  | skip {callee : Method} {arguments : List SymValue} {result : Option LocalId} {M : Machine} {c : Context}
      {n? : Option Node} {l labels : Label} : (skipReason? limit q.program s callee).isSome →
    (unknownResult result).Yields (.start s.symbolic) w.context () M c → w.calls.first? s.node = .ok n? →
    Proceeds s q limit b us w (.call callee arguments result)
      (n?.map fun n => s.advance n (s.symbolic.updateAll l (us ++ M.pending))).toList
      (w.withContext { c with labels })
  | enter {callee : Method} {arguments : List SymValue} {result : Option LocalId} {entry : Node}
      {calls : Instances ExecState} {b' : Body} {bindings : List (LocalId × SymValue)} {M : Machine} {c : Context}
      {l l' labels : Label} : ¬ (skipReason? limit q.program s callee).isSome →
    (Instances.enter q callee).run.run w.calls = (.ok entry, calls) → q.body callee = .ok b' →
    (bindParameters (b'.parameters callee) arguments).Yields (.start s.symbolic) w.context bindings M c →
    Proceeds s q limit b us w (.call callee arguments result)
      [(s.call (.ofCall s.node result) callee).advance entry
        (((s.symbolic.updateAll l us).withMemory
          ((s.symbolic.updateAll l us).memory.bindAll bindings)).updateAll l' M.pending)]
      ⟨calls, { c with labels }⟩
  | resume {v : SymValue} {site : Node} {calls : Instances ExecState} {b' : Body}
      {bindings : List (LocalId × SymValue)} {M : Machine} {c : Context} {l l' labels : Label} :
    s.stack.below = [] → (Instances.resume q s.node).run.run w.calls = (.ok site, calls) →
    q.body site.method = .ok b' →
    (resumed site.method b').Yields (.start s.symbolic) w.context bindings M c →
    Proceeds s q limit b us w (.ret v)
      [s.restart.advance site (((s.symbolic.updateAll l us).withMemory
        (((s.symbolic.updateAll l us).memory.withoutLocalsOf s.node.method).bindAll bindings)).updateAll
          l' M.pending)]
      ⟨calls, { c with labels }⟩
  | stop {v : SymValue} : s.stack.below ≠ [] → Proceeds s q limit b us w (.ret v) [] w
  | leave {v : SymValue} {caller n : Node} {M : Machine} {c : Context} {l l' labels labels' : Label} :
    s.stack.below ≠ [] → s.stack.top.caller = some caller → w.calls.first? caller = .ok (some n) →
    (handedResult v s.stack.top.result).Yields (.start s.symbolic) { w.context with labels } () M c →
    Proceeds s q limit b us w (.ret v)
      [s.leave.advance n (((s.symbolic.withMemory
        (s.symbolic.memory.withoutLocalsOf s.node.method)).updateAll l us).updateAll l' M.pending)]
      (w.withContext { c with labels := labels' })

theorem proceed_ok {q : Query} {limit : Nat} {b : Body} {e : Effect}
    (h : (s.proceed q limit b us e).run.run w = (.ok fs, w')) : Proceeds s q limit b us w e fs w' := by
  cases e with
  | goOn =>
    obtain ⟨t, _, perform, go⟩ := run_bind_ok.1 h
    obtain ⟨rfl, rfl⟩ := perform_ok.1 perform
    obtain ⟨ns, found, rfl, rfl⟩ := toAll_ok go
    exact .goOn found
  | parameter id =>
    obtain ⟨v, n?, bound, first, rfl, rfl⟩ := afterParameter_ok h
    exact .parameter bound first
  | branch onTrue onFalse target =>
    obtain ⟨ns, found, rfl, rfl⟩ := afterBranch_ok h
    exact .branch found
  | switch cases =>
    obtain ⟨ns, labels, found, rfl, after⟩ := afterSwitch_ok h
    exact .switch found after
  | call callee arguments result =>
    simp only [proceed] at h
    split at h
    next skipped =>
      obtain ⟨M, c, n?, l, labels, run, first, rfl, rfl⟩ := skipCall_ok h
      exact .skip skipped run first
    next entered =>
      obtain ⟨entry, calls, b', bindings, M, c, l, l', labels, enter, body, run, rfl, rfl⟩ := enterCall_ok h
      exact .enter entered enter body run
  | ret v =>
    simp only [proceed] at h
    split at h
    next outermost =>
      obtain ⟨site, calls, b', bindings, M, c, resume, body, run, l, l', labels, rfl, rfl⟩ := returnAlongPath_ok h
      exact .resume (List.isEmpty_iff.1 outermost) resume body run
    next inner =>
      have inner : s.stack.below ≠ [] := by simpa using inner
      obtain ⟨rfl, rfl⟩ | ⟨caller, n, M, c, l, l', labels, labels', top, first, run, rfl, rfl⟩ :=
        returnToCaller_ok h
      · exact .stop inner
      · exact .leave inner top first run

/-- A step performs an instruction and goes where its effect says. -/
theorem next_ok {q : Query} {limit : Nat} (h : (s.next q limit).run.run w = (.ok fs, w')) :
    ∃ b i e M c, q.body s.node.method = .ok b ∧ b.instruction? s.node.instr = some i ∧
      (Effect.ofInstruction s.node.method i).Yields (.start s.symbolic) w.context e M c ∧
      (s.proceed q limit b M.pending e).run.run (w.withContext c) = (.ok fs, w') := by
  unfold next at h
  obtain ⟨b, w₁, lift, rest⟩ := run_bind_ok.1 h
  obtain ⟨body, rfl⟩ := run_lift_ok.1 lift
  split at rest
  · exact absurd rest run_throw_ne_ok
  next i found =>
    obtain ⟨⟨e, us⟩, w₂, gather, rest⟩ := run_bind_ok.1 rest
    obtain ⟨M, c, run, rfl, rfl⟩ := gather_ok.1 gather
    refine ⟨b, i, e, M, c, body, found, run, ?_⟩
    cases e with
    | goOn | parameter | branch | switch | call | ret => exact rest

theorem mem_of_afterSwitch {cases : List (Term × InstrId)} {ns : List Node}
    (h : AfterSwitch s t cases ns fs) {f : ExecState} (hf : f ∈ fs) : f.node ∈ ns := by
  induction h with
  | nil => cases hf
  | cons l _ _ ih =>
    rcases List.mem_cons.1 hf with rfl | hf
    · exact List.mem_cons_self
    · exact List.mem_cons_of_mem _ (ih hf)

/-- Without a call, a step from the outermost frame stays in its instance or goes to a new one. -/
theorem proceed_calls {q : Query} {limit : Nat} {b : Body} {e : Effect}
    (noCall : ∀ callee arguments result, e ≠ .call callee arguments result)
    (outermost : s.stack.below = []) (h : (s.proceed q limit b us e).run.run w = (.ok fs, w')) :
    (w'.calls = w.calls ∧ ∀ f ∈ fs, f.node.callId = s.node.callId) ∨
      ∃ m g, w'.calls = w.calls.withNew m g ∧ ∀ f ∈ fs, f.node.callId = w.calls.count := by
  have inside {ns : List Node} (found : w.calls.successors s.node = .ok ns) :
      ∀ n ∈ ns, n.callId = s.node.callId := by
    intro n hn
    obtain ⟨i, -, rest⟩ := except_bind_ok.1 found
    cases rest
    obtain ⟨j, -, rfl⟩ := List.mem_map.1 hn
    rfl
  cases proceed_ok h with
  | goOn found | branch found =>
    refine .inl ⟨rfl, fun f hf => ?_⟩
    obtain ⟨n, hn, rfl⟩ := List.mem_map.1 hf
    exact inside found n hn
  | parameter _ first =>
    obtain ⟨ns, found, rfl⟩ := Instances.first?_ok first
    refine .inl ⟨rfl, fun f hf => ?_⟩
    obtain ⟨n, head, rfl⟩ := Option.map_eq_some_iff.1 (Option.mem_toList.1 hf)
    exact inside found n (List.mem_of_mem_head? head)
  | switch found after => exact .inl ⟨rfl, fun f hf => inside found _ (mem_of_afterSwitch after hf)⟩
  | skip | enter => exact absurd rfl (noCall _ _ _)
  | resume _ resume =>
    obtain ⟨i, m, g, -, -, rfl, rfl⟩ := Instances.resume_ok resume
    exact .inr ⟨m, g, rfl, List.forall_mem_singleton.2 rfl⟩
  | stop inner | leave inner => exact absurd outermost inner

end ExecState

/-- The state is in the outermost frame of the method. -/
structure ExecState.Within (s : ExecState) (m : Method) : Prop where
  method : s.node.method = m
  outermost : s.stack.below = []

/-- Ways on from an instruction without a call: to all successors, to the first one, or out of the method. -/
inductive Way where
  | all
  | first
  | out

def Instruction.way : Instruction → Way
  | .identity _ _ => .first
  | .ret _ | .retVoid => .out
  | _ => .all

def Effect.way? : Effect → Option Way
  | .goOn | .branch _ _ _ | .switch _ => some .all
  | .parameter _ => some .first
  | .ret _ => some .out
  | .call _ _ _ => none

/-- The effect of an instruction without a call goes the way of the instruction. -/
theorem Effect.ofInstruction_way {m : Method} {i : Instruction} (callFree : i.call? = none)
    {M M' : Machine} {c c' : Context} {e : Effect}
    (h : (Effect.ofInstruction m i).Yields M c e M' c') : e.way? = some i.way := by
  cases i with
  | assign place value =>
    cases value with
    | invoke call => cases callFree
    | _ =>
      cases place <;>
      · obtain ⟨_, _, _, _, h⟩ := Run.yields_bind.1 h
        cases (Run.yields_pure.1 h).1
        rfl
  | identity l source =>
    obtain ⟨o, _, _, _, h⟩ := Run.yields_bind.1 h
    cases o with
    | none =>
      obtain ⟨_, _, _, _, h⟩ := Run.yields_bind.1 h
      cases (Run.yields_pure.1 h).1
      rfl
    | some w =>
      cases (Run.yields_pure.1 h).1
      rfl
  | branch condition target =>
    obtain ⟨_, _, _, _, h⟩ := Run.yields_bind.1 h
    obtain ⟨_, _, _, _, h⟩ := Run.yields_bind.1 h
    obtain ⟨_, _, _, _, h⟩ := Run.yields_bind.1 h
    cases (Run.yields_pure.1 h).1
    rfl
  | switch key table default =>
    obtain ⟨_, _, _, _, h⟩ := Run.yields_bind.1 h
    obtain ⟨_, _, _, _, h⟩ := Run.yields_bind.1 h
    cases (Run.yields_pure.1 h).1
    rfl
  | invoke call => cases callFree
  | ret value =>
    obtain ⟨_, _, _, _, h⟩ := Run.yields_bind.1 h
    cases (Run.yields_pure.1 h).1
    rfl
  | retVoid =>
    obtain ⟨_, _, _, _, h⟩ := Run.yields_bind.1 h
    cases (Run.yields_pure.1 h).1
    rfl
  | throw | goto | nop | monitor =>
    cases (Run.yields_pure.1 h).1
    rfl

/-- Only a call asks for a call. -/
theorem Effect.ofInstruction_ne_call {m : Method} {i : Instruction} (callFree : i.call? = none)
    {M M' : Machine} {c c' : Context} {e : Effect}
    (h : (Effect.ofInstruction m i).Yields M c e M' c') (callee : Method) (arguments : List SymValue)
    (result : Option LocalId) : e ≠ .call callee arguments result := by
  rintro rfl
  cases Effect.ofInstruction_way callFree h

theorem ExecState.next_calls {q : Query} {limit : Nat} {b : Body} {s : ExecState} {w w' : World}
    {fs : List ExecState} (body : q.body s.node.method = .ok b)
    (callFree : ∀ i ∈ b.instructions, i.call? = none) (outermost : s.stack.below = [])
    (h : (s.next q limit).run.run w = (.ok fs, w')) :
    (w'.calls = w.calls ∧ ∀ f ∈ fs, f.node.callId = s.node.callId) ∨
      ∃ m g, w'.calls = w.calls.withNew m g ∧ ∀ f ∈ fs, f.node.callId = w.calls.count := by
  obtain ⟨b₁, i, e, M, c, body₁, found, run, rest⟩ := next_ok h
  cases body.symm.trans body₁
  have noCall := Effect.ofInstruction_ne_call (callFree i (List.mem_of_getElem? found)) run
  exact proceed_calls (w := w.withContext c) noCall outermost rest

/-- A step keeps nothing new. -/
theorem ExecState.next_data? {q : Query} {limit : Nat} {b : Body} {s y : ExecState} {w w' : World}
    {fs : List ExecState} {n : Node} (body : q.body s.node.method = .ok b)
    (callFree : ∀ i ∈ b.instructions, i.call? = none) (outermost : s.stack.below = [])
    (h : (s.next q limit).run.run w = (.ok fs, w')) (found : w'.calls.data? n = some y) :
    w.calls.data? n = some y := by
  rcases next_calls body callFree outermost h with ⟨same, -⟩ | ⟨m, g, new, -⟩
  · exact same ▸ found
  · rw [new] at found
    exact Instances.data?_withNew g found

end SinkReach
