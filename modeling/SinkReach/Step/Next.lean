import SinkReach.Route.Instances
import SinkReach.Step.Effect
import SinkReach.Step.State

/-!
Successors of an execution state. The instruction at the state's node is performed, and its effect
decides which nodes follow and under which constraints. A call is entered if its method has a body, is
not one of a library and was not entered too often; otherwise its result is unknown.
-/
namespace SinkReach

/-- What exploration changes as it goes: the call instances with the states kept at their nodes, and
the context of symbolic execution. -/
structure World where
  calls : Instances ExecState
  context : Context

/-- Operations on the world that may fail, what they changed until then being kept. -/
abbrev Explore := ExceptT Fault (StateM World)

namespace Explore

/-- Runs an operation on the context. -/
def onContext (x : Symbolic α) : Explore α := fun w =>
  let (r, c) := x w.context
  (r, { w with context := c })

/-- Runs an operation on the call instances. -/
def onCalls (x : Instances.Making ExecState α) : Explore α := fun w =>
  let (r, s) := x w.calls
  (r, { w with calls := s })

/-- Asks the call instances. -/
def askCalls (f : Instances ExecState → Except Fault α) : Explore α := do
  liftExcept (f (← getThe World).calls)

/-- Runs the machine on a state and takes its updates out. -/
def gather (s : SymState) (x : Run α) : Explore (α × List Update) :=
  onContext <| Machine.on s do
    let a ← x
    return (a, ← Machine.drain)

/-- Performs updates on a state. -/
def perform (s : SymState) (us : List Update) : Explore SymState :=
  onContext do return s.updateAll (← freshLabels us.length) us

end Explore

/-- Why a call is not entered. -/
inductive SkipReason where
  | callLimit
  | library
  | noBody
deriving DecidableEq, Repr

def SkipReason.text : SkipReason → String
  | callLimit => "call limit reached"
  | library => "library method"
  | noBody => "no body"

/-- Whether and why a call to a method is not entered, a method being entered at most `limit` times. -/
def skipReason? (limit : Nat) (p : Program) (s : ExecState) (m : Method) : Option SkipReason :=
  if limit ≤ s.count m then some .callLimit
  else if p.isLibrary m then some .library
  else if (p.body? m).isNone then some .noBody
  else none

/-- Locals of a method bound by the identity instructions of its body, in order. -/
def Body.parameters (b : Body) (m : Method) : List LocalId :=
  b.instructions.filterMap fun
    | .identity l _ => some (.ofLocal m l)
    | _ => none

namespace ExecState

open Explore

/-- Goes on to all successors of the node. -/
def toAll (s : ExecState) (symbolic : SymState) : Explore (List ExecState) := do
  return (← askCalls (·.successors s.node)).map fun n => s.advance n symbolic

/-- Goes on to the first successor of the node, if there is one. -/
def toFirst (s : ExecState) (symbolic : SymState) : Explore (List ExecState) := do
  return ((← askCalls (·.first? s.node)).map fun n => s.advance n symbolic).toList

/-- Records a parameter that the instruction bound. -/
def afterParameter (s : ExecState) (us : List Update) (id : LocalId) : Explore (List ExecState) := do
  let symbolic ← perform s.symbolic us
  match symbolic.memory.local? id with
  | none => throw (.unboundParameter id)
  | some v => (s.addParameter id v).toFirst symbolic

/-- Takes the edge to the target under one condition and the others under the other one; if the target
is the only successor, the condition does not matter. -/
def afterBranch (s : ExecState) (us : List Update) (b : Body) (onTrue onFalse : Term)
    (target : InstrId) : Explore (List ExecState) := do
  let symbolic ← perform s.symbolic us
  if b.successorsOf s.node.instr = [target] then s.toAll symbolic
  else
    return (← askCalls (·.successors s.node)).map fun n =>
      s.advance n (symbolic.assume (if n.instr = target then onTrue else onFalse))

/-- Takes the edge to each target under the disjunction of its cases. -/
def afterSwitch (s : ExecState) (us : List Update) (cases : List (Term × InstrId)) :
    Explore (List ExecState) := do
  let symbolic ← perform s.symbolic us
  (← askCalls (·.successors s.node)).mapM fun n => do
    match cases.filter fun c => c.2 = n.instr with
    | [] => throw (.noSwitchCase s.node n.instr)
    | mine =>
      let l ← onContext freshLabel
      return s.advance n (symbolic.assume (.orAll l (mine.map (·.1))))

/-- Goes on behind a call, its result being unknown. -/
def skipCall (s : ExecState) (us : List Update) (result : Option LocalId) :
    Explore (List ExecState) := do
  let ((), more) ← gather s.symbolic do
    match result with
    | some id => Machine.bind id (← Machine.unknown id.ty)
    | none => return ()
  s.toFirst (← perform s.symbolic (us ++ more))

/-- Values of a callee's parameters; those without an argument are unknown. -/
def bindParameters : List LocalId → List SymValue → Run (List (LocalId × SymValue))
  | [], _ => return []
  | id :: ids, [] => do
    let v ← Machine.unknown id.ty
    return (id, v) :: (← bindParameters ids [])
  | id :: ids, a :: as => do
    let v ← Machine.declaredAs a id.ty
    return (id, v) :: (← bindParameters ids as)

/-- Enters a new instance of the callee. -/
def enterCall (s : ExecState) (q : Query) (us : List Update) (callee : Method)
    (arguments : List SymValue) (result : Option LocalId) : Explore (List ExecState) := do
  let entry ← onCalls (Instances.enter q callee)
  let b ← liftExcept (q.body callee)
  let (bindings, more) ← gather s.symbolic (bindParameters (b.parameters callee) arguments)
  let symbolic ← perform s.symbolic us
  let symbolic ← perform (symbolic.withMemory (symbolic.memory.bindAll bindings)) more
  return [(s.call (.ofCall s.node result) callee).advance entry symbolic]

/-- Returns behind the call site of the innermost frame. -/
def returnToCaller (s : ExecState) (us : List Update) (v : SymValue) : Explore (List ExecState) := do
  match s.stack.top.caller with
  | none => throw (.noCallSite s.node.method)
  | some caller =>
    match ← askCalls (·.first? caller) with
    | none => return []
    | some next =>
      let memory := s.symbolic.memory.withoutLocalsOf s.node.method
      let symbolic ← perform (s.symbolic.withMemory memory) us
      let ((), more) ← gather s.symbolic do
        match s.stack.top.result with
        | some id => Machine.bind id (← Machine.declaredAs v id.ty)
        | none => return ()
      return [s.leave.advance next (← perform symbolic more)]

/-- Returns from a method that was entered without a call to the site that the taint path names; the
caller's locals are unknown there. -/
def returnAlongPath (s : ExecState) (q : Query) (us : List Update) : Explore (List ExecState) := do
  let site ← onCalls (Instances.resume q s.node)
  let b ← liftExcept (q.body site.method)
  let (bindings, more) ← gather s.symbolic <| b.locals.mapM fun l => do
    let id := LocalId.ofLocal site.method l
    return (id, ← Machine.unknown id.ty)
  let symbolic ← perform s.symbolic us
  let memory := (symbolic.memory.withoutLocalsOf s.node.method).bindAll bindings
  let symbolic ← perform (symbolic.withMemory memory) more
  return [s.restart.advance site symbolic]

/-- States that follow a state. -/
def next (s : ExecState) (q : Query) (limit : Nat) : Explore (List ExecState) := do
  let b ← liftExcept (q.body s.node.method)
  match b.instruction? s.node.instr with
  | none => throw (.noInstruction s.node.method s.node.instr)
  | some i =>
    let (effect, us) ← gather s.symbolic (Effect.ofInstruction s.node.method i)
    match effect with
    | .goOn => s.toAll (← perform s.symbolic us)
    | .parameter id => s.afterParameter us id
    | .branch onTrue onFalse target => s.afterBranch us b onTrue onFalse target
    | .switch cases => s.afterSwitch us cases
    | .call callee arguments result =>
      if (skipReason? limit q.program s callee).isSome then s.skipCall us result
      else s.enterCall q us callee arguments result
    | .ret v => if s.stack.below.isEmpty then s.returnAlongPath q us else s.returnToCaller us v

end ExecState
end SinkReach
