import SinkReach.Fault
import SinkReach.Program.Body
import SinkReach.Route.TaintPath

/-!
Call instances. Entering a method, or resuming in a caller that was never entered, makes a new instance
of the method's graph, pruned to the paths through the instructions that the taint path names in it.
Every instance keeps data at its instructions. An instance is known by its number, from zero in the
order of creation.
-/
namespace SinkReach

namespace Body

/-- Control-flow graph of the body; the entry is its first vertex. -/
def graph (b : Body) : Digraph :=
  let vertices := b.positions.foldl Digraph.addVertex .empty
  b.positions.foldl (fun g i => (b.successorsOf i).foldl (fun g j => g.addEdge i j) g) vertices

end Body

/-- The program and the path asked about. -/
structure Query where
  program : Program
  path : TaintPath

namespace Query

def body (q : Query) (m : Method) : Except Fault Body :=
  match q.program.body? m with
  | some b => .ok b
  | none => .error (.noBody m)

/-- Graph of a method, pruned if the path names instructions of it. -/
def graph (q : Query) (m : Method) : Except Fault Digraph := do
  let full := (← q.body m).graph
  match q.path.keys m with
  | [] => return full
  | keys =>
    match full.prune keys with
    | .ok g => return g
    | .error e => .error (.pruning m e)

end Query

structure Instance (α : Type) where
  method : Method
  graph : Digraph
  data : Table InstrId α

/-- Instances by number. -/
structure Instances (α : Type) where
  all : List (Instance α)

namespace Instances

def empty : Instances α := ⟨[]⟩

def count (s : Instances α) : Nat := s.all.length

/-- Operations that may make instances, which stay when the operation fails. -/
abbrev Making (α : Type) := ExceptT Fault (StateM (Instances α))

/-- Makes an instance of a method's graph. -/
def make (q : Query) (m : Method) : Making α CallId := do
  let g ← liftExcept (q.graph m)
  modifyGet fun s => (s.count, ⟨s.all ++ [⟨m, g, {}⟩]⟩)

/-- Makes an instance of a method and gives its entry. -/
def enter (q : Query) (m : Method) : Making α Node := do
  let _ ← liftExcept (q.body m)
  return ⟨← make q m, m, Body.entry⟩

/-- Call site and calling method that the path records for a return. -/
def returnSite (q : Query) (n : Node) : Except Fault (InstrId × Method) := do
  match q.path.entryAt? n.method n.instr with
  | none => .error (.offTaintPath n)
  | some e =>
    match e.returnSite? with
    | none => .error (.noReturnSite n)
    | some (site, m) => if q.path.hasKeys m then return (site, m) else .error (.callerWithoutKeys m)

def contains (s : Instances α) (n : Node) : Bool :=
  match s.all[n.callId]? with
  | some i => i.graph.contains n.instr
  | none => false

/-- Makes an instance of the caller of a method that was entered without a call, and gives its call
site. -/
def resume (q : Query) (n : Node) : Making α Node := do
  let (site, m) ← liftExcept (returnSite q n)
  let node : Node := ⟨← make q m, m, site⟩
  if (← get).contains node then return node else throw (.noSuchCallSite site m)

/-- The instance of a node, which has to be one of the node's method. -/
def of (s : Instances α) (n : Node) : Except Fault (Instance α) :=
  match s.all[n.callId]? with
  | none => .error (.unknownInstance n)
  | some i => if i.method = n.method then .ok i else .error (.otherMethod n.callId i.method n.method)

/-- Successors of a node inside its instance, in the order of the edges. -/
def successors (s : Instances α) (n : Node) : Except Fault (List Node) := do
  return ((← s.of n).graph.successors n.instr).map n.withInstr

def first? (s : Instances α) (n : Node) : Except Fault (Option Node) := do
  return (← s.successors n).head?

/-- What is kept at a node. -/
def data? (s : Instances α) (n : Node) : Option α :=
  s.all[n.callId]?.bind fun i => i.data.get? n.instr

/-- Keeps something at a node. -/
def keep (s : Instances α) (n : Node) (a : α) : Except Fault (Instances α) :=
  match s.all[n.callId]? with
  | none => .error (.unknownInstance n)
  | some i => .ok ⟨s.all.set n.callId { i with data := i.data.insert n.instr a }⟩

end Instances
end SinkReach
