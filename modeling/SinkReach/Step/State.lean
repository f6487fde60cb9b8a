import SinkReach.Route.Node
import SinkReach.Symbolic.State

/-!
Execution states: how a node was reached, the call stack, the symbolic state there, how many states
were merged into it, and how often each method was entered.
-/
namespace SinkReach

/-- A frame of the call stack: the call site, absent in the outermost frame, the parameters bound so
far, and the local that takes the result. -/
structure Frame where
  caller : Option Node
  parameters : List (LocalId × SymValue)
  result : Option LocalId
deriving Inhabited

namespace Frame

def root : Frame := ⟨none, [], none⟩

def ofCall (caller : Node) (result : Option LocalId) : Frame := ⟨some caller, [], result⟩

def addParameter (f : Frame) (id : LocalId) (v : SymValue) : Frame :=
  { f with parameters := f.parameters ++ [(id, v)] }

end Frame

/-- A call stack: the innermost frame, and those around it from the nearest to the outermost. -/
structure Stack where
  top : Frame
  below : List Frame
deriving Inhabited

namespace Stack

def root : Stack := ⟨.root, []⟩

def push (s : Stack) (f : Frame) : Stack := ⟨f, s.top :: s.below⟩

/-- Leaves the innermost frame, unless it is the outermost one. -/
def pop (s : Stack) : Stack :=
  match s.below with
  | [] => s
  | f :: below => ⟨f, below⟩

def depth (s : Stack) : Nat := s.below.length + 1

def outermost (s : Stack) : Frame := s.below.getLast?.getD s.top

/-- Frames from the outermost. -/
def toList (s : Stack) : List Frame := s.below.reverse ++ [s.top]

/-- Stack of frames from the outermost; none at all are a root frame. -/
def ofList (frames : List Frame) : Stack :=
  match frames.reverse with
  | [] => root
  | f :: below => ⟨f, below⟩

end Stack

structure ExecState where
  path : Path
  stack : Stack
  symbolic : SymState
  merged : Nat
  counts : Table Method Nat
deriving Inhabited

namespace ExecState

/-- State at the entry of the analysed method. -/
def initial (entry : Node) : ExecState := ⟨.single entry, .root, .initial, 0, {}⟩

/-- Node at which the state is. -/
def node (s : ExecState) : Node := s.path.last

/-- How often a method was entered. -/
def count (s : ExecState) (m : Method) : Nat := (s.counts.get? m).getD 0

/-- Goes on to a node with a symbolic state. -/
def advance (s : ExecState) (n : Node) (symbolic : SymState) : ExecState :=
  { s with path := s.path.push n, symbolic }

/-- Records a parameter in the innermost frame. -/
def addParameter (s : ExecState) (id : LocalId) (v : SymValue) : ExecState :=
  { s with stack := { s.stack with top := s.stack.top.addParameter id v } }

/-- Enters a method through a new frame and counts it. -/
def call (s : ExecState) (f : Frame) (m : Method) : ExecState :=
  { s with stack := s.stack.push f, counts := s.counts.insert m (s.count m + 1) }

/-- Leaves the innermost frame. -/
def leave (s : ExecState) : ExecState := { s with stack := s.stack.pop }

/-- Starts anew with a root frame only. -/
def restart (s : ExecState) : ExecState := { s with stack := .root }

end ExecState
end SinkReach
