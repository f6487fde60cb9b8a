import SinkReach.Program.Instruction

/-!
Occurrences of instructions inside call instances, and the paths that they form.
-/
namespace SinkReach

/-- Number of a call instance. -/
abbrev CallId := Nat

/-- An instruction of a method inside one call instance. -/
structure Node where
  callId : CallId
  method : Method
  instr : InstrId
deriving DecidableEq, Repr, Inhabited, Hashable

namespace Node

def text (n : Node) : String :=
  "Node(" ++ n.method.qualifiedName ++ ":" ++ toString n.callId ++ ":" ++ InstrId.text n.instr ++ ")"

/-- Another instruction of the same call instance. -/
def withInstr (n : Node) (i : InstrId) : Node := { n with instr := i }

end Node

/-- A non-empty sequence of nodes: the last one, and those before it from the latest to the first. -/
structure Path where
  last : Node
  before : List Node
deriving DecidableEq, Repr, Inhabited

namespace Path

def single (n : Node) : Path := ⟨n, []⟩

def push (p : Path) (n : Node) : Path := ⟨n, p.last :: p.before⟩

def toList (p : Path) : List Node := p.before.reverse ++ [p.last]

def ofList? (nodes : List Node) : Option Path :=
  match nodes.reverse with
  | [] => none
  | last :: before => some ⟨last, before⟩

def length (p : Path) : Nat := p.before.length + 1

def text (p : Path) : String := "[" ++ Text.join " -> " (p.toList.map Node.text) ++ "]"

end Path

/-- Longest start that two lists share. -/
def commonStart [DecidableEq α] : List α → List α → List α
  | a :: as, b :: bs => if a = b then a :: commonStart as bs else []
  | _, _ => []

namespace Path

/-- Nodes that two paths share from their first node on. -/
def common (p q : Path) : List Node := commonStart p.toList q.toList

/-- Common start of two paths with the same last node, followed by that node unless it already ends
there. -/
def merge? (p q : Path) : Option Path :=
  if p.last = q.last then
    match (p.common q).reverse with
    | [] => some ⟨p.last, []⟩
    | n :: before => if n = p.last then some ⟨n, before⟩ else some ⟨p.last, n :: before⟩
  else none

end Path
end SinkReach
