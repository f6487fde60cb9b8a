import SinkReach.Program.Instruction
import SinkReach.Table

/-!
Method bodies with their control-flow edges, and programs. A body has at least one instruction, one
successor list for each, and no edge that leaves it.
-/
namespace SinkReach

/-- Why instructions and edges do not make a body. -/
inductive BodyError where
  | empty (method : Method)
  | successorCount (method : Method) (lists instructions : Nat)
  | edgeOutOfBounds (method : Method) (target : InstrId)
deriving DecidableEq, Repr

def BodyError.message : BodyError → String
  | empty m => "Graph error: " ++ m.text ++ " has an empty body"
  | successorCount m lists n =>
    "Graph error: " ++ m.text ++ ": " ++ toString lists ++ " successor lists for " ++ toString n ++
      " instructions"
  | edgeOutOfBounds m i =>
    "Graph error: " ++ m.text ++ ": edge to " ++ InstrId.text i ++ " out of bounds"

structure Body where
  method : Method
  locals : List Local
  instructions : List Instruction
  successors : List (List InstrId)
  nonempty : instructions ≠ []
  successors_length : successors.length = instructions.length
  edges_lt : ∀ i ∈ successors.flatten, i < instructions.length

/-- Drops repetitions, keeping the first of each. -/
def firstOnly [BEq α] : List α → List α
  | [] => []
  | a :: as => a :: (firstOnly as).filter fun b => !(b == a)

namespace Instruction

/-- Targets of the instruction at a position among `count`: fall-through first, then jump targets. -/
def targets (count : Nat) (position : InstrId) (i : Instruction) : List InstrId :=
  let next := if position + 1 < count then [position + 1] else []
  match i with
  | ret _ | retVoid | throw _ => []
  | goto target => [target]
  | branch _ target => firstOnly (next ++ [target])
  | switch _ table default => firstOnly (table.targets ++ [default])
  | _ => next

end Instruction

/-- Successor lists that follow from the instructions. -/
def deriveSuccessors (instructions : List Instruction) : List (List InstrId) :=
  instructions.zipIdx.map fun (i, k) => i.targets instructions.length k

namespace Body

/-- Body with given successor lists. -/
def ofSuccessors (method : Method) (locals : List Local) (instructions : List Instruction)
    (successors : List (List InstrId)) : Except BodyError Body :=
  if nonempty : instructions = [] then .error (.empty method)
  else if length : successors.length = instructions.length then
    match bad : successors.flatten.find? fun i => decide (instructions.length ≤ i) with
    | some i => .error (.edgeOutOfBounds method i)
    | none =>
      .ok { method, locals, instructions, successors, nonempty
            successors_length := length
            edges_lt := fun i hi => by
              have h := List.find?_eq_none.1 bad i hi
              simpa using h }
  else .error (.successorCount method successors.length instructions.length)

/-- Body whose successors follow from its instructions. -/
def ofInstructions (method : Method) (locals : List Local) (instructions : List Instruction) :
    Except BodyError Body :=
  ofSuccessors method locals instructions (deriveSuccessors instructions)

def entry : InstrId := 0

def length (b : Body) : Nat := b.instructions.length

/-- All positions, the entry first. -/
def positions (b : Body) : List InstrId := List.range b.length

def instruction? (b : Body) (i : InstrId) : Option Instruction := b.instructions[i]?

def successorsOf (b : Body) (i : InstrId) : List InstrId := b.successors[i]?.getD []

end Body

/-- Bodies by method, and the classes whose methods are never entered. -/
structure Program where
  bodies : Table Method Body
  libraries : List String

namespace Program

/-- Of two bodies of one method the later counts. -/
def ofBodies (bodies : List Body) (libraries : List String) : Program :=
  ⟨.ofList (bodies.map fun b => (b.method, b)), libraries⟩

def body? (p : Program) (m : Method) : Option Body := p.bodies.get? m

def isLibrary (p : Program) (m : Method) : Bool := p.libraries.contains m.className

/-- The least method of a qualified name. -/
def find? (p : Program) (qualifiedName : String) : Option Method :=
  p.bodies.keys.find? fun m => m.qualifiedName == qualifiedName

end Program
end SinkReach
