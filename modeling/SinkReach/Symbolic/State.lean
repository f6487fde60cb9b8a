import SinkReach.Symbolic.Value
import SinkReach.Table

/-!
Symbolic states: the constraints of a path, the values of locals, one array for each field over all
objects, and the next free address.
-/
namespace SinkReach

/-- One field over all objects. A chunk is known by class and field; its type decides the elements'
sort only. -/
structure Chunk where
  className : String
  fieldName : String
  ty : Ty
deriving Repr, Inhabited

namespace Chunk

def ofField (f : Field) : Chunk := ⟨f.className, f.name, f.ty⟩

instance : BEq Chunk := ⟨fun a b => a.className == b.className && a.fieldName == b.fieldName⟩

instance : Ord Chunk where
  compare a b := Text.andThen (compare a.className b.className) (compare a.fieldName b.fieldName)

/-- Name of the array before any store; the length of the class name keeps different pairs apart. -/
def id (c : Chunk) : String :=
  toString c.className.utf8ByteSize ++ ":" ++ c.className ++ "." ++ c.fieldName

def sort (c : Chunk) : TermSort := .array Address.sort c.ty.sort

/-- The array before any store. -/
def initial (l : Label) (c : Chunk) : Term := .var l c.id c.sort

end Chunk

/-- An effect of an instruction on the state. -/
inductive Update where
  | constraint (condition : Term)
  | allocate (next : Nat)
  | bind (id : LocalId) (value : SymValue)
  | store (chunk : Chunk) (index element : Term)
  | set (chunk : Chunk) (array : Term)

structure Memory where
  locals : Table LocalId SymValue
  fields : Table Chunk Term
deriving Inhabited

namespace Memory

def empty : Memory := ⟨{}, {}⟩

def local? (m : Memory) (id : LocalId) : Option SymValue := m.locals.get? id

/-- Current array of a chunk. -/
def array (l : Label) (m : Memory) (c : Chunk) : Term := (m.fields.get? c).getD (c.initial l)

def bind (m : Memory) (id : LocalId) (v : SymValue) : Memory :=
  { m with locals := m.locals.insert id v }

def setArray (m : Memory) (c : Chunk) (array : Term) : Memory :=
  { m with fields := m.fields.insert c array }

/-- Writes one element; uses two labels. -/
def store (l : Label) (m : Memory) (c : Chunk) (index element : Term) : Memory :=
  m.setArray c (.store l (m.array (l + 1) c) index element)

/-- Drops the locals of a method. -/
def withoutLocalsOf (m : Memory) (method : Method) : Memory :=
  { m with locals := m.locals.filterKeys fun id => id.method ≠ method }

def bindAll (m : Memory) (bindings : List (LocalId × SymValue)) : Memory :=
  { m with locals := m.locals.insertAll bindings }

end Memory

structure SymState where
  constraints : List Term
  memory : Memory
  nextAddress : Nat
deriving Inhabited

namespace SymState

/-- Addresses of objects start at one. -/
def firstAddress : Nat := 1

def initial : SymState := ⟨[], .empty, firstAddress⟩

/-- State whose next address is at least the first one. -/
def ofParts (constraints : List Term) (memory : Memory) (nextAddress : Nat) : SymState :=
  ⟨constraints, memory, max nextAddress firstAddress⟩

/-- Conjunction of the constraints. -/
def pathCondition (l : Label) (s : SymState) : Term := .andAll l s.constraints

def withMemory (s : SymState) (m : Memory) : SymState := { s with memory := m }

def assume (s : SymState) (condition : Term) : SymState :=
  { s with constraints := s.constraints ++ [condition] }

/-- Performs one effect; uses two labels. -/
def update (l : Label) (s : SymState) : Update → SymState
  | .constraint c => s.assume c
  | .allocate n => { s with nextAddress := max s.nextAddress n }
  | .bind id v => s.withMemory (s.memory.bind id v)
  | .store c i e => s.withMemory (s.memory.store l c i e)
  | .set c a => s.withMemory (s.memory.setArray c a)

/-- Performs effects in order; uses two labels for each. -/
def updateAll (l : Label) (s : SymState) : List Update → SymState
  | [] => s
  | u :: us => (s.update l u).updateAll (l + 2) us

end SymState
end SinkReach
