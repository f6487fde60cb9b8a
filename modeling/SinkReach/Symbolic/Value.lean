import SinkReach.Program.Instruction
import SinkReach.Term.Build

/-!
Symbolic values: a primitive value is a term of the sort of its type, a reference is a term for its
address. Address zero is null.
-/
namespace SinkReach

namespace Address

def width : Nat := 32

def sort : TermSort := .bitVec width

def null (l : Label) : Term := .ofInt l 0 width

end Address

/-- Sort of a declared type; references are addresses, and `void` stands for a number nobody reads. -/
def Ty.sort : Ty → TermSort
  | boolean => .bool
  | byte => .bitVec 8
  | short | char => .bitVec 16
  | int => .bitVec 32
  | long => .bitVec 64
  | float => .float .single
  | double => .float .double
  | void => .bitVec 32
  | null | ref _ | array _ => Address.sort

/-- A local of a method. Activations of one method share their locals. -/
structure LocalId where
  method : Method
  name : String
  ty : Ty
deriving DecidableEq, Repr, Inhabited

namespace LocalId

def ofLocal (m : Method) (l : Local) : LocalId := ⟨m, l.name, l.ty⟩

def text (l : LocalId) : String := l.method.qualifiedName ++ "::" ++ l.name ++ ": " ++ l.ty.text

protected def compare (a b : LocalId) : Ordering :=
  Text.andThen (a.method.compare b.method) <|
  Text.andThen (Ord.compare a.name b.name) (a.ty.compare b.ty)

instance : Ord LocalId := ⟨LocalId.compare⟩

end LocalId

inductive SymValue where
  | primitive (ty : Ty) (term : Term)
  | reference (ty : Ty) (address : Term)

namespace SymValue

instance : Inhabited SymValue := ⟨.primitive .void default⟩

def ty : SymValue → Ty
  | primitive ty _ | reference ty _ => ty

/-- The value's term, for a reference its address. -/
def term : SymValue → Term
  | primitive _ t | reference _ t => t

/-- Equality up to the labels of nodes. -/
def same : SymValue → SymValue → Bool
  | primitive s a, primitive t b | reference s a, reference t b => s = t && a.same b
  | _, _ => false

/-- Value of a type around a term, a reference if the type is one. -/
def wrap (ty : Ty) (t : Term) : SymValue := if ty.isReference then reference ty t else primitive ty t

def null (l : Label) : SymValue := reference .null (Address.null l)

def void (l : Label) : SymValue := primitive .void (.ofInt l 0 32)

def text : SymValue → String
  | primitive ty t => t.text ++ ": " ++ ty.text
  | reference ty t => "@" ++ t.text ++ ": " ++ ty.text

end SymValue

/-- What a reference may point to. -/
inductive ReferenceKind where
  | object
  | array
  | null
deriving DecidableEq, Repr

def SymValue.kind? : SymValue → Option ReferenceKind
  | primitive _ _ => none
  | reference (.array _) _ => some .array
  | reference .null _ => some .null
  | reference _ _ => some .object

end SinkReach
