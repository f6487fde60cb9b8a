import SinkReach.Text

/-!
Declared types of a program, as source code spells them, and references to methods and fields.
-/
namespace SinkReach

/-- Type of a local, field, parameter or expression; `null` is the type of the null literal. -/
inductive Ty where
  | boolean
  | byte
  | short
  | char
  | int
  | long
  | float
  | double
  | void
  | null
  | ref (name : String)
  | array (element : Ty)
deriving DecidableEq, Repr, Inhabited, Hashable

/-- Why a text is no type name. -/
inductive TypeNameError where
  | empty
  | malformed (name : String)
deriving DecidableEq, Repr

def TypeNameError.message : TypeNameError → String
  | empty => "empty type name"
  | malformed name => "malformed type name '" ++ name ++ "'"

namespace Ty

def isPrimitive : Ty → Bool
  | boolean | byte | short | char | int | long | float | double => true
  | _ => false

/-- Class, array and null types. -/
def isReference : Ty → Bool
  | ref _ | array _ | null => true
  | _ => false

def isArray : Ty → Bool
  | array _ => true
  | _ => false

def text : Ty → String
  | boolean => "boolean"
  | byte => "byte"
  | short => "short"
  | char => "char"
  | int => "int"
  | long => "long"
  | float => "float"
  | double => "double"
  | void => "void"
  | null => "null"
  | ref name => name
  | array element => element.text ++ "[]"

/-- Types whose names are reserved. -/
def keywords : List Ty := [boolean, byte, short, char, int, long, float, double, void, null]

/-- Type of a trimmed name without array brackets. -/
def ofName (cs : List Char) : Except TypeNameError Ty :=
  let name := String.ofList cs
  match keywords.find? fun ty => ty.text == name with
  | some ty => .ok ty
  | none =>
    if cs.isEmpty then .error .empty
    else if cs.any fun c => Text.isBlank c || c == '[' || c == ']' then .error (.malformed name)
    else .ok (ref name)

theorem length_dropWhile_le (p : α → Bool) (l : List α) : (l.dropWhile p).length ≤ l.length := by
  induction l with
  | nil => simp
  | cons a l ih =>
    rw [List.dropWhile_cons]
    split
    · simp only [List.length_cons]
      omega
    · simp

theorem length_trim_le (cs : List Char) : (Text.trim cs).length ≤ cs.length := by
  have h := length_dropWhile_le Text.isBlank (cs.dropWhile Text.isBlank).reverse
  have h' := length_dropWhile_le Text.isBlank cs
  simp only [Text.trim, List.length_reverse] at h ⊢
  omega

/-- Reads a type name: trailing brackets are stripped one pair at a time, blanks around each part being
ignored. -/
def parseChars (cs : List Char) : Except TypeNameError Ty :=
  match _h : (Text.trim cs).reverse with
  | ']' :: '[' :: rest => (parseChars rest.reverse).map array
  | _ => ofName (Text.trim cs)
termination_by cs.length
decreasing_by
  have := length_trim_le cs
  have h' := congrArg List.length _h
  simp only [List.length_reverse, List.length_cons] at h' ⊢
  omega

def parse (s : String) : Except TypeNameError Ty := parseChars s.toList

def rank : Ty → Nat
  | boolean => 0
  | byte => 1
  | short => 2
  | char => 3
  | int => 4
  | long => 5
  | float => 6
  | double => 7
  | void => 8
  | null => 9
  | ref _ => 10
  | array _ => 11

/-- Primitive types in order of declaration, then class types by name, then array types by element. -/
protected def compare : Ty → Ty → Ordering
  | ref a, ref b => Ord.compare a b
  | array a, array b => a.compare b
  | a, b => Ord.compare a.rank b.rank

instance : Ord Ty := ⟨Ty.compare⟩

end Ty

/-- A method by its full signature. -/
structure Method where
  className : String
  name : String
  params : List Ty
  ret : Ty
deriving DecidableEq, Repr, Inhabited, Hashable

namespace Method

/-- Class and name, without the parameters. -/
def qualifiedName (m : Method) : String := m.className ++ "." ++ m.name

def text (m : Method) : String :=
  m.qualifiedName ++ "(" ++ Text.join "," (m.params.map Ty.text) ++ ")" ++ m.ret.text

protected def compare (a b : Method) : Ordering :=
  Text.andThen (Ord.compare a.className b.className) <|
  Text.andThen (Ord.compare a.name b.name) <|
  Text.andThen (Text.compareLists Ty.compare a.params b.params) (a.ret.compare b.ret)

instance : Ord Method := ⟨Method.compare⟩

end Method

/-- A field by declaring class, name and declared type. -/
structure Field where
  className : String
  name : String
  ty : Ty
  isStatic : Bool
deriving DecidableEq, Repr, Inhabited

end SinkReach
