import SinkReach.Json.Parser
import SinkReach.Program.Body

/-!
The JSON form of programs. Structures are objects, or arrays of their fields in order of declaration;
instructions, right-hand sides, places and switch tables carry their kind in a member of their own;
unknown members are ignored, even unreadable ones. An instruction is kept as a whole until its kind is
known: all of it has to be readable, and the kinds of its parts may also be written as numbers.
-/
namespace SinkReach

/-- Why a document is refused; `form` stands for every fault of its shape. -/
inductive DecodeError where
  | form
  | typeName (cause : TypeNameError)
  | body (cause : BodyError)
  | emptyTaintPath
deriving DecidableEq, Repr

def DecodeError.message? : DecodeError → Option String
  | form => none
  | typeName e => some e.message
  | body e => some e.message
  | emptyTaintPath => some "Resolution error: taint path is empty"

abbrev Decoded := Except DecodeError

namespace Decode

def ofOption : Option α → Decoded α
  | some a => .ok a
  | none => .error .form

def str (j : Json) : Decoded String := ofOption j.str?

def flag (j : Json) : Decoded Bool := ofOption j.bool?

/-- Integer of a signed range of `bits` bits. -/
def signed (bits : Nat) : Json → Decoded Int
  | .int n =>
    let half : Int := Nat.pow 2 (bits - 1)
    if -half ≤ n ∧ n < half then .ok n else .error .form
  | _ => .error .form

def unsigned (bits : Nat) (j : Json) : Decoded Nat := ofOption (j.natBelow? (Nat.pow 2 bits))

def list (item : Json → Decoded α) (j : Json) : Decoded (List α) := do
  (← ofOption j.items?).mapM item

/-- Null counts as absent. -/
def nullable (item : Json → Decoded α) : Json → Decoded (Option α)
  | .null => .ok none
  | j => (item j).map some

/-- Bit pattern of a number, integers being rounded to the precision. -/
def real (p : Precision) : Json → Decoded Nat
  | .int n => .ok (p.ofInt n)
  | .float bits => .ok (Precision.double.convert p bits)
  | _ => .error .form

/-- Fields of a structure by name; each is looked up once. -/
structure Fields where
  /-- Value of the field at a position with a name. -/
  get? : Nat → String → Option Json

/-- Member of an object; a known member must not be repeated. -/
def member (members : List (String × Json)) (names : List String) : Decoded Fields :=
  if names.all fun name => (members.filter fun m => m.1 == name).length ≤ 1 then
    .ok ⟨fun _ name => (members.find? fun m => m.1 == name).map (·.2)⟩
  else .error .form

/-- The fields of a structure written as an object or as an array. -/
def fields (names : List String) : Json → Decoded Fields
  | .obj members => member members names
  | .arr items => if items.length ≤ names.length then .ok ⟨fun i _ => items[i]?⟩ else .error .form
  | _ => .error .form

def Fields.required (f : Fields) (position : Nat) (name : String) (item : Json → Decoded α) :
    Decoded α := do item (← ofOption (f.get? position name))

/-- A field that may be missing. -/
def Fields.optional (f : Fields) (position : Nat) (name : String) (item : Json → Decoded α)
    (default : α) : Decoded α :=
  match f.get? position name with
  | some j => item j
  | none => .ok default

/-- A value that carries its kind in the member `tag`, or as the first item of an array: the name of
the kind and the fields beside it. -/
def tagged (tag : String) (kindName : Json → Decoded String) : Json → Decoded (String × Json)
  | .obj members => do
    match members.filter fun m => m.1 == tag with
    | [(_, kind)] => return (← kindName kind, .obj (members.filter fun m => !(m.1 == tag)))
    | _ => .error .form
  | .arr (kind :: items) => do return (← kindName kind, .arr items)
  | _ => .error .form

/-- Name of one of the kinds, written as such or as its number. -/
def kindIn (kinds : List String) : Json → Decoded String
  | .str s => .ok s
  | .int (.ofNat n) => ofOption kinds[n]?
  | _ => .error .form

/-- Whether a value says nothing. -/
def isNull : Json → Bool
  | .null => true
  | _ => false

/-- Whether a part of an instruction says nothing. -/
def isVoid : Json → Bool
  | .null | .obj [] => true
  | _ => false

/-- A name written as a text, or as the only member of an object that says no more. -/
def name (saysNothing : Json → Bool) : Json → Decoded String
  | .str s => .ok s
  | .obj [(s, j)] => if saysNothing j then .ok s else .error .form
  | _ => .error .form

/-- One of a list of things by its name. -/
def named (saysNothing : Json → Bool) (all : List α) (nameOf : α → String) (j : Json) :
    Decoded α := do
  let s ← name saysNothing j
  ofOption (all.find? fun a => nameOf a == s)

/-- A value that is kept before it is read, so that all of it has to be readable. -/
def kept (depth : Nat) (item : Json → Decoded α) (j : Json) : Decoded α :=
  if j.isReadable depth then item j else .error .form

/-- A kind without fields: members are ignored, items are not. -/
def bare (j : Json) (a : α) : Decoded α :=
  match j with
  | .obj _ | .arr [] => .ok a
  | _ => .error .form

end Decode

open Decode

def Ty.decode (j : Json) : Decoded Ty := do
  match Ty.parse (← str j) with
  | .ok ty => return ty
  | .error e => .error (.typeName e)

def Ty.encode (ty : Ty) : Json := .str ty.text

def Method.decode (j : Json) : Decoded Method := do
  let f ← fields ["class", "name", "params", "ret"] j
  return {
    className := ← f.required 0 "class" str
    name := ← f.required 1 "name" str
    params := ← f.optional 2 "params" (list Ty.decode) []
    ret := ← f.optional 3 "ret" Ty.decode .void }

def Method.encode (m : Method) : Json :=
  .obj [("class", .str m.className), ("name", .str m.name), ("params", .ofList Ty.encode m.params),
    ("ret", m.ret.encode)]

def Field.decode (j : Json) : Decoded Field := do
  let f ← fields ["class", "name", "ty", "is_static"] j
  return {
    className := ← f.required 0 "class" str
    name := ← f.required 1 "name" str
    ty := ← f.required 2 "ty" Ty.decode
    isStatic := ← f.optional 3 "is_static" flag false }

def Field.encode (f : Field) : Json :=
  .obj [("class", .str f.className), ("name", .str f.name), ("ty", f.ty.encode),
    ("is_static", .bool f.isStatic)]

def Local.decode (j : Json) : Decoded Local := do
  let f ← fields ["name", "ty"] j
  return { name := ← f.required 0 "name" str, ty := ← f.required 1 "ty" Ty.decode }

def Local.encode (l : Local) : Json := .obj [("name", .str l.name), ("ty", l.ty.encode)]

namespace Constant

/-- Constant of a kind with its content, which only the null constant may lack. -/
def ofKind (kind : String) (content : Option Json) : Decoded Constant :=
  match kind, content with
  | "int", some j => (signed 32 j).map int
  | "long", some j => (signed 64 j).map long
  | "float", some j => (real .single j).map float
  | "double", some j => (real .double j).map double
  | "string", some j => (str j).map string
  | "class", some j => (str j).map classLiteral
  | "null", none | "null", some .null => .ok null
  | _, _ => .error .form

def kinds : List String := ["int", "long", "float", "double", "null", "string", "class"]

/-- Reads a constant, given how its kind is read in an object and in an array. -/
def decodeWith (member? item? : Json → Decoded String) : Json → Decoded Constant
  | .obj members => do
    let f ← member members ["kind", "value"]
    ofKind (← f.required 0 "kind" member?) (f.get? 1 "value")
  | .arr [kind, content] => do ofKind (← item? kind) (some content)
  | _ => .error .form

/-- A constant on its own. -/
def decode : Json → Decoded Constant := decodeWith (name isNull) str

/-- A constant in an instruction. -/
def decodePart : Json → Decoded Constant := decodeWith (name isVoid) (kindIn kinds)

def tag (kind : String) (content : Json) : Json := .obj [("kind", .str kind), ("value", content)]

def encode : Constant → Json
  | int n => tag "int" (.int n)
  | long n => tag "long" (.int n)
  | float bits => tag "float" (.float (Precision.single.convert .double bits))
  | double bits => tag "double" (.float bits)
  | null => .obj [("kind", .str "null")]
  | string s => tag "string" (.str s)
  | classLiteral s => tag "class" (.str s)

end Constant

namespace Operand

def decode : Json → Decoded Operand
  | .obj [("local", j)] => (Local.decode j).map loc
  | .obj [("constant", j)] => (Constant.decodePart j).map const
  | _ => .error .form

def encode : Operand → Json
  | loc l => .obj [("local", l.encode)]
  | const c => .obj [("constant", c.encode)]

end Operand

/-- An operator on its own. -/
def Operator.decode : Json → Decoded Operator := named isNull Operator.all Operator.name

/-- An operator in an instruction. -/
def Operator.decodePart : Json → Decoded Operator := named isVoid Operator.all Operator.name

def Operator.encode (op : Operator) : Json := .str op.name

namespace InvokeKind

def all : List InvokeKind := [virtual, special, interface, static, dynamic]

def name : InvokeKind → String
  | virtual => "virtual"
  | special => "special"
  | interface => "interface"
  | static => "static"
  | dynamic => "dynamic"

def decode : Json → Decoded InvokeKind := named isVoid all name

end InvokeKind

def Invoke.decode (j : Json) : Decoded Invoke := do
  let f ← fields ["kind", "method", "base", "args"] j
  return {
    kind := ← f.required 0 "kind" InvokeKind.decode
    method := ← f.required 1 "method" Method.decode
    base := ← f.optional 2 "base" (nullable Local.decode) none
    args := ← f.optional 3 "args" (list Operand.decode) [] }

def Invoke.encode (i : Invoke) : Json :=
  .obj [("kind", .str i.kind.name), ("method", i.method.encode),
    ("base", .ofOption Local.encode i.base), ("args", .ofList Operand.encode i.args)]

namespace Rvalue

def kinds : List String :=
  ["use", "binary", "neg", "cast", "instance_of", "new", "new_array", "length", "instance_field",
    "static_field", "array_element", "invoke"]

def decode (j : Json) : Decoded Rvalue := do
  let (kind, j) ← tagged "kind" (kindIn kinds) j
  match kind with
  | "use" => do
    let f ← fields ["value"] j
    return use (← f.required 0 "value" Operand.decode)
  | "binary" => do
    let f ← fields ["op", "lhs", "rhs", "ty"] j
    return binary (← f.required 0 "op" Operator.decodePart) (← f.required 1 "lhs" Operand.decode)
      (← f.required 2 "rhs" Operand.decode) (← f.required 3 "ty" Ty.decode)
  | "neg" => do
    let f ← fields ["value"] j
    return neg (← f.required 0 "value" Operand.decode)
  | "cast" => do
    let f ← fields ["value", "to"] j
    return cast (← f.required 0 "value" Operand.decode) (← f.required 1 "to" Ty.decode)
  | "instance_of" => do
    let f ← fields ["value", "check"] j
    return instanceOf (← f.required 0 "value" Operand.decode) (← f.required 1 "check" Ty.decode)
  | "new" => do
    let f ← fields ["ty"] j
    return new (← f.required 0 "ty" Ty.decode)
  | "new_array" => do
    let f ← fields ["element", "size"] j
    return newArray (← f.required 0 "element" Ty.decode) (← f.required 1 "size" Operand.decode)
  | "length" => do
    let f ← fields ["array"] j
    return length (← f.required 0 "array" Operand.decode)
  | "instance_field" => do
    let f ← fields ["base", "field"] j
    return instanceField (← f.required 0 "base" Local.decode) (← f.required 1 "field" Field.decode)
  | "static_field" => do
    let f ← fields ["field"] j
    return staticField (← f.required 0 "field" Field.decode)
  | "array_element" => do
    let f ← fields ["base", "index", "ty"] j
    return arrayElement (← f.required 0 "base" Local.decode) (← f.required 1 "index" Operand.decode)
      (← f.required 2 "ty" Ty.decode)
  | "invoke" => do
    let f ← fields ["invoke"] j
    return invoke (← f.required 0 "invoke" Invoke.decode)
  | _ => .error .form

def tag (kind : String) (members : List (String × Json)) : Json := .obj (("kind", .str kind) :: members)

def encode : Rvalue → Json
  | use v => tag "use" [("value", v.encode)]
  | binary op lhs rhs ty =>
    tag "binary" [("op", op.encode), ("lhs", lhs.encode), ("rhs", rhs.encode), ("ty", ty.encode)]
  | neg v => tag "neg" [("value", v.encode)]
  | cast v ty => tag "cast" [("value", v.encode), ("to", ty.encode)]
  | instanceOf v ty => tag "instance_of" [("value", v.encode), ("check", ty.encode)]
  | new ty => tag "new" [("ty", ty.encode)]
  | newArray element size => tag "new_array" [("element", element.encode), ("size", size.encode)]
  | length array => tag "length" [("array", array.encode)]
  | instanceField base field => tag "instance_field" [("base", base.encode), ("field", field.encode)]
  | staticField field => tag "static_field" [("field", field.encode)]
  | arrayElement base index ty =>
    tag "array_element" [("base", base.encode), ("index", index.encode), ("ty", ty.encode)]
  | invoke call => tag "invoke" [("invoke", call.encode)]

end Rvalue

namespace Place

def kinds : List String := ["local", "instance_field", "static_field", "array_element"]

def decode (j : Json) : Decoded Place := do
  let (kind, j) ← tagged "kind" (kindIn kinds) j
  match kind with
  | "local" => do
    let f ← fields ["local"] j
    return loc (← f.required 0 "local" Local.decode)
  | "instance_field" => do
    let f ← fields ["base", "field"] j
    return instanceField (← f.required 0 "base" Local.decode) (← f.required 1 "field" Field.decode)
  | "static_field" => do
    let f ← fields ["field"] j
    return staticField (← f.required 0 "field" Field.decode)
  | "array_element" => do
    let f ← fields ["base", "index"] j
    return arrayElement (← f.required 0 "base" Local.decode) (← f.required 1 "index" Operand.decode)
  | _ => .error .form

def encode : Place → Json
  | loc l => Rvalue.tag "local" [("local", l.encode)]
  | instanceField base field =>
    Rvalue.tag "instance_field" [("base", base.encode), ("field", field.encode)]
  | staticField field => Rvalue.tag "static_field" [("field", field.encode)]
  | arrayElement base index =>
    Rvalue.tag "array_element" [("base", base.encode), ("index", index.encode)]

end Place

namespace IdentitySource

def decode : Json → Decoded IdentitySource
  | .obj [("parameter", j)] => (unsigned 64 j).map parameter
  | j => do
    match ← name isVoid j with
    | "this" => return this
    | "caught_exception" => return caughtException
    | _ => .error .form

def encode : IdentitySource → Json
  | this => .str "this"
  | parameter n => .obj [("parameter", .ofNat n)]
  | caughtException => .str "caught_exception"

end IdentitySource

def InstrId.decode : Json → Decoded InstrId := unsigned 32

def InstrId.encode (i : InstrId) : Json := .ofNat i

namespace SwitchTable

def kinds : List String := ["table", "lookup"]

def decode (j : Json) : Decoded SwitchTable := do
  let (kind, j) ← tagged "kind" (kindIn kinds) j
  match kind with
  | "table" => do
    let f ← fields ["low", "high", "targets"] j
    return table (← f.required 0 "low" (signed 32)) (← f.required 1 "high" (signed 32))
      (← f.required 2 "targets" (list InstrId.decode))
  | "lookup" => do
    let f ← fields ["values", "targets"] j
    return lookup (← f.required 0 "values" (list (signed 32)))
      (← f.required 1 "targets" (list InstrId.decode))
  | _ => .error .form

def encode : SwitchTable → Json
  | table low high targets =>
    Rvalue.tag "table" [("low", .int low), ("high", .int high),
      ("targets", .ofList InstrId.encode targets)]
  | lookup values targets =>
    Rvalue.tag "lookup" [("values", .ofList .int values), ("targets", .ofList InstrId.encode targets)]

end SwitchTable

namespace Instruction

def decode (j : Json) : Decoded Instruction := do
  let (kind, j) ← tagged "op" str j
  match kind with
  | "assign" => do
    let f ← fields ["place", "value"] j
    return assign (← f.required 0 "place" Place.decode) (← f.required 1 "value" Rvalue.decode)
  | "identity" => do
    let f ← fields ["local", "source"] j
    return identity (← f.required 0 "local" Local.decode)
      (← f.required 1 "source" IdentitySource.decode)
  | "if" => do
    let f ← fields ["condition", "target"] j
    return branch (← f.required 0 "condition" Rvalue.decode) (← f.required 1 "target" InstrId.decode)
  | "switch" => do
    let f ← fields ["key", "table", "default"] j
    return switch (← f.required 0 "key" Operand.decode) (← f.required 1 "table" SwitchTable.decode)
      (← f.required 2 "default" InstrId.decode)
  | "invoke" => do
    let f ← fields ["invoke"] j
    return invoke (← f.required 0 "invoke" Invoke.decode)
  | "return" => do
    let f ← fields ["value"] j
    return ret (← f.required 0 "value" Operand.decode)
  | "return_void" => bare j retVoid
  | "throw" => do
    let f ← fields ["value"] j
    return throw (← f.required 0 "value" Operand.decode)
  | "goto" => do
    let f ← fields ["target"] j
    return goto (← f.required 0 "target" InstrId.decode)
  | "nop" => bare j nop
  | "monitor" => do
    let f ← fields ["enter", "value"] j
    return monitor (← f.required 0 "enter" flag) (← f.required 1 "value" Operand.decode)
  | _ => .error .form

def tag (kind : String) (members : List (String × Json)) : Json := .obj (("op", .str kind) :: members)

def encode : Instruction → Json
  | assign place value => tag "assign" [("place", place.encode), ("value", value.encode)]
  | identity target source => tag "identity" [("local", target.encode), ("source", source.encode)]
  | branch condition target =>
    tag "if" [("condition", condition.encode), ("target", InstrId.encode target)]
  | switch key table default =>
    tag "switch" [("key", key.encode), ("table", table.encode), ("default", InstrId.encode default)]
  | invoke call => tag "invoke" [("invoke", call.encode)]
  | ret value => tag "return" [("value", value.encode)]
  | retVoid => tag "return_void" []
  | throw value => tag "throw" [("value", value.encode)]
  | goto target => tag "goto" [("target", InstrId.encode target)]
  | nop => tag "nop" []
  | monitor enter value => tag "monitor" [("enter", .bool enter), ("value", value.encode)]

end Instruction

namespace Body

/-- Depth left for an instruction below a program, its bodies, a body and its instructions. -/
def instructionDepth : Nat := Json.greatestDepth - 4

/-- A body without successor lists gets those that follow from its instructions. -/
def decode (j : Json) : Decoded Body := do
  let f ← fields ["method", "locals", "instructions", "successors"] j
  let method ← f.required 0 "method" Method.decode
  let locals ← f.optional 1 "locals" (list Local.decode) []
  let instructions ← f.required 2 "instructions" (list (kept instructionDepth Instruction.decode))
  let successors ← f.optional 3 "successors" (nullable (list (list InstrId.decode))) none
  let body := match successors with
    | some successors => ofSuccessors method locals instructions successors
    | none => ofInstructions method locals instructions
  match body with
  | .ok b => return b
  | .error e => .error (.body e)

def encode (b : Body) : Json :=
  .obj [("method", b.method.encode), ("locals", .ofList Local.encode b.locals),
    ("instructions", .ofList Instruction.encode b.instructions),
    ("successors", .ofList (.ofList InstrId.encode) b.successors)]

end Body

def Program.decode (j : Json) : Decoded Program := do
  let f ← fields ["methods", "library_classes"] j
  return .ofBodies (← f.optional 0 "methods" (list Body.decode) [])
    (← f.optional 1 "library_classes" (list str) [])

end SinkReach
