import SinkReach.Program.Type

/-!
Three-address instructions. Operands are locals or constants; compound expressions stand only on the
right of an assignment and as branch conditions.
-/
namespace SinkReach

/-- Position of an instruction in its body. -/
abbrev InstrId := Nat

def InstrId.text (i : InstrId) : String := "#" ++ toString i

structure Local where
  name : String
  ty : Ty
deriving DecidableEq, Repr, Inhabited

/-- Literals; floating-point ones are held by their bit patterns. -/
inductive Constant where
  | int (value : Int)
  | long (value : Int)
  | float (bits : Nat)
  | double (bits : Nat)
  | null
  | string (value : String)
  | classLiteral (name : String)
deriving DecidableEq, Repr, Inhabited

def Constant.ty : Constant → Ty
  | int _ => .int
  | long _ => .long
  | float _ => .float
  | double _ => .double
  | null => .null
  | string _ => .ref "java.lang.String"
  | classLiteral _ => .ref "java.lang.Class"

inductive Operand where
  | loc (value : Local)
  | const (value : Constant)
deriving DecidableEq, Repr, Inhabited

/-- Binary operators; the last three are three-way comparisons, of longs and of floats with NaN taken
as less or as greater. -/
inductive Operator where
  | add
  | sub
  | mul
  | div
  | rem
  | and
  | or
  | xor
  | shl
  | shr
  | ushr
  | eq
  | ne
  | lt
  | le
  | gt
  | ge
  | cmp
  | cmpl
  | cmpg
deriving DecidableEq, Repr, Inhabited

namespace Operator

def all : List Operator :=
  [add, sub, mul, div, rem, and, or, xor, shl, shr, ushr, eq, ne, lt, le, gt, ge, cmp, cmpl, cmpg]

/-- Name in documents. -/
def name : Operator → String
  | add => "add"
  | sub => "sub"
  | mul => "mul"
  | div => "div"
  | rem => "rem"
  | and => "and"
  | or => "or"
  | xor => "xor"
  | shl => "shl"
  | shr => "shr"
  | ushr => "ushr"
  | eq => "eq"
  | ne => "ne"
  | lt => "lt"
  | le => "le"
  | gt => "gt"
  | ge => "ge"
  | cmp => "cmp"
  | cmpl => "cmpl"
  | cmpg => "cmpg"

/-- Name in messages, with a capital. -/
def title (op : Operator) : String :=
  match op.name.toList with
  | [] => ""
  | c :: cs => String.ofList (c.toUpper :: cs)

end Operator

inductive InvokeKind where
  | virtual
  | special
  | interface
  | static
  | dynamic
deriving DecidableEq, Repr, Inhabited

/-- Whether the receiver is passed before the arguments. -/
def InvokeKind.hasReceiver : InvokeKind → Bool
  | virtual | special | interface => true
  | static | dynamic => false

structure Invoke where
  kind : InvokeKind
  method : Method
  base : Option Local
  args : List Operand
deriving DecidableEq, Repr, Inhabited

/-- Right-hand sides of assignments. -/
inductive Rvalue where
  | use (value : Operand)
  | binary (op : Operator) (lhs rhs : Operand) (ty : Ty)
  | neg (value : Operand)
  | cast (value : Operand) (target : Ty)
  | instanceOf (value : Operand) (check : Ty)
  | new (ty : Ty)
  | newArray (element : Ty) (size : Operand)
  | length (array : Operand)
  | instanceField (base : Local) (field : Field)
  | staticField (field : Field)
  | arrayElement (base : Local) (index : Operand) (ty : Ty)
  | invoke (call : Invoke)
deriving DecidableEq, Repr, Inhabited

/-- Assignable locations. -/
inductive Place where
  | loc (value : Local)
  | instanceField (base : Local) (field : Field)
  | staticField (field : Field)
  | arrayElement (base : Local) (index : Operand)
deriving DecidableEq, Repr, Inhabited

/-- What an identity instruction binds. -/
inductive IdentitySource where
  | this
  | parameter (index : Nat)
  | caughtException
deriving DecidableEq, Repr, Inhabited

/-- Cases of a switch: dense ones from `low`, or one target for each value. -/
inductive SwitchTable where
  | table (low high : Int) (targets : List InstrId)
  | lookup (values : List Int) (targets : List InstrId)
deriving DecidableEq, Repr, Inhabited

def SwitchTable.targets : SwitchTable → List InstrId
  | table _ _ targets | lookup _ targets => targets

inductive Instruction where
  | assign (place : Place) (value : Rvalue)
  | identity (target : Local) (source : IdentitySource)
  | branch (condition : Rvalue) (target : InstrId)
  | switch (key : Operand) (table : SwitchTable) (default : InstrId)
  | invoke (call : Invoke)
  | ret (value : Operand)
  | retVoid
  | throw (value : Operand)
  | goto (target : InstrId)
  | nop
  | monitor (enter : Bool) (value : Operand)
deriving DecidableEq, Repr, Inhabited

namespace Instruction

/-- Whether control never falls through to the next instruction. -/
def isTerminator : Instruction → Bool
  | ret _ | retVoid | throw _ | goto _ | switch _ _ _ => true
  | _ => false

/-- The call that the instruction performs. -/
def call? : Instruction → Option Invoke
  | invoke call => some call
  | assign _ (.invoke call) => some call
  | _ => none

end Instruction
end SinkReach
