import SinkReach.Program.Body

/-!
Bodies that keep to the types: no calls, operators with primitive results that ask of two references
only whether they are the same, new objects of class and array types, and one type for each field.
-/
namespace SinkReach

/-- Operators that ask of two references only whether they are the same. -/
def Operator.isEquality : Operator → Bool
  | eq | ne => true
  | _ => false

def Operand.ty : Operand → Ty
  | loc l => l.ty
  | const c => c.ty

/-- Types of objects. -/
def Ty.isObject : Ty → Bool
  | ref _ | array _ => true
  | _ => false

namespace Rvalue

/-- Fields that the expression reads. -/
def fields : Rvalue → List Field
  | instanceField _ f | staticField f => [f]
  | _ => []

/-- Operators have primitive results. -/
def hasPrimitiveResults : Rvalue → Bool
  | binary _ _ _ ty => ty.isPrimitive
  | _ => true

/-- Operators on two references compare them for equality. -/
def comparesReferences : Rvalue → Bool
  | binary op a b _ => !(a.ty.isReference && b.ty.isReference) || op.isEquality
  | _ => true

/-- New objects are of class or array types. -/
def makesObjects : Rvalue → Bool
  | new ty => ty.isObject
  | _ => true

end Rvalue

/-- Fields that the place stands for. -/
def Place.fields : Place → List Field
  | instanceField _ f | staticField f => [f]
  | _ => []

namespace Instruction

/-- The expression that the instruction evaluates. -/
def rvalue? : Instruction → Option Rvalue
  | assign _ value => some value
  | branch condition _ => some condition
  | _ => none

/-- Fields that the instruction reads or writes. -/
def fields : Instruction → List Field
  | assign place value => place.fields ++ value.fields
  | branch condition _ => condition.fields
  | _ => []

end Instruction

namespace Body

/-- Expressions of the body. -/
def rvalues (b : Body) : List Rvalue := b.instructions.filterMap Instruction.rvalue?

def fields (b : Body) : List Field := b.instructions.flatMap Instruction.fields

/-- No instruction calls a method. -/
def callFree (b : Body) : Bool := b.instructions.all fun i => i.call?.isNone

/-- Fields of one class and name have one type. -/
def fieldsAgree (b : Body) : Bool :=
  b.fields.all fun f => b.fields.all fun g =>
    !(f.className == g.className && f.name == g.name) || f.ty == g.ty

end Body
end SinkReach
