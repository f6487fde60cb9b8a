import SinkReach.Symbolic.Conversion

/-!
Operators of the program on terms. Operands are brought to a common sort first, which then decides the
family; the distance of a shift is reduced to the operand's width. A result uses at most 48 labels from
the one given.
-/
namespace SinkReach.Operator

open Term (ofInt ite not)

/-- Minus one, zero or one. -/
def threeWay (l : Label) (lessOrEqual equal : Term) : Term :=
  ite l lessOrEqual (ite (l + 1) equal (ofInt (l + 2) 0 32) (ofInt (l + 3) (-1) 32))
    (ofInt (l + 4) 1 32)

/-- Distance of a shift modulo the width. -/
def distance (l : Label) (b : Term) (width : Nat) : Term :=
  Term.bits2 l .and b (ofInt (l + 1) ((width : Int) - 1) width)

def onBits (l : Label) (a b : Term) (width : Nat) : Operator → Term
  | add => Term.bits2 l .add a b
  | sub => Term.bits2 l .sub a b
  | mul => Term.bits2 l .mul a b
  | div => Term.bits2 l .sdiv a b
  | rem => Term.bits2 l .srem a b
  | and => Term.bits2 l .and a b
  | or => Term.bits2 l .or a b
  | xor => Term.bits2 l .xor a b
  | shl => Term.bits2 l .shl a (distance (l + 1) b width)
  | shr => Term.bits2 l .ashr a (distance (l + 1) b width)
  | ushr => Term.bits2 l .lshr a (distance (l + 1) b width)
  | eq => Term.eq l a b
  | ne => not l (Term.eq (l + 1) a b)
  | lt => Term.compare l .slt a b
  | le => Term.compare l .sle a b
  | gt => Term.compare l .sgt a b
  | ge => Term.compare l .sge a b
  | cmp | cmpl | cmpg => threeWay l (Term.compare (l + 5) .sle a b) (Term.eq (l + 6) a b)

/-- Three-way comparison that gives `unordered` if an operand is NaN. -/
def floatThreeWay (l : Label) (a b : Term) (unordered : Option Int) : Term :=
  let ordered := threeWay l (Term.fpCompare (l + 5) .le a b) (Term.fpCompare (l + 6) .eq a b)
  match unordered with
  | none => ordered
  | some n =>
    ite (l + 7) (Term.or (l + 8) (Term.fpIsNaN (l + 9) a) (Term.fpIsNaN (l + 10) b))
      (ofInt (l + 11) n 32) ordered

def onFloats (l : Label) (a b : Term) (op : Operator) : Except Fault Term :=
  match op with
  | add => .ok (Term.fp l .add a b)
  | sub => .ok (Term.fp l .sub a b)
  | mul => .ok (Term.fp l .mul a b)
  | div => .ok (Term.fp l .div a b)
  | rem => .ok (Term.fp l .rem a b)
  | eq => .ok (Term.fpCompare l .eq a b)
  | ne => .ok (not l (Term.fpCompare (l + 1) .eq a b))
  | lt => .ok (Term.fpCompare l .lt a b)
  | le => .ok (Term.fpCompare l .le a b)
  | gt => .ok (Term.fpCompare l .gt a b)
  | ge => .ok (Term.fpCompare l .ge a b)
  | cmp => .ok (floatThreeWay l a b none)
  | cmpl => .ok (floatThreeWay l a b (some (-1)))
  | cmpg => .ok (floatThreeWay l a b (some 1))
  | and | or | xor | shl | shr | ushr => .error (.operatorOnSort op a.sort)

def onBools (l : Label) (a b : Term) (op : Operator) : Except Fault Term :=
  match op with
  | eq => .ok (Term.eq l a b)
  | ne | xor => .ok (Term.xor l a b)
  | and => .ok (Term.and l a b)
  | or => .ok (Term.or l a b)
  | _ => .error (.operatorOnSort op a.sort)

/-- Applies the operator to two operands. -/
def apply (l : Label) (op : Operator) (a b : Term) : Except Fault Term := do
  let (a, b) ← Term.align l a b
  match a.sort with
  | .bitVec width => return onBits (l + 32) a b width op
  | .float _ => onFloats (l + 32) a b op
  | .bool => onBools (l + 32) a b op
  | s => .error (.operatorOnSort op s)

/-- Arithmetic negation, for booleans the logical one. -/
def negate (l : Label) (a : Term) : Except Fault Term :=
  match a.sort with
  | .bitVec _ => .ok (Term.bits1 l .neg a)
  | .float _ => .ok (Term.fpNeg l a)
  | .bool => .ok (not l a)
  | s => .error (.negationOfSort s)

end SinkReach.Operator
