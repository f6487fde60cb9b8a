import SinkReach.Fault

/-!
Conversions between sorts and casts between primitive types. Widening extends by the sign, or by zeros
from `char`; narrowing keeps the low bits; a float becomes an integer by truncation, clamped to the
range of `long` or `int`, NaN becoming zero. The labels of a result's nodes start at the label given:
a conversion uses at most 16 of them, a cast or an alignment at most 32.
-/
namespace SinkReach.Term

/-- Changes the width of a bit vector. -/
def resize (l : Label) (a : Term) (source target : Nat) (signed : Bool) : Term :=
  if target = source then a
  else if source < target then
    if signed then signExtend l (target - source) a else zeroExtend l (target - source) a
  else extract l (target - 1) 0 a

/-- The bound `±2 ^ (width - 1)` as a double, exact in every format. -/
def bound (negative : Bool) (width : Nat) : Nat :=
  Precision.double.ofInt (if negative then -(Nat.pow 2 (width - 1) : Int) else Nat.pow 2 (width - 1))

/-- Truncation of a float to a signed integer, clamped to the range of the width. -/
def clampToInt (l : Label) (a : Term) (format : FloatFormat) (width : Nat) : Term :=
  let overflow := ite l (fpCompare (l + 1) .ge a (ofDouble (l + 2) (bound false width) format))
    (ofInt (l + 3) ((Nat.pow 2 (width - 1) : Int) - 1) width) (fpToSbv (l + 4) width a)
  let underflow := ite (l + 5) (fpCompare (l + 6) .lt a (ofDouble (l + 7) (bound true width) format))
    (ofInt (l + 8) (-(Nat.pow 2 (width - 1) : Int)) width) overflow
  ite (l + 9) (fpIsNaN (l + 10) a) (ofInt (l + 11) 0 width) underflow

/-- Integer of a float: `long` at once, narrower types by way of `int`. -/
def floatToBits (l : Label) (a : Term) (format : FloatFormat) (width : Nat) : Term :=
  if width = 64 then clampToInt l a format 64
  else resize (l + 12) (clampToInt l a format 32) 32 width true

/-- Whether a bit vector is not zero. -/
def nonzero (l : Label) (a : Term) (width : Nat) : Term := not l (eq (l + 1) a (ofInt (l + 2) 0 width))

def boolToBits (l : Label) (a : Term) (width : Nat) : Term :=
  ite l a (ofInt (l + 1) 1 width) (ofInt (l + 2) 0 width)

/-- Converts a term to a sort. -/
def convert (l : Label) (a : Term) (target : TermSort) : Except Fault Term :=
  if a.sort = target then .ok a
  else match a.sort, target with
    | .float _, .float f => .ok (fpToFp l f a)
    | .bitVec _, .float f => .ok (bvToFp l f a)
    | .float f, .bitVec w => .ok (floatToBits l a f w)
    | .bitVec w, .bool => .ok (nonzero l a w)
    | .bool, .bitVec w => .ok (boolToBits l a w)
    | .bool, .float f => .ok (bvToFp (l + 3) f (boolToBits l a 32))
    | .float f, .bool => .ok (nonzero (l + 13) (floatToBits l a f 32) 32)
    | .bitVec v, .bitVec w => .ok (resize l a v w true)
    | s, t => .error (.noConversion s t)

/-- Casts a term of a primitive type to another one. -/
def cast (l : Label) (a : Term) (source target : Ty) : Except Fault Term :=
  if source = target then .ok a
  else match source, a.sort, target.sort with
    | .char, .bitVec w, .bitVec v =>
      if v ≤ w then convert l a (.bitVec v) else convert l (resize (l + 16) a w 32 false) (.bitVec v)
    | .char, .bitVec w, s => convert l (resize (l + 16) a w 32 false) s
    | _, _, s => convert l a s

/-- Floats rank above booleans, booleans above bit vectors, wider ones above narrower. -/
def sortRank : TermSort → Except Fault Nat
  | .float f => .ok (30000000 + f.width)
  | .bool => .ok 20000000
  | .bitVec w => .ok (10000000 + w)
  | s@(.array _ _) => .error (.arrayOperand s)

/-- The higher ranked of two sorts, the first if they rank alike. -/
def higherSort (s t : TermSort) : Except Fault TermSort := do
  return if (← sortRank s) < (← sortRank t) then t else s

/-- Brings two operands to a common sort, no narrower than an `int`. -/
def align (l : Label) (a b : Term) : Except Fault (Term × Term) := do
  let target ← higherSort (← higherSort (.bitVec 32) a.sort) b.sort
  return (← convert l a target, ← convert (l + 16) b target)

/-- Conditional of two terms of one sort. -/
def conditional (l : Label) (c a b : Term) : Except Fault Term :=
  if a.sort ≠ b.sort then .error (.branchSorts a.sort b.sort)
  else if c.sort ≠ .bool then .error (.conditionSort c.sort)
  else .ok (ite l c a b)

end SinkReach.Term
