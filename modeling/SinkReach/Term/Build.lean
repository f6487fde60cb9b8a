import SinkReach.Term.Eval

/-!
Constructors of terms. Each takes the label of the node it may make, simplifies the obvious cases, and
computes an operation on literals at once; where it returns an operand, it returns that very node.
Operands are assumed to be well sorted.
-/
namespace SinkReach

/-- Literal of a value that is not an array. -/
def Value.toLiteral? (l : Label) : Value → Option Term
  | bool b => some (.leaf l (.bool b))
  | bitVec bits width => some (.leaf l (.bitVec (Bits.mask bits width) width))
  | float p bits => some (.leaf l (.float (Bits.mask bits p.format.width) p.format))
  | array _ => none

namespace Term

def ofBool (l : Label) (b : Bool) : Term := leaf l (.bool b)

def ofBits (l : Label) (bits width : Nat) : Term := leaf l (.bitVec (Bits.mask bits width) width)

/-- Bit-vector literal of an integer, truncated to the width. -/
def ofInt (l : Label) (n : Int) (width : Nat) : Term := leaf l (.bitVec (Bits.ofInt n width) width)

def ofFloatBits (l : Label) (bits : Nat) (format : FloatFormat) : Term :=
  leaf l (.float (Bits.mask bits format.width) format)

/-- Float literal nearest to a double; a format without values takes over the double's bits. -/
def ofDouble (l : Label) (bits : Nat) (format : FloatFormat) : Term :=
  if format = .single then ofFloatBits l (Precision.double.convert .single bits) .single
  else ofFloatBits l bits format

def var (l : Label) (name : String) (sort : TermSort) : Term := leaf l (.var name sort)

/-- Replaces an operation on literals by the literal of its value, if it has one. -/
def fold (t : Term) : Term :=
  if !t.children.all isLiteral || t.sort.isArray then t
  else match t.eval {} with
    | .ok v => (v.toLiteral? t.label).getD t
    | .error _ => t

def not (l : Label) : Term → Term
  | unary _ .not a => a
  | a => fold (unary l .not a)

/-- The items that are not literally neutral; none if one of them is literally absorbing. -/
def essential? (op : Junction) : List Term → Option (List Term)
  | [] => some []
  | t :: ts =>
    match t.bool? with
    | some b => if b = op.absorbing then none else essential? op ts
    | none => (essential? op ts).map (t :: ·)

/-- Junction of the items; the neutral literal if none is essential, and a single essential item is
itself the result. -/
def join (l : Label) (op : Junction) (items : List Term) : Term :=
  match essential? op items with
  | none => ofBool l op.absorbing
  | some [] => ofBool l !op.absorbing
  | some [t] => t
  | some ts => junction l op ts

def andAll (l : Label) (items : List Term) : Term := join l .and items

def orAll (l : Label) (items : List Term) : Term := join l .or items

def and (l : Label) (a b : Term) : Term := andAll l [a, b]

def or (l : Label) (a b : Term) : Term := orAll l [a, b]

def xor (l : Label) (a b : Term) : Term := fold (binary l .xor a b)

def eq (l : Label) (a b : Term) : Term :=
  if a.same b then ofBool l true else fold (binary l .eq a b)

def ite (l : Label) (c a b : Term) : Term :=
  match c.bool? with
  | some true => a
  | some false => b
  | none =>
    if a.same b then a
    else match a.bool?, b.bool? with
      | some true, some false => c
      | some false, some true => not l c
      | _, _ => ternary l .ite c a b

def bits1 (l : Label) (op : Bits.UnaryOp) (a : Term) : Term := fold (unary l (.bits op) a)

def bits2 (l : Label) (op : Bits.BinaryOp) (a b : Term) : Term := fold (binary l (.bits op) a b)

def compare (l : Label) (op : Bits.CompareOp) (a b : Term) : Term := fold (binary l (.compare op) a b)

def signExtend (l : Label) (extra : Nat) (a : Term) : Term :=
  if extra = 0 then a else fold (unary l (.signExtend extra) a)

def zeroExtend (l : Label) (extra : Nat) (a : Term) : Term :=
  if extra = 0 then a else fold (unary l (.zeroExtend extra) a)

/-- Bits `low` to `high`. -/
def extract (l : Label) (high low : Nat) (a : Term) : Term :=
  if low = 0 ∧ a.sort.width? = some (high + 1) then a else fold (unary l (.extract high low) a)

def fpNeg (l : Label) (a : Term) : Term := fold (unary l .fpNeg a)

def fp (l : Label) (op : FloatOp) (a b : Term) : Term := fold (binary l (.fp op) a b)

def fpCompare (l : Label) (op : FloatCompareOp) (a b : Term) : Term :=
  fold (binary l (.fpCompare op) a b)

def fpIsNaN (l : Label) (a : Term) : Term := fold (unary l .fpIsNaN a)

def fpToFp (l : Label) (format : FloatFormat) (a : Term) : Term :=
  if a.sort = .float format then a else fold (unary l (.fpToFp format) a)

/-- Signed bit vector to float, rounded to nearest. -/
def bvToFp (l : Label) (format : FloatFormat) (a : Term) : Term := fold (unary l (.bvToFp format) a)

/-- Float to signed bit vector, rounded toward zero. -/
def fpToSbv (l : Label) (width : Nat) (a : Term) : Term := fold (unary l (.fpToSbv width) a)

def select (l : Label) (array index : Term) : Term := binary l .select array index

def store (l : Label) (array index element : Term) : Term := ternary l .store array index element

end Term
end SinkReach
