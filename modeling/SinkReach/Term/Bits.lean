/-!
Bit vectors as natural numbers. A vector keeps at most 64 bits, so an operation at a greater width
works on its lowest 64.
-/
namespace SinkReach.Bits

/-- Number of bits that are kept at a width. -/
def kept (width : Nat) : Nat := min width 64

/-- Number of vectors of a width, in one machine word as long as it fits. -/
def modulus (width : Nat) : Nat :=
  if width < 64 then ((1 : UInt64) <<< width.toUInt64).toNat else 18446744073709551616

theorem modulus_eq (width : Nat) : modulus width = Nat.pow 2 (kept width) := by
  unfold modulus kept
  split
  next h =>
    have less : Nat.pow 2 width < Nat.pow 2 64 := Nat.pow_lt_pow_right (by decide) h
    have amount : width.toUInt64.toNat % 64 = width := by
      rw [Nat.toUInt64_eq, UInt64.toNat_ofNat_of_lt' (Nat.lt_trans h (by decide)), Nat.mod_eq_of_lt h]
    rw [UInt64.toNat_shiftLeft, UInt64.toNat_one, amount, Nat.one_shiftLeft,
      Nat.min_eq_left (Nat.le_of_lt h)]
    exact Nat.mod_eq_of_lt less
  next h => rw [Nat.min_eq_right (Nat.le_of_not_lt h)]

/-- The kept bits of a number. -/
def mask (n width : Nat) : Nat := n % modulus width

/-- Two's-complement reading. -/
def toInt (bits width : Nat) : Int :=
  let size := modulus width
  let m := bits % size
  if 2 * m < size then m else (m : Int) - size

/-- Two's-complement pattern of an integer. -/
def ofInt (n : Int) (width : Nat) : Nat := (n % (modulus width : Int)).toNat

inductive UnaryOp where
  | neg
  | not
deriving DecidableEq, Repr

inductive BinaryOp where
  | add
  | sub
  | mul
  | sdiv
  | srem
  | and
  | or
  | xor
  | shl
  | lshr
  | ashr
deriving DecidableEq, Repr

/-- Signed comparisons. -/
inductive CompareOp where
  | slt
  | sle
  | sgt
  | sge
deriving DecidableEq, Repr

def UnaryOp.apply (op : UnaryOp) (x width : Nat) : Nat :=
  match op with
  | neg => ofInt (-(x : Int)) width
  | not => ofInt (-(x : Int) - 1) width

/-- Quotient of two integers, rounded toward zero; division by zero gives minus one, or one for a
negative dividend. -/
def divide (x y : Int) : Int := if y = 0 then if 0 ≤ x then -1 else 1 else x.tdiv y

/-- The remainder by zero is the dividend; a shift by the width or more leaves nothing but copies of
the sign. -/
def BinaryOp.apply (op : BinaryOp) (x y width : Nat) : Nat :=
  match op with
  | add => mask (x + y) width
  | sub => ofInt ((x : Int) - y) width
  | mul => mask (x * y) width
  | sdiv => ofInt (divide (toInt x width) (toInt y width)) width
  | srem => if mask y width = 0 then mask x width else ofInt ((toInt x width).tmod (toInt y width)) width
  | and => mask (x &&& y) width
  | or => mask (x ||| y) width
  | xor => mask (x ^^^ y) width
  | shl => if width ≤ y then 0 else mask (x <<< y) width
  | lshr => if width ≤ y then 0 else mask (x >>> y) width
  | ashr => ofInt (if width ≤ y then if toInt x width < 0 then -1 else 0 else toInt x width >>> y) width

def CompareOp.holds (op : CompareOp) (x y : Int) : Bool :=
  match op with
  | slt => x < y
  | sle => x ≤ y
  | sgt => y < x
  | sge => y ≤ x

end SinkReach.Bits
