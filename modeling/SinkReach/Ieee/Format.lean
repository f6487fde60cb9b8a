/-!
Binary floating-point formats and their data. Every finite datum of a format is an integer multiple
of the format's smallest positive number, its *unit*, so exact values are natural numbers of units
and one function rounds an exact quotient back to a bit pattern.
-/
namespace SinkReach

/-- Width of the exponent field and of the significand, hidden bit included. -/
structure FloatFormat where
  exponent : Nat
  significand : Nat
deriving DecidableEq, Repr, Inhabited

/-- The two formats whose data can be computed with. -/
inductive Precision where
  | single
  | double
deriving DecidableEq, Repr, Inhabited

/-- Value of a bit pattern; a finite one is a signed number of units. -/
inductive FloatDatum where
  | nan
  | infinite (negative : Bool)
  | finite (negative : Bool) (units : Nat)
deriving DecidableEq, Repr

namespace FloatFormat

def single : FloatFormat := ⟨8, 24⟩

def double : FloatFormat := ⟨11, 53⟩

/-- Number of bits of a datum. -/
def width (f : FloatFormat) : Nat := f.exponent + f.significand

/-- The precision of a format that can be computed with. -/
def precision? (f : FloatFormat) : Option Precision :=
  if f = single then some .single else if f = double then some .double else none

end FloatFormat

/-- Nearest integer to `num / den`, a half going to the even neighbour. -/
def roundHalfEven (num den : Nat) : Nat :=
  let q := num / den
  let r := num % den
  if 2 * r < den then q else if den < 2 * r then q + 1 else q + q % 2

namespace Precision

def format : Precision → FloatFormat
  | single => .single
  | double => .double

/-- Bits of the significand that are stored. -/
def fraction (p : Precision) : Nat := p.format.significand - 1

def signBit (p : Precision) : Nat := Nat.pow 2 (p.format.width - 1)

/-- Magnitude pattern of infinity; greater magnitudes are NaN. -/
def infinity (p : Precision) : Nat := (Nat.pow 2 p.format.exponent - 1) * Nat.pow 2 p.fraction

/-- The fraction bit that marks a quiet NaN. -/
def quietBit (p : Precision) : Nat := Nat.pow 2 (p.fraction - 1)

def positiveNaN (p : Precision) : Nat := p.infinity + p.quietBit

/-- The NaN that an invalid operation yields. -/
def invalid (p : Precision) : Nat := p.signBit + p.infinity + p.quietBit

/-- One is this power of two of units. -/
def unitExponent (p : Precision) : Nat :=
  Nat.pow 2 (p.format.exponent - 1) + p.format.significand - 3

def isNegative (p : Precision) (bits : Nat) : Bool := p.signBit ≤ bits

def magnitude (p : Precision) (bits : Nat) : Nat := bits % p.signBit

def isNaN (p : Precision) (bits : Nat) : Bool := p.infinity < p.magnitude bits

def isInfinite (p : Precision) (bits : Nat) : Bool := p.magnitude bits = p.infinity

/-- Units of a finite magnitude pattern. -/
def units (p : Precision) (magnitude : Nat) : Nat :=
  let e := magnitude / Nat.pow 2 p.fraction
  let m := magnitude % Nat.pow 2 p.fraction
  if e = 0 then m else (Nat.pow 2 p.fraction + m) * Nat.pow 2 (e - 1)

def datum (p : Precision) (bits : Nat) : FloatDatum :=
  if p.isNaN bits then .nan
  else if p.isInfinite bits then .infinite (p.isNegative bits)
  else .finite (p.isNegative bits) (p.units (p.magnitude bits))

/-- Pattern nearest to `num / den` units: the spacing of the result's binade is a power of two, and
the rounded multiple of it, added to the binade's own pattern, carries over by itself. -/
def roundUnits (p : Precision) (num den : Nat) : Nat :=
  let spacing := (num / den).log2 + 1 - p.format.significand
  min (spacing * Nat.pow 2 p.fraction + roundHalfEven num (den * Nat.pow 2 spacing)) p.infinity

def withSign (p : Precision) (negative : Bool) (magnitude : Nat) : Nat :=
  if negative then p.signBit + magnitude else magnitude

def quiet (p : Precision) (bits : Nat) : Nat := bits ||| p.quietBit

/-- Pattern of an integer, rounded to nearest. -/
def ofInt (p : Precision) (n : Int) : Nat :=
  p.withSign (decide (n < 0)) (p.roundUnits (n.natAbs * Nat.pow 2 p.unitExponent) 1)

/-- Position on the number line of a datum that is not NaN; both zeros stand at the origin. -/
def position (p : Precision) (bits : Nat) : Int :=
  if p.isNegative bits then -(p.magnitude bits : Int) else p.magnitude bits

end Precision
end SinkReach
