import SinkReach.Ieee.Format

/-!
Arithmetic on bit patterns: every operation is exact on units and rounds once, to nearest with ties
to even. A NaN operand is the result, made quiet, the first one before the second.
-/
namespace SinkReach.Precision

variable (p : Precision)

def neg (x : Nat) : Nat := if p.isNegative x then x - p.signBit else x + p.signBit

/-- A NaN operand wins, otherwise `result` decides. -/
def propagate (x y : Nat) (result : FloatDatum → FloatDatum → Nat) : Nat :=
  if p.isNaN x then p.quiet x else if p.isNaN y then p.quiet y else result (p.datum x) (p.datum y)

/-- Sum of two signed numbers of units; a zero sum is negative only if both terms are. -/
def sumUnits (a : Bool) (m : Nat) (b : Bool) (n : Nat) : Nat :=
  let s : Int := (if a then -(m : Int) else m) + (if b then -(n : Int) else n)
  if s = 0 then p.withSign (a && b) 0 else p.withSign (decide (s < 0)) (p.roundUnits s.natAbs 1)

def addData : FloatDatum → FloatDatum → Nat
  | .finite a m, .finite b n => p.sumUnits a m b n
  | .infinite a, .infinite b => if a = b then p.withSign a p.infinity else p.invalid
  | .infinite a, .finite _ _ => p.withSign a p.infinity
  | .finite _ _, .infinite b => p.withSign b p.infinity
  | _, _ => p.invalid

def negData : FloatDatum → FloatDatum
  | .nan => .nan
  | .infinite a => .infinite !a
  | .finite a m => .finite (!a) m

def add (x y : Nat) : Nat := p.propagate x y p.addData

def sub (x y : Nat) : Nat := p.propagate x y fun a b => p.addData a (negData b)

def mul (x y : Nat) : Nat := p.propagate x y fun
  | .finite a m, .finite b n => p.withSign (a != b) (p.roundUnits (m * n) (Nat.pow 2 p.unitExponent))
  | .infinite a, .infinite b => p.withSign (a != b) p.infinity
  | .infinite a, .finite b n => if n = 0 then p.invalid else p.withSign (a != b) p.infinity
  | .finite a m, .infinite b => if m = 0 then p.invalid else p.withSign (a != b) p.infinity
  | _, _ => p.invalid

def div (x y : Nat) : Nat := p.propagate x y fun
  | .finite a m, .finite b n =>
    if n = 0 then if m = 0 then p.invalid else p.withSign (a != b) p.infinity
    else p.withSign (a != b) (p.roundUnits (m * Nat.pow 2 p.unitExponent) n)
  | .infinite a, .finite b _ => p.withSign (a != b) p.infinity
  | .finite a _, .infinite b => p.withSign (a != b) 0
  | _, _ => p.invalid

/-- Nearest integral datum, ties to even. -/
def roundIntegral (x : Nat) : Nat :=
  match p.datum x with
  | .finite a m =>
    let one := Nat.pow 2 p.unitExponent
    p.withSign a (p.roundUnits (roundHalfEven m one * one) 1)
  | _ => x

/-- Conversion between precisions keeps as much of a NaN's fraction as fits. -/
def convert (q : Precision) (x : Nat) : Nat :=
  if p = q then x else
  match p.datum x with
  | .nan =>
    let fraction := p.magnitude x % Nat.pow 2 p.fraction
    let wider := fraction * Nat.pow 2 (q.fraction - p.fraction)
    q.quiet (q.withSign (p.isNegative x) (q.infinity + wider / Nat.pow 2 (p.fraction - q.fraction)))
  | .infinite a => q.withSign a q.infinity
  | .finite a m =>
    q.withSign a (q.roundUnits (m * Nat.pow 2 (q.unitExponent - p.unitExponent))
      (Nat.pow 2 (p.unitExponent - q.unitExponent)))

/-- Integer part, clamped to the signed 64-bit range; NaN is zero. -/
def toInt64 (x : Nat) : Int :=
  let lo : Int := -0x8000000000000000
  let hi : Int := 0x7fffffffffffffff
  match p.datum x with
  | .nan => 0
  | .infinite a => if a then lo else hi
  | .finite a m =>
    let n : Int := m / Nat.pow 2 p.unitExponent
    if a then max lo (-n) else min hi n

def lt (x y : Nat) : Bool := !p.isNaN x && !p.isNaN y && p.position x < p.position y

def le (x y : Nat) : Bool := !p.isNaN x && !p.isNaN y && p.position x ≤ p.position y

def eq (x y : Nat) : Bool := !p.isNaN x && !p.isNaN y && p.position x = p.position y

/-- `x - y * n` with `n` the integer nearest to the quotient after `narrow` has rounded it; a zero
keeps the sign of `x`. -/
def remainder (narrow : Nat → Nat) (x y : Nat) : Nat :=
  if p.isNaN x || p.isNaN y || p.isInfinite x || p.magnitude y = 0 then p.positiveNaN
  else if p.isInfinite y then x
  else
    let r := p.sub x (p.mul y (p.roundIntegral (narrow (p.div x y))))
    if p.magnitude r = 0 then p.withSign (p.isNegative x) 0 else r

end SinkReach.Precision
