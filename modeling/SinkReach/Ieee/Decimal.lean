import SinkReach.Ieee.Arithmetic

/-!
Decimal texts of floating-point data. The digits are the fewest that read back as the same datum,
and of those the nearest to it; whether they are written positionally is the writer's choice.
-/
namespace SinkReach

/-- The number `digits * 10 ^ exponent`. -/
structure Decimal where
  digits : Nat
  exponent : Int
deriving DecidableEq, Repr

namespace Decimal

/-- The reals that round to a positive datum: `value`, `lower` and `upper` over one denominator, the
ends belonging to the interval if `closed`. -/
structure Interval where
  value : Nat
  lower : Nat
  upper : Nat
  denominator : Nat
  closed : Bool

/-- Interval of a positive finite magnitude pattern, its ends halfway to the neighbours. -/
def Interval.ofMagnitude (p : Precision) (magnitude : Nat) : Interval :=
  let m := p.units magnitude
  { value := 2 * m
    lower := m + p.units (magnitude - 1)
    upper := m + p.units (magnitude + 1)
    denominator := 2 * Nat.pow 2 p.unitExponent
    closed := magnitude % 2 = 0 }

/-- `10 ^ e` as a quotient. -/
def power (e : Int) : Nat × Nat := if e < 0 then (1, Nat.pow 10 e.natAbs) else (Nat.pow 10 e.natAbs, 1)

/-- Whether `digits * 10 ^ exponent` lies in the interval. -/
def Interval.contains (i : Interval) (digits : Nat) (exponent : Int) : Bool :=
  let (n, d) := power exponent
  let x := digits * n * i.denominator
  if i.closed then i.lower * d ≤ x && x ≤ i.upper * d else i.lower * d < x && x < i.upper * d

/-- The nearer of the two multiples of `10 ^ exponent` around the value that lie in the interval; of
two equally near ones the greater. -/
def Interval.nearest? (i : Interval) (exponent : Int) : Option Decimal :=
  let (n, d) := power exponent
  let num := i.value * d
  let den := i.denominator * n
  let q := num / den
  let r := num % den
  match i.contains q exponent, i.contains (q + 1) exponent with
  | true, true => some (if 2 * r < den then ⟨q, exponent⟩ else ⟨q + 1, exponent⟩)
  | true, false => some ⟨q, exponent⟩
  | false, true => some ⟨q + 1, exponent⟩
  | false, false => none

/-- Tries ever finer decimal grids. -/
def Interval.shortestFrom (i : Interval) : Nat → Int → Decimal
  | 0, exponent => ⟨0, exponent⟩
  | grids + 1, exponent =>
    match i.nearest? exponent with
    | some d => d
    | none => i.shortestFrom grids (exponent - 1)

/-- Fewest digits that read back, for a positive finite magnitude pattern: at most 17 are needed, and
the first grid tried is coarser than the number itself. -/
def shortest (p : Precision) (magnitude : Nat) : Decimal :=
  let i := Interval.ofMagnitude p magnitude
  let scale : Int := (i.value.log2 : Int) - i.denominator.log2
  i.shortestFrom 24 ((scale + 1) * 30103 / 100000 + 1)

/-- Removes trailing zeros, at most as many as `fuel`. -/
def normalizeFrom : Nat → Decimal → Decimal
  | 0, d => d
  | fuel + 1, d =>
    if d.digits ≠ 0 ∧ d.digits % 10 = 0 then normalizeFrom fuel ⟨d.digits / 10, d.exponent + 1⟩ else d

def normalize (d : Decimal) : Decimal := normalizeFrom 400 d

def zeros (n : Nat) : String := String.ofList (List.replicate n '0')

/-- Positional text, without a point if the number is an integer. -/
def positional (d : Decimal) : String :=
  let d := d.normalize
  let s := toString d.digits
  if 0 ≤ d.exponent then s ++ zeros d.exponent.natAbs
  else
    let places := d.exponent.natAbs
    let s := zeros (places + 1 - s.length) ++ s
    let cut := s.length - places
    String.ofList (s.toList.take cut) ++ "." ++ String.ofList (s.toList.drop cut)

/-- Positional text with a fractional part from `10 ^ -5` up to `10 ^ 16`, otherwise one digit before
the point and an exponent. -/
def scientific (d : Decimal) : String :=
  let d := d.normalize
  let s := toString d.digits
  let top : Int := d.exponent + s.length
  if 0 ≤ d.exponent ∧ top ≤ 16 then d.positional ++ ".0"
  else if -5 < top ∧ top ≤ 16 then d.positional
  else
    let rest := String.ofList (s.toList.drop 1)
    String.ofList (s.toList.take 1) ++ (if rest.isEmpty then "" else "." ++ rest) ++
      "e" ++ toString (top - 1)

end Decimal

namespace Precision

/-- Text of a datum, its finite part written by `write`. -/
def textWith (p : Precision) (write : Decimal → String) (bits : Nat) : String :=
  if p.isNaN bits then "NaN"
  else
    let sign := if p.isNegative bits then "-" else ""
    if p.isInfinite bits then sign ++ "inf"
    else if p.magnitude bits = 0 then sign ++ write ⟨0, 0⟩
    else sign ++ write (Decimal.shortest p (p.magnitude bits))

/-- Shortest text without an exponent. -/
def text (p : Precision) (bits : Nat) : String := p.textWith Decimal.positional bits

end Precision
end SinkReach
