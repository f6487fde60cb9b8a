import SinkReach.Json.Basic
import SinkReach.Ieee.Arithmetic

/-!
Reading JSON numbers. A number without fraction and exponent is an integer if it fits 64 bits, signed or
unsigned; any other number is a double, its digits and its power of ten rounded one after the other.
-/
namespace SinkReach.Json

def natOfDigits (ds : List Char) : Nat := ds.foldl (fun n d => n * 10 + (d.toNat - 48)) 0

/-- Longest start of the digits whose value fits 64 bits: the value and the digits left over. -/
def significand (n : Nat) : List Char → Nat × List Char
  | [] => (n, [])
  | d :: ds =>
    let m := n * 10 + (d.toNat - 48)
    if m < 0x10000000000000000 then significand m ds else (n, d :: ds)

def pow10 (k : Nat) : Nat := Precision.double.ofInt (Nat.pow 10 k)

/-- Divides by `10 ^ k`, by steps of at most `10 ^ 308`. -/
def scaleDown : Nat → Nat → Nat → Nat
  | 0, x, _ => x
  | fuel + 1, x, k =>
    if k ≤ 308 then Precision.double.div x (pow10 k)
    else if x = 0 then 0
    else scaleDown fuel (Precision.double.div x (pow10 308)) (k - 308)

/-- Double of `n * 10 ^ e`; none if it is beyond the greatest finite one. -/
def scaled? (n : Nat) (e : Int) : Option Nat :=
  let x := Precision.double.ofInt n
  if e < 0 then some (scaleDown 8 x e.natAbs)
  else if n = 0 then some 0
  else if 308 < e then none
  else
    let y := Precision.double.mul x (pow10 e.natAbs)
    if Precision.double.isInfinite y then none else some y

/-- Fraction digits after a point, if there is one. -/
def fraction? : List Char → Option (Option (List Char) × List Char)
  | '.' :: rest =>
    let ds := rest.takeWhile Char.isDigit
    if ds.isEmpty then none else some (some ds, rest.dropWhile Char.isDigit)
  | rest => some (none, rest)

/-- Exponent after its mark, if there is one. -/
def exponent? : List Char → Option (Option Int × List Char)
  | c :: rest =>
    if c = 'e' ∨ c = 'E' then
      let (negative, rest) := match rest with
        | '-' :: r => (true, r)
        | '+' :: r => (false, r)
        | r => (false, r)
      let ds := rest.takeWhile Char.isDigit
      if ds.isEmpty then none
      else
        let n : Int := natOfDigits ds
        some (some (if negative then -n else n), rest.dropWhile Char.isDigit)
    else some (none, c :: rest)
  | [] => some (none, [])

/-- Double of the digits before and after the point, scaled by a power of ten. Digits before the point
that do not fit only count; digits after it are taken in as long as they fit. -/
def ofDigits (negative : Bool) (whole fraction : List Char) (exponent : Int) : Json :=
  let (n, uncounted) := significand 0 whole
  let (n, dropped) := significand n fraction
  match scaled? n (exponent + uncounted.length + dropped.length - fraction.length) with
  | some x => float (Precision.double.withSign negative x)
  | none => unreadable

/-- Number without fraction and exponent. -/
def ofInteger (negative : Bool) (ds : List Char) : Json :=
  let n := natOfDigits ds
  if negative then
    if 0 < n ∧ n ≤ 0x8000000000000000 then int (-n) else ofDigits true ds [] 0
  else if n < 0x10000000000000000 then int n
  else ofDigits false ds [] 0

/-- A number, and what follows it. -/
def number? (cs : List Char) : Option (Json × List Char) := do
  let (negative, cs) := match cs with
    | '-' :: r => (true, r)
    | r => (false, r)
  let ds := cs.takeWhile Char.isDigit
  if ds.isEmpty || (ds.length > 1 && ds.head? == some '0') then none
  let (frac, rest) ← fraction? (cs.dropWhile Char.isDigit)
  let (exp, rest) ← exponent? rest
  match frac, exp with
  | none, none => return (ofInteger negative ds, rest)
  | _, _ => return (ofDigits negative ds (frac.getD []) (exp.getD 0), rest)

end SinkReach.Json
