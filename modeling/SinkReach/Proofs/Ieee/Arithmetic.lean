import Mathlib.Algebra.Group.Nat.Defs
import SinkReach.Term.Eval

/-!
Floating-point operations do not tell NaNs apart: on operands that are equal or both NaN, results are
equal or both NaN. Every result is a pattern of its format.
-/
namespace SinkReach.Precision

variable (p q : Precision)

/-- Patterns that are equal or both NaN. -/
def Alike (x y : Nat) : Prop := x = y ∨ (p.isNaN x = true ∧ p.isNaN y = true)

variable {p q}

theorem Alike.refl (x : Nat) : p.Alike x x := .inl rfl

theorem Alike.isNaN {x y : Nat} (h : p.Alike x y) : p.isNaN x = p.isNaN y := by
  rcases h with rfl | ⟨hx, hy⟩
  · rfl
  · rw [hx, hy]

theorem Alike.eq_of_not_nan {x y : Nat} (h : p.Alike x y) (hx : p.isNaN x = false) : x = y :=
  h.resolve_right fun nan => by simp [hx] at nan

theorem signBit_eq : p.signBit = 2 ^ (p.format.width - 1) := rfl

theorem isNaN_iff {x : Nat} : p.isNaN x = true ↔ p.infinity < p.magnitude x := by
  simp [isNaN]

theorem quietBit_lt_signBit : p.quietBit < p.signBit := by cases p <;> decide

theorem magnitude_quiet (x : Nat) : p.magnitude (p.quiet x) = p.magnitude x ||| p.quietBit := by
  rw [magnitude, quiet, signBit_eq, Nat.or_mod_two_pow, ← signBit_eq,
    Nat.mod_eq_of_lt quietBit_lt_signBit]
  rfl

theorem isNaN_quiet {x : Nat} (h : p.isNaN x = true) : p.isNaN (p.quiet x) = true := by
  rw [isNaN_iff] at h ⊢
  rw [magnitude_quiet]
  exact Nat.lt_of_lt_of_le h Nat.left_le_or

theorem magnitude_neg (x : Nat) : p.magnitude (p.neg x) = p.magnitude x := by
  simp only [neg, isNegative, magnitude, decide_eq_true_eq]
  split
  next h => exact (Nat.mod_eq_sub_mod h).symm
  next => exact Nat.add_mod_right ..

theorem isNaN_neg (x : Nat) : p.isNaN (p.neg x) = p.isNaN x := by
  simp only [isNaN, magnitude_neg]

theorem magnitude_withSign (negative : Bool) (m : Nat) :
    p.magnitude (p.withSign negative m) = p.magnitude m := by
  cases negative with
  | false => rfl
  | true => exact Nat.add_mod_left ..

theorem Alike.neg {x y : Nat} (h : p.Alike x y) : p.Alike (p.neg x) (p.neg y) := by
  rcases h with rfl | ⟨hx, hy⟩
  · exact .refl _
  · exact .inr ⟨(isNaN_neg x).trans hx, (isNaN_neg y).trans hy⟩

theorem infinity_lt_or_quietBit (m : Nat) (h : p.infinity ≤ m) : p.infinity < m ||| p.quietBit := by
  rcases Nat.lt_or_eq_of_le h with h | rfl
  · exact Nat.lt_of_lt_of_le h Nat.left_le_or
  · cases p <;> decide

theorem datum_of_isNaN {x : Nat} (h : p.isNaN x = true) : p.datum x = .nan := by simp [datum, h]

/-- What a NaN's fraction becomes in another format. -/
def carriedFraction (p q : Precision) (x : Nat) : Nat :=
  p.magnitude x % Nat.pow 2 p.fraction * Nat.pow 2 (q.fraction - p.fraction) /
    Nat.pow 2 (p.fraction - q.fraction)

theorem carriedFraction_lt (x : Nat) : p.carriedFraction q x < Nat.pow 2 q.fraction := by
  have bound : p.magnitude x % Nat.pow 2 p.fraction < Nat.pow 2 p.fraction :=
    Nat.mod_lt _ (Nat.pow_pos (by decide))
  unfold carriedFraction
  cases p <;> cases q <;>
    simp only [fraction, format, FloatFormat.single, FloatFormat.double, Nat.pow_eq] at bound ⊢ <;>
    omega

theorem convert_of_isNaN {x : Nat} (h : p.isNaN x = true) (other : p ≠ q) :
    p.convert q x = q.quiet (q.withSign (p.isNegative x) (q.infinity + p.carriedFraction q x)) := by
  simp only [convert, other, if_false, datum_of_isNaN h]
  rfl

theorem infinity_add_lt_signBit {f : Nat} (h : f < Nat.pow 2 p.fraction) : p.infinity + f < p.signBit := by
  cases p <;> simp only [fraction, format, FloatFormat.single, FloatFormat.double, Nat.pow_eq,
    infinity, signBit, FloatFormat.width] at h ⊢ <;> omega

theorem isNaN_convert {x : Nat} (h : p.isNaN x = true) : q.isNaN (p.convert q x) = true := by
  by_cases same : p = q
  · subst same
    simpa [convert] using h
  · have small := infinity_add_lt_signBit (carriedFraction_lt (p := p) (q := q) x)
    rw [convert_of_isNaN h same, isNaN_iff, magnitude_quiet, magnitude_withSign, magnitude,
      Nat.mod_eq_of_lt small]
    exact infinity_lt_or_quietBit _ (Nat.le_add_right ..)

theorem Alike.convert {x y : Nat} (h : p.Alike x y) : q.Alike (p.convert q x) (p.convert q y) := by
  rcases h with rfl | ⟨hx, hy⟩
  · exact .refl _
  · exact .inr ⟨isNaN_convert hx, isNaN_convert hy⟩

theorem Alike.propagate {x x' y y' : Nat} (hx : p.Alike x x') (hy : p.Alike y y')
    (result : FloatDatum → FloatDatum → Nat) :
    p.Alike (p.propagate x y result) (p.propagate x' y' result) := by
  simp only [Precision.propagate, ← hx.isNaN, ← hy.isNaN]
  split
  next nan => exact .inr ⟨isNaN_quiet nan, isNaN_quiet (hx.isNaN ▸ nan)⟩
  next number =>
    split
    next nan => exact .inr ⟨isNaN_quiet nan, isNaN_quiet (hy.isNaN ▸ nan)⟩
    next number' =>
      rw [hx.eq_of_not_nan (by simpa using number), hy.eq_of_not_nan (by simpa using number')]
      exact .refl _

section
variable {x x' y y' : Nat} (hx : p.Alike x x') (hy : p.Alike y y')
include hx hy

theorem Alike.add : p.Alike (p.add x y) (p.add x' y') := hx.propagate hy p.addData

theorem Alike.sub : p.Alike (p.sub x y) (p.sub x' y') := by
  unfold Precision.sub
  exact hx.propagate hy _

theorem Alike.mul : p.Alike (p.mul x y) (p.mul x' y') := by
  unfold Precision.mul
  exact hx.propagate hy _

theorem Alike.div : p.Alike (p.div x y) (p.div x' y') := by
  unfold Precision.div
  exact hx.propagate hy _

end

theorem Alike.remainder {x x' y y' : Nat} (hx : p.Alike x x') (hy : p.Alike y y')
    (narrow : Nat → Nat) : p.Alike (p.remainder narrow x y) (p.remainder narrow x' y') := by
  by_cases nan : p.isNaN x = true ∨ p.isNaN y = true
  · have nan' : p.isNaN x' = true ∨ p.isNaN y' = true := by rwa [← hx.isNaN, ← hy.isNaN]
    refine .inl ?_
    rcases nan with h | h <;> rcases nan' with h' | h' <;> simp [Precision.remainder, h, h']
  · simp only [not_or, Bool.not_eq_true] at nan
    rw [hx.eq_of_not_nan nan.1, hy.eq_of_not_nan nan.2]
    exact .refl _

end SinkReach.Precision

namespace SinkReach

open Precision

theorem FloatOp.apply_alike (op : FloatOp) {p : Precision} {x x' y y' : Nat} (hx : p.Alike x x')
    (hy : p.Alike y y') : p.Alike (op.apply p x y) (op.apply p x' y') := by
  cases p with
  | double =>
    cases op with
    | add => exact hx.add hy
    | sub => exact hx.sub hy
    | mul => exact hx.mul hy
    | div => exact hx.div hy
    | rem => exact hx.remainder hy _
  | single =>
    have hx' := hx.convert (q := .double)
    have hy' := hy.convert (q := .double)
    cases op with
    | add => exact (hx'.add hy').convert
    | sub => exact (hx'.sub hy').convert
    | mul => exact (hx'.mul hy').convert
    | div => exact (hx'.div hy').convert
    | rem => exact (hx'.remainder hy' _).convert

theorem FloatCompareOp.holds_alike (op : FloatCompareOp) {p : Precision} {x x' y y' : Nat}
    (hx : p.Alike x x') (hy : p.Alike y y') : op.holds p x y = op.holds p x' y' := by
  by_cases nan : p.isNaN x = true ∨ p.isNaN y = true
  · have nan' : p.isNaN x' = true ∨ p.isNaN y' = true := by rwa [← hx.isNaN, ← hy.isNaN]
    cases op <;> rcases nan with h | h <;> rcases nan' with h' | h' <;>
      simp [holds, Precision.lt, Precision.le, Precision.eq, h, h']
  · simp only [not_or, Bool.not_eq_true] at nan
    rw [hx.eq_of_not_nan nan.1, hy.eq_of_not_nan nan.2]

theorem Precision.toInt64_alike {p : Precision} {x y : Nat} (h : p.Alike x y) :
    p.toInt64 x = p.toInt64 y := by
  rcases h with rfl | ⟨hx, hy⟩
  · rfl
  · simp only [toInt64, datum_of_isNaN hx, datum_of_isNaN hy]

end SinkReach
