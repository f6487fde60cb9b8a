import SinkReach.Proofs.Ieee.Arithmetic

/-!
Results of floating-point operations are bit patterns of their format.
-/
namespace SinkReach.Precision

variable {p q : Precision} {x y : Nat}

theorem infinity_lt_signBit : p.infinity < p.signBit := by cases p <;> decide

theorem signBit_add_signBit : p.signBit + p.signBit = 2 ^ p.format.width := by cases p <;> rfl

theorem quietBit_lt : p.quietBit < 2 ^ p.format.width := by cases p <;> decide

theorem withSign_lt (negative : Bool) {m : Nat} (h : m < p.signBit) :
    p.withSign negative m < 2 ^ p.format.width := by
  rw [← signBit_add_signBit]
  cases negative with
  | false => exact Nat.lt_add_right _ h
  | true => exact Nat.add_lt_add_left h _

theorem withSign_roundUnits_lt (negative : Bool) (num den : Nat) :
    p.withSign negative (p.roundUnits num den) < 2 ^ p.format.width :=
  withSign_lt negative (Nat.lt_of_le_of_lt (Nat.min_le_right ..) infinity_lt_signBit)

theorem withSign_infinity_lt (negative : Bool) :
    p.withSign negative p.infinity < 2 ^ p.format.width := withSign_lt negative infinity_lt_signBit

theorem withSign_zero_lt (negative : Bool) : p.withSign negative 0 < 2 ^ p.format.width :=
  withSign_lt negative (Nat.zero_lt_of_lt infinity_lt_signBit)

theorem invalid_lt : p.invalid < 2 ^ p.format.width := by cases p <;> decide

theorem positiveNaN_lt : p.positiveNaN < 2 ^ p.format.width := by cases p <;> decide

theorem quiet_lt (h : x < 2 ^ p.format.width) : p.quiet x < 2 ^ p.format.width :=
  Nat.or_lt_two_pow h quietBit_lt

theorem neg_lt (h : x < 2 ^ p.format.width) : p.neg x < 2 ^ p.format.width := by
  simp only [neg, isNegative, decide_eq_true_eq]
  rw [← signBit_add_signBit] at h ⊢
  split <;> omega

theorem ofInt_lt (n : Int) : p.ofInt n < 2 ^ p.format.width := withSign_roundUnits_lt ..

theorem propagate_lt (hx : x < 2 ^ p.format.width) (hy : y < 2 ^ p.format.width)
    {result : FloatDatum → FloatDatum → Nat} (h : ∀ a b, result a b < 2 ^ p.format.width) :
    p.propagate x y result < 2 ^ p.format.width := by
  unfold propagate
  split
  · exact quiet_lt hx
  · split
    · exact quiet_lt hy
    · exact h _ _

theorem sumUnits_lt (a : Bool) (m : Nat) (b : Bool) (n : Nat) :
    p.sumUnits a m b n < 2 ^ p.format.width := by
  unfold sumUnits
  generalize (if a then -(m : Int) else m) + (if b then -(n : Int) else n) = s
  dsimp only
  split
  · exact withSign_zero_lt _
  · exact withSign_roundUnits_lt ..

theorem addData_lt (a b : FloatDatum) : p.addData a b < 2 ^ p.format.width := by
  unfold addData
  split
  · exact sumUnits_lt ..
  · split
    · exact withSign_infinity_lt _
    · exact invalid_lt
  · exact withSign_infinity_lt _
  · exact withSign_infinity_lt _
  · exact invalid_lt

section
variable (hx : x < 2 ^ p.format.width) (hy : y < 2 ^ p.format.width)
include hx hy

theorem add_lt : p.add x y < 2 ^ p.format.width := propagate_lt hx hy addData_lt

theorem sub_lt : p.sub x y < 2 ^ p.format.width := by
  unfold sub
  exact propagate_lt hx hy fun a b => addData_lt a (negData b)

theorem mul_lt : p.mul x y < 2 ^ p.format.width := by
  unfold mul
  refine propagate_lt hx hy fun a b => ?_
  split
  · exact withSign_roundUnits_lt ..
  · exact withSign_infinity_lt _
  · split
    · exact invalid_lt
    · exact withSign_infinity_lt _
  · split
    · exact invalid_lt
    · exact withSign_infinity_lt _
  · exact invalid_lt

theorem div_lt : p.div x y < 2 ^ p.format.width := by
  unfold div
  refine propagate_lt hx hy fun a b => ?_
  split
  · split
    · split
      · exact invalid_lt
      · exact withSign_infinity_lt _
    · exact withSign_roundUnits_lt ..
  · exact withSign_infinity_lt _
  · exact withSign_zero_lt _
  · exact invalid_lt

end

theorem roundIntegral_lt (h : x < 2 ^ p.format.width) : p.roundIntegral x < 2 ^ p.format.width := by
  unfold roundIntegral
  split
  · exact withSign_roundUnits_lt ..
  · exact h

theorem datum_ne_nan (h : ¬ p.isNaN x = true) : p.datum x ≠ .nan := by
  unfold datum
  rw [if_neg h]
  split <;> simp

theorem convert_lt (h : x < 2 ^ p.format.width) : p.convert q x < 2 ^ q.format.width := by
  by_cases same : p = q
  · subst same
    simpa [convert] using h
  · by_cases nan : p.isNaN x = true
    · rw [convert_of_isNaN nan same]
      exact quiet_lt (withSign_lt _ (infinity_add_lt_signBit (carriedFraction_lt x)))
    · simp only [convert, same, if_false]
      split
      next h' => exact absurd h' (datum_ne_nan nan)
      · exact withSign_infinity_lt _
      · exact withSign_roundUnits_lt ..

theorem remainder_lt {narrow : Nat → Nat}
    (narrow_lt : ∀ z, z < 2 ^ p.format.width → narrow z < 2 ^ p.format.width)
    (hx : x < 2 ^ p.format.width) (hy : y < 2 ^ p.format.width) :
    p.remainder narrow x y < 2 ^ p.format.width := by
  unfold remainder
  split
  · exact positiveNaN_lt
  · split
    · exact hx
    · dsimp only
      split
      · exact withSign_zero_lt _
      · exact sub_lt hx (mul_lt hy (roundIntegral_lt (narrow_lt _ (div_lt hx hy))))

end SinkReach.Precision

namespace SinkReach

open Precision

theorem FloatOp.apply_lt (op : FloatOp) {p : Precision} {x y : Nat} (hx : x < 2 ^ p.format.width)
    (hy : y < 2 ^ p.format.width) : op.apply p x y < 2 ^ p.format.width := by
  have narrow (z : Nat) (hz : z < 2 ^ Precision.double.format.width) :
      p.convert .double (Precision.double.convert p z) < 2 ^ Precision.double.format.width :=
    convert_lt (convert_lt hz)
  cases p with
  | double =>
    cases op with
    | add => exact add_lt hx hy
    | sub => exact sub_lt hx hy
    | mul => exact mul_lt hx hy
    | div => exact div_lt hx hy
    | rem => exact remainder_lt narrow hx hy
  | single =>
    have hx' := convert_lt (q := .double) hx
    have hy' := convert_lt (q := .double) hy
    cases op with
    | add => exact convert_lt (add_lt hx' hy')
    | sub => exact convert_lt (sub_lt hx' hy')
    | mul => exact convert_lt (mul_lt hx' hy')
    | div => exact convert_lt (div_lt hx' hy')
    | rem => exact convert_lt (remainder_lt narrow hx' hy')

end SinkReach
