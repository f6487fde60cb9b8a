import SinkReach.Proofs.Ieee.Range

/-!
Widening a float is exact. A magnitude is rounded to itself, every number of few enough significant bits
is the value of some magnitude, and so a single that is converted to double and back is the same single,
a NaN staying a NaN.
-/
namespace SinkReach

theorem roundHalfEven_mul (q : Nat) {d : Nat} (pos : 0 < d) : roundHalfEven (q * d) d = q := by
  simp only [roundHalfEven, Nat.mul_div_cancel q pos, Nat.mul_mod_left, Nat.mul_zero, if_pos pos]

namespace Precision

variable {p : Precision} {m : Nat}

theorem significand_eq : p.format.significand = p.fraction + 1 := by cases p <;> rfl

theorem infinity_eq : p.infinity = (2 ^ p.format.exponent - 1) * 2 ^ p.fraction := rfl

theorem units_subnormal (h : m < 2 ^ p.fraction) : p.units m = m := by
  simp only [units, Nat.pow_eq, Nat.div_eq_of_lt h, if_true, Nat.mod_eq_of_lt h]

theorem units_normal {e r : Nat} (h : r < 2 ^ p.fraction) :
    p.units ((e + 1) * 2 ^ p.fraction + r) = (2 ^ p.fraction + r) * 2 ^ e := by
  have pos := Nat.two_pow_pos p.fraction
  have exponent : ((e + 1) * 2 ^ p.fraction + r) / 2 ^ p.fraction = e + 1 := by
    rw [Nat.mul_comm, Nat.mul_add_div pos, Nat.div_eq_of_lt h, Nat.add_zero]
  have rest : ((e + 1) * 2 ^ p.fraction + r) % 2 ^ p.fraction = r := by
    rw [Nat.mul_comm, Nat.mul_add_mod, Nat.mod_eq_of_lt h]
  simp only [units, Nat.pow_eq, exponent, rest, Nat.succ_ne_zero, if_false, Nat.add_sub_cancel]

/-- A magnitude is below the least normal one, or has an exponent and a fraction. -/
theorem magnitude_cases (p : Precision) (m : Nat) :
    m < 2 ^ p.fraction ∨ ∃ e r, m = (e + 1) * 2 ^ p.fraction + r ∧ r < 2 ^ p.fraction := by
  have pos := Nat.two_pow_pos p.fraction
  have split := Nat.div_add_mod' m (2 ^ p.fraction)
  have small := Nat.mod_lt m pos
  generalize m / 2 ^ p.fraction = e at split
  generalize m % 2 ^ p.fraction = r at split small
  cases e with
  | zero => exact .inl (by omega)
  | succ e => exact .inr ⟨e, r, split.symm, small⟩

theorem log2_normal {f e r : Nat} (h : r < 2 ^ f) : ((2 ^ f + r) * 2 ^ e).log2 = f + e := by
  have pos : 0 < 2 ^ e := Nat.two_pow_pos e
  have low : 2 ^ f * 2 ^ e ≤ (2 ^ f + r) * 2 ^ e := Nat.mul_le_mul_right _ (Nat.le_add_right ..)
  have high : (2 ^ f + r) * 2 ^ e < 2 ^ (f + 1) * 2 ^ e := by
    refine Nat.mul_lt_mul_of_pos_right ?_ pos
    rw [Nat.pow_succ]
    omega
  rw [← Nat.pow_add] at low high
  refine (Nat.log2_eq_iff (Nat.ne_of_gt (Nat.lt_of_lt_of_le (Nat.two_pow_pos _) low))).2 ⟨low, ?_⟩
  rwa [Nat.add_right_comm] at high

theorem log2_lt_of_lt {n k : Nat} (h : n < 2 ^ k) : n.log2 + 1 - (k + 1) = 0 := by
  by_cases zero : n = 0
  · subst zero
    simp
  · have := (Nat.log2_lt zero).2 h
    omega

/-- Rounding the value of a finite magnitude gives that magnitude, whatever the units are divided into. -/
theorem roundUnits_units {d : Nat} (finite : m < p.infinity) (pos : 0 < d) :
    p.roundUnits (p.units m * d) d = m := by
  have exact : ((p.units m).log2 + 1 - (p.fraction + 1)) * 2 ^ p.fraction +
      roundHalfEven (p.units m * d) (d * 2 ^ ((p.units m).log2 + 1 - (p.fraction + 1))) = m := by
    rcases magnitude_cases p m with small | ⟨e, r, rfl, small⟩
    · rw [units_subnormal small, log2_lt_of_lt small, Nat.pow_zero, Nat.mul_one, Nat.zero_mul,
        Nat.zero_add, roundHalfEven_mul m pos]
    · have spacing : p.fraction + e + 1 - (p.fraction + 1) = e := by omega
      have regroup : (2 ^ p.fraction + r) * 2 ^ e * d = (2 ^ p.fraction + r) * (d * 2 ^ e) := by
        rw [Nat.mul_assoc, Nat.mul_comm (2 ^ e) d]
      rw [units_normal small, log2_normal small, spacing, regroup,
        roundHalfEven_mul _ (Nat.mul_pos pos (Nat.two_pow_pos e)), Nat.succ_mul, Nat.add_assoc]
  simp only [roundUnits, Nat.mul_div_cancel _ pos, significand_eq, Nat.pow_eq]
  rw [exact]
  exact Nat.min_eq_left (Nat.le_of_lt finite)

/-- Every number with no more significant bits than the format keeps is the value of a magnitude. -/
theorem exists_units {c k : Nat} (fits : c < 2 ^ (p.fraction + 1))
    (bound : c.log2 + k + 2 < 2 ^ p.format.exponent) :
    ∃ m, p.units m = c * 2 ^ k ∧ m < p.infinity := by
  have pos := Nat.two_pow_pos p.fraction
  have below {e r : Nat} (small : r < 2 ^ p.fraction) (high : e + 2 < 2 ^ p.format.exponent) :
      (e + 1) * 2 ^ p.fraction + r < p.infinity := by
    have more : (e + 2) * 2 ^ p.fraction ≤ p.infinity := by
      rw [infinity_eq]
      exact Nat.mul_le_mul_right _ (by omega)
    have step : (e + 2) * 2 ^ p.fraction = (e + 1) * 2 ^ p.fraction + 2 ^ p.fraction := Nat.succ_mul ..
    omega
  by_cases zero : c = 0
  · subst zero
    refine ⟨0, by rw [units_subnormal pos, Nat.zero_mul], ?_⟩
    rw [infinity_eq]
    exact Nat.mul_pos (by omega) pos
  · have low := Nat.log2_self_le zero
    have high := Nat.lt_log2_self (n := c)
    have top : c.log2 ≤ p.fraction := Nat.lt_succ_iff.1 ((Nat.log2_lt zero).2 fits)
    by_cases subnormal : c.log2 + k < p.fraction
    · have small : c * 2 ^ k < 2 ^ p.fraction := by
        have less : c * 2 ^ k < 2 ^ (c.log2 + 1) * 2 ^ k :=
          Nat.mul_lt_mul_of_pos_right high (Nat.two_pow_pos k)
        rw [← Nat.pow_add] at less
        exact Nat.lt_of_lt_of_le less (Nat.pow_le_pow_right (by decide) (by omega))
      refine ⟨c * 2 ^ k, units_subnormal small, Nat.lt_of_lt_of_le small ?_⟩
      rw [infinity_eq]
      exact Nat.le_mul_of_pos_left _ (by omega)
    · -- The significand is shifted until its leading bit is the hidden one.
      obtain ⟨s, hs⟩ : ∃ s, p.fraction = c.log2 + s := ⟨p.fraction - c.log2, by omega⟩
      obtain ⟨e, he⟩ : ∃ e, k = s + e := ⟨k - s, by omega⟩
      have shifted : 2 ^ p.fraction ≤ c * 2 ^ s := by
        rw [hs, Nat.pow_add]
        exact Nat.mul_le_mul_right _ low
      have small : c * 2 ^ s - 2 ^ p.fraction < 2 ^ p.fraction := by
        have less : c * 2 ^ s < 2 ^ (c.log2 + 1) * 2 ^ s :=
          Nat.mul_lt_mul_of_pos_right high (Nat.two_pow_pos s)
        rw [← Nat.pow_add, Nat.add_right_comm, ← hs, Nat.pow_succ] at less
        omega
      refine ⟨(e + 1) * 2 ^ p.fraction + (c * 2 ^ s - 2 ^ p.fraction), ?_, below small (by omega)⟩
      rw [units_normal small, Nat.add_sub_cancel' shifted, Nat.mul_assoc, ← Nat.pow_add, ← he]

/-- How many times a single's unit is divided in two to get a double's. -/
theorem unitExponent_gap : double.unitExponent - single.unitExponent = 925 := rfl

/-- Doubles have the value of every finite single. -/
theorem exists_double_units (finite : m < single.infinity) :
    ∃ m', double.units m' = single.units m * 2 ^ (double.unitExponent - single.unitExponent) ∧
      m' < double.infinity := by
  rcases magnitude_cases single m with small | ⟨e, r, rfl, small⟩
  · rw [units_subnormal small]
    refine exists_units (Nat.lt_trans small (by decide)) ?_
    have := log2_lt_of_lt small
    change m.log2 + 1 - (23 + 1) = 0 at this
    rw [unitExponent_gap]
    change _ < 2048
    omega
  · rw [units_normal small, Nat.mul_assoc, ← Nat.pow_add]
    have width : 2 ^ single.fraction + r < 2 ^ (double.fraction + 1) := by
      have : 2 ^ single.fraction + 2 ^ single.fraction < 2 ^ (double.fraction + 1) := by decide
      omega
    have bits : (2 ^ single.fraction + r).log2 = 23 := by
      have := log2_normal (e := 0) small
      rwa [Nat.pow_zero, Nat.mul_one] at this
    have top : e < 254 := by
      have : single.infinity = 255 * 2 ^ single.fraction := rfl
      rw [this] at finite
      have := Nat.lt_of_mul_lt_mul_right (Nat.lt_of_le_of_lt (Nat.le_add_right _ r) finite)
      omega
    refine exists_units width ?_
    rw [bits, unitExponent_gap]
    change _ < 2048
    omega

section
variable {x : Nat} (negative : Bool)

theorem withSign_magnitude (h : x < 2 ^ p.format.width) :
    p.withSign (p.isNegative x) (p.magnitude x) = x := by
  rw [← signBit_add_signBit] at h
  simp only [withSign, isNegative, magnitude, decide_eq_true_eq]
  split
  next low =>
    rw [Nat.mod_eq_sub_mod low, Nat.mod_eq_of_lt (by omega)]
    omega
  next high => exact Nat.mod_eq_of_lt (by omega)

theorem isNegative_withSign (h : m < p.signBit) : p.isNegative (p.withSign negative m) = negative := by
  cases negative with
  | false => simpa [withSign, isNegative] using h
  | true => simp [withSign, isNegative]

theorem magnitude_withSign_of_lt (h : m < p.signBit) : p.magnitude (p.withSign negative m) = m := by
  rw [magnitude_withSign, magnitude, Nat.mod_eq_of_lt h]

theorem datum_withSign_finite (h : m < p.infinity) :
    p.datum (p.withSign negative m) = .finite negative (p.units m) := by
  have small := Nat.lt_trans h infinity_lt_signBit
  simp only [datum, isNaN, isInfinite, magnitude_withSign_of_lt negative small,
    isNegative_withSign negative small, decide_eq_true_eq, if_neg (Nat.not_lt_of_gt h),
    if_neg (Nat.ne_of_lt h)]

theorem datum_withSign_infinity : p.datum (p.withSign negative p.infinity) = .infinite negative := by
  simp [datum, isNaN, isInfinite, magnitude_withSign_of_lt negative infinity_lt_signBit,
    isNegative_withSign negative infinity_lt_signBit]

end

theorem convert_of_infinite {q : Precision} {x : Nat} {negative : Bool} (other : p ≠ q)
    (h : p.datum x = .infinite negative) : p.convert q x = q.withSign negative q.infinity := by
  simp only [convert, if_neg other, h]

theorem convert_of_finite {q : Precision} {x n : Nat} {negative : Bool} (other : p ≠ q)
    (h : p.datum x = .finite negative n) : p.convert q x =
      q.withSign negative (q.roundUnits (n * Nat.pow 2 (q.unitExponent - p.unitExponent))
        (Nat.pow 2 (p.unitExponent - q.unitExponent))) := by
  simp only [convert, if_neg other, h]

/-- A finite single is a double, which is rounded back to it. -/
theorem convert_convert_finite (negative : Bool) (finite : m < single.infinity) :
    double.convert single (single.convert double (single.withSign negative m)) =
      single.withSign negative m := by
  obtain ⟨m', value, finite'⟩ := exists_double_units finite
  have narrower : single.unitExponent - double.unitExponent = 0 := rfl
  have widened : single.convert double (single.withSign negative m) = double.withSign negative m' := by
    rw [convert_of_finite (by decide) (datum_withSign_finite negative finite), Nat.pow_eq, Nat.pow_eq,
      ← value, narrower, Nat.pow_zero, ← Nat.mul_one (double.units m'),
      roundUnits_units finite' Nat.one_pos]
  rw [widened, convert_of_finite (by decide) (datum_withSign_finite negative finite'), Nat.pow_eq,
    Nat.pow_eq, value, narrower, Nat.pow_zero, Nat.mul_one, roundUnits_units finite (Nat.two_pow_pos _)]

/-- A single that is converted to double and back is the same, up to which NaN it is. -/
theorem convert_convert {x : Nat} (h : x < 2 ^ single.format.width) :
    single.Alike (double.convert single (single.convert double x)) x := by
  by_cases nan : single.isNaN x = true
  · exact .inr ⟨isNaN_convert (isNaN_convert nan), nan⟩
  · left
    rw [isNaN_iff] at nan
    rw [← withSign_magnitude h]
    rcases Nat.lt_or_eq_of_le (Nat.le_of_not_lt nan) with finite | infinite
    · exact convert_convert_finite _ finite
    · rw [infinite, convert_of_infinite (by decide) (datum_withSign_infinity _),
        convert_of_infinite (by decide) (datum_withSign_infinity _)]

end Precision
end SinkReach
