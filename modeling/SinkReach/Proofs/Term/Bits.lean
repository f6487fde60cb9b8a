import Mathlib.Algebra.Group.Nat.Defs
import SinkReach.ModelSearch.Facts

/-!
Two's complement at the widths of one machine word. Reading a pattern as a signed number and taking the
pattern of a signed number are inverse to each other.
-/
namespace SinkReach.Bits

theorem modulus_of_le {w : Nat} (h : w ≤ 64) : modulus w = 2 ^ w := by
  rw [modulus_eq, kept, Nat.min_eq_left h, Nat.pow_eq]

theorem two_pow_pred {w : Nat} (h : 1 ≤ w) : 2 ^ w = 2 * 2 ^ (w - 1) := by
  obtain ⟨n, rfl⟩ : ∃ n, w = n + 1 := ⟨w - 1, by omega⟩
  rw [Nat.pow_succ, Nat.mul_comm, Nat.add_sub_cancel]

theorem mask_of_lt {n w : Nat} (h : w ≤ 64) (lt : n < 2 ^ w) : mask n w = n := by
  rw [mask, modulus_of_le h, Nat.mod_eq_of_lt lt]

theorem mask_lt (n : Nat) {w : Nat} (h : w ≤ 64) : mask n w < 2 ^ w := by
  rw [mask, modulus_of_le h]
  exact Nat.mod_lt _ (Nat.two_pow_pos w)

theorem ofInt_lt (n : Int) {w : Nat} (h : w ≤ 64) : ofInt n w < 2 ^ w := by
  have pos : (0 : Int) < (2 ^ w : Nat) := Int.natCast_pos.2 (Nat.two_pow_pos w)
  rw [ofInt, modulus_of_le h]
  have low := Int.emod_nonneg n (Int.ne_of_gt pos)
  have high := Int.emod_lt_of_pos n pos
  omega

/-- The signed number of a pattern is the pattern up to a multiple of the modulus. -/
theorem toInt_cases {bits w : Nat} (h : w ≤ 64) (lt : bits < 2 ^ w) :
    (2 * bits < 2 ^ w ∧ toInt bits w = bits) ∨
      (2 ^ w ≤ 2 * bits ∧ toInt bits w = (bits : Int) - (2 ^ w : Nat)) := by
  simp only [toInt, modulus_of_le h, Nat.mod_eq_of_lt lt]
  split
  next small => exact .inl ⟨small, rfl⟩
  next large => exact .inr ⟨by omega, rfl⟩

theorem ofInt_toInt {bits w : Nat} (h : w ≤ 64) (lt : bits < 2 ^ w) :
    ofInt (toInt bits w) w = bits := by
  rw [ofInt, modulus_of_le h]
  rcases toInt_cases h lt with ⟨-, eq⟩ | ⟨-, eq⟩
  · rw [eq, Int.emod_eq_of_lt (by omega) (by omega)]
    omega
  · rw [eq, Int.sub_emod_right, Int.emod_eq_of_lt (by omega) (by omega)]
    omega

/-- Signed numbers of a width are in its range. -/
theorem toInt_mem_signedRange {bits w : Nat} (low : 1 ≤ w) (high : w ≤ 64) (lt : bits < 2 ^ w) :
    (ModelSearch.signedRange w).1 ≤ toInt bits w ∧ toInt bits w ≤ (ModelSearch.signedRange w).2 := by
  have half := two_pow_pred low
  have cast : ((Nat.pow 2 (w - 1) : Nat) : Int) = (2 ^ (w - 1) : Nat) := rfl
  simp only [ModelSearch.signedRange, kept, Nat.min_eq_left high]
  rcases toInt_cases high lt with ⟨bound, eq⟩ | ⟨bound, eq⟩ <;> rw [eq] <;> omega

end SinkReach.Bits
