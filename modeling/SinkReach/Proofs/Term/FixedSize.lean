import SinkReach.Proofs.Term.Bits
import SinkReach.Proofs.Term.Denotation

/-!
The theory of fixed-size bit vectors. Up to 64 bits, patterns are computed with as that theory prescribes:
division and remainder by zero, the quotient of the least number by minus one and shifts beyond the width
included. Nodes over terms whose values are bit vectors evaluate to its results.
-/
namespace SinkReach

variable {w : Nat}

namespace Bits

/-- The operations of the theory of fixed-size bit vectors, by their names there. -/
def UnaryOp.onVector (op : UnaryOp) (x : BitVec w) : BitVec w :=
  match op with
  | neg => -x
  | not => ~~~x

/-- A shift distance is read as an unsigned number, whatever the shift. -/
def BinaryOp.onVectors (op : BinaryOp) (x y : BitVec w) : BitVec w :=
  match op with
  | add => x + y
  | sub => x - y
  | mul => x * y
  | sdiv => x.smtSDiv y
  | srem => x.srem y
  | and => x &&& y
  | or => x ||| y
  | xor => x ^^^ y
  | shl => x <<< y
  | lshr => x >>> y
  | ashr => x.sshiftRight' y

def CompareOp.onVectors (op : CompareOp) (x y : BitVec w) : Bool :=
  match op with
  | slt => x.slt y
  | sle => x.sle y
  | sgt => y.slt x
  | sge => y.sle x

section Patterns

variable (fits : w ≤ 64)
include fits

theorem ofInt_eq_toNat (n : Int) : ofInt n w = (BitVec.ofInt w n).toNat := by
  rw [ofInt, modulus_of_le fits, BitVec.toNat_ofInt]

theorem toInt_toNat (x : BitVec w) : toInt x.toNat w = x.toInt := by
  rw [BitVec.toInt_eq_toNat_cond]
  unfold toInt
  simp only [modulus_of_le fits, Nat.mod_eq_of_lt x.isLt]

end Patterns

theorem ofInt_neg_one : BitVec.ofInt w (-1) = BitVec.allOnes w := by
  rw [BitVec.ofInt_neg, ← BitVec.neg_one_eq_allOnes]
  rfl

theorem ofInt_sub (m n : Int) : BitVec.ofInt w (m - n) = BitVec.ofInt w m - BitVec.ofInt w n := by
  rw [Int.sub_eq_add_neg, BitVec.ofInt_add, BitVec.ofInt_neg, BitVec.sub_eq_add_neg]

theorem ofInt_natCast_toNat (x : BitVec w) : BitVec.ofInt w x.toNat = x := by
  rw [BitVec.ofInt_natCast, BitVec.ofNat_toNat, BitVec.setWidth_eq]

theorem toInt_eq_zero_iff {y : BitVec w} : y.toInt = 0 ↔ y = 0#w := by
  constructor
  · intro zero
    apply BitVec.eq_of_toInt_eq
    rw [zero, BitVec.toInt_zero]
  · rintro rfl
    exact BitVec.toInt_zero

/-- The signed quotient is the one rounded toward zero; by zero it is minus one, or one for a negative
dividend. -/
theorem smtSDiv_eq_ofInt (x y : BitVec w) : x.smtSDiv y = BitVec.ofInt w (divide x.toInt y.toInt) := by
  unfold divide
  by_cases zero : y = 0#w
  · subst zero
    rw [BitVec.smtSDiv_zero, BitVec.toInt_zero, if_pos rfl]
    by_cases sign : 0 ≤ x.toInt
    · have notLess : x.slt 0#w = false := by simpa [BitVec.slt] using sign
      rw [if_pos sign, notLess, ofInt_neg_one]
      rfl
    · have less : x.slt 0#w = true := by simpa [BitVec.slt] using sign
      rw [if_neg sign, less]
      rfl
  · have negation : -y ≠ 0#w := fun none => zero (BitVec.neg_eq_zero_iff.1 none)
    have total : x.smtSDiv y = x.sdiv y := by
      rw [BitVec.smtSDiv_eq, BitVec.sdiv_eq]
      cases x.msb <;> cases y.msb <;> simp [BitVec.smtUDiv_eq, zero, negation, BitVec.udiv_eq]
    rw [if_neg fun none => zero (toInt_eq_zero_iff.1 none), total]
    apply BitVec.eq_of_toInt_eq
    rw [BitVec.toInt_sdiv, BitVec.toInt_ofInt]

/-- The signed remainder has the sign of the dividend. -/
theorem srem_eq_ofInt (x y : BitVec w) : x.srem y = BitVec.ofInt w (x.toInt.tmod y.toInt) := by
  rw [← BitVec.toInt_srem, BitVec.ofInt_toInt]

/-- Shifted by its width or more, a number leaves copies of its sign. -/
theorem shiftRight_of_le (x : BitVec w) {k : Nat} (far : w ≤ k) :
    x.toInt >>> k = if x.toInt < 0 then -1 else 0 := by
  have bound : (2 ^ w : Int) ≤ 2 ^ k := by
    exact_mod_cast Nat.pow_le_pow_right (n := 2) (by decide) far
  have low := BitVec.le_two_mul_toInt (x := x)
  have high := BitVec.two_mul_toInt_lt (x := x)
  rw [Int.shiftRight_eq_div_pow]
  push_cast
  split
  next negative => exact Int.ediv_eq_neg_one_of_neg_of_le (by omega) (by omega)
  next => exact Int.ediv_eq_zero_of_lt (by omega) (by omega)

theorem UnaryOp.apply_vector (fits : w ≤ 64) (op : UnaryOp) (x : BitVec w) :
    op.apply x.toNat w = (op.onVector x).toNat := by
  cases op with
  | neg => rw [apply, ofInt_eq_toNat fits, BitVec.ofInt_neg, ofInt_natCast_toNat, onVector]
  | not =>
    rw [apply, ofInt_eq_toNat fits, ofInt_sub, BitVec.ofInt_neg, ofInt_natCast_toNat, onVector,
      BitVec.not_eq_neg_add]
    rfl

theorem BinaryOp.apply_vectors (fits : w ≤ 64) (op : BinaryOp) (x y : BitVec w) :
    op.apply x.toNat y.toNat w = (op.onVectors x y).toNat := by
  have bounded (n : Nat) : mask n w = n % 2 ^ w := by rw [mask, modulus_of_le fits]
  cases op with
  | add => rw [apply, bounded, onVectors, BitVec.toNat_add]
  | sub =>
    rw [apply, ofInt_eq_toNat fits, ofInt_sub, ofInt_natCast_toNat, ofInt_natCast_toNat, onVectors]
  | mul => rw [apply, bounded, onVectors, BitVec.toNat_mul]
  | sdiv => rw [apply, toInt_toNat fits, toInt_toNat fits, ofInt_eq_toNat fits, onVectors, smtSDiv_eq_ofInt]
  | srem =>
    rw [apply, mask_of_lt fits y.isLt, mask_of_lt fits x.isLt, toInt_toNat fits, toInt_toNat fits,
      ofInt_eq_toNat fits, onVectors, srem_eq_ofInt]
    split
    next zero =>
      obtain rfl : y = 0#w := BitVec.eq_of_toNat_eq zero
      rw [BitVec.toInt_zero, Int.tmod_zero, BitVec.ofInt_toInt]
    next => rfl
  | and => rw [apply, onVectors, mask_of_lt fits, BitVec.toNat_and]; exact Nat.and_lt_two_pow _ y.isLt
  | or => rw [apply, onVectors, mask_of_lt fits, BitVec.toNat_or]; exact Nat.or_lt_two_pow x.isLt y.isLt
  | xor => rw [apply, onVectors, mask_of_lt fits, BitVec.toNat_xor]; exact Nat.xor_lt_two_pow x.isLt y.isLt
  | shl =>
    rw [apply, onVectors, BitVec.shiftLeft_eq', bounded]
    split
    next far =>
      rw [BitVec.shiftLeft_eq_zero far]
      rfl
    next => rw [BitVec.toNat_shiftLeft]
  | lshr =>
    rw [apply, onVectors, BitVec.ushiftRight_eq']
    split
    next far =>
      rw [BitVec.ushiftRight_eq_zero far]
      rfl
    next =>
      rw [mask_of_lt fits, BitVec.toNat_ushiftRight]
      exact Nat.lt_of_le_of_lt (Nat.shiftRight_le ..) x.isLt
  | ashr =>
    rw [apply, toInt_toNat fits, ofInt_eq_toNat fits, onVectors, BitVec.sshiftRight', BitVec.sshiftRight_eq]
    split
    next far => rw [shiftRight_of_le x far]
    next => rfl

theorem CompareOp.holds_vectors (op : CompareOp) (x y : BitVec w) :
    op.holds x.toInt y.toInt = op.onVectors x y := by
  cases op <;> rfl

end Bits

/-- A bit vector as a value. -/
def Value.ofVector (x : BitVec w) : Value := .bitVec x.toNat w

theorem Value.ofInt_eq_ofVector (fits : w ≤ 64) (n : Int) : Value.ofInt n w = .ofVector (BitVec.ofInt w n) := by
  rw [ofInt, Bits.ofInt_eq_toNat fits, ofVector]

namespace Term

open Value (ofVector)

/-- Operations of one operand on a bit vector. -/
theorem UnaryOp.denote_vector (fits : w ≤ 64) (x : BitVec w) :
    (∀ op : Bits.UnaryOp, (bits op).denote (ofVector x) = some (ofVector (op.onVector x))) ∧
    (∀ extra, w + extra ≤ 64 → (signExtend extra).denote (ofVector x) =
      some (ofVector (x.signExtend (w + extra)))) ∧
    (∀ extra, (zeroExtend extra).denote (ofVector x) = some (ofVector (x.zeroExtend (w + extra)))) ∧
    (∀ high low, low ≤ high → high < w → (extract high low).denote (ofVector x) =
      some (ofVector (x.extractLsb high low))) := by
  refine ⟨fun op => ?_, fun extra wide => ?_, fun extra => ?_, fun high low order inside => ?_⟩
  · show some (Value.bitVec (op.apply x.toNat w) w) = _
    rw [op.apply_vector fits, ofVector]
  · show some (Value.ofInt (Bits.toInt x.toNat w) (w + extra)) = _
    rw [Bits.toInt_toNat fits, Value.ofInt_eq_ofVector wide, BitVec.signExtend]
  · show some (Value.bitVec x.toNat (w + extra)) = _
    have wider : 2 ^ w ≤ 2 ^ (w + extra) := Nat.pow_le_pow_right (by decide) (Nat.le_add_right ..)
    rw [ofVector, BitVec.zeroExtend, BitVec.toNat_setWidth, Nat.mod_eq_of_lt (Nat.lt_of_lt_of_le x.isLt wider)]
  · show some (Value.bitVec (Bits.mask (x.toNat >>> low) (high - low + 1)) (high - low + 1)) = _
    rw [ofVector, BitVec.extractLsb_toNat, Bits.mask, Bits.modulus_of_le (by omega)]

/-- Nodes over bit vectors evaluate to what the theory of fixed-size bit vectors prescribes. -/
theorem eval_vectors {env : Assignment} {a b : Term} {x y : BitVec w} (fits : w ≤ 64)
    (first : a.eval env = .ok (ofVector x)) (second : b.eval env = .ok (ofVector y)) (l : Label) :
    (∀ op, (unary l (.bits op) a).eval env = .ok (ofVector (op.onVector x))) ∧
    (∀ op, (binary l (.bits op) a b).eval env = .ok (ofVector (op.onVectors x y))) ∧
    (∀ op, (binary l (.compare op) a b).eval env = .ok (.bool (op.onVectors x y))) ∧
    (∀ extra, w + extra ≤ 64 → (unary l (.signExtend extra) a).eval env =
      .ok (ofVector (x.signExtend (w + extra)))) ∧
    (∀ extra, w + extra ≤ 64 → (unary l (.zeroExtend extra) a).eval env =
      .ok (ofVector (x.zeroExtend (w + extra)))) ∧
    (∀ high low, low ≤ high → high < w → (unary l (.extract high low) a).eval env =
      .ok (ofVector (x.extractLsb high low))) := by
  have unary (op : UnaryOp) : (unary l op a).value? env = op.denote (ofVector x) := by
    rw [value?_unary, value?_eq_some.2 first, Option.bind_some]
  have binary (op : BinaryOp) : (binary l op a b).value? env = op.denote (ofVector x) (ofVector y) := by
    rw [value?_binary, value?_eq_some.2 first, value?_eq_some.2 second, Option.bind_some, Option.bind_some]
  obtain ⟨bits, sign, zero, extract⟩ := UnaryOp.denote_vector fits x
  simp only [← value?_eq_some, unary, binary]
  refine ⟨bits, fun op => ?_, fun op => ?_, sign, fun extra _ => zero extra, extract⟩
  · rw [ofVector, ofVector, BinaryOp.denote_bits, if_pos rfl, op.apply_vectors fits, ofVector]
  · show some (Value.bool (op.holds (Bits.toInt x.toNat w) (Bits.toInt y.toNat w))) = _
    rw [Bits.toInt_toNat fits, Bits.toInt_toNat fits, op.holds_vectors]

section Extremes

def dividend : Term := leaf 0 (.var "dividend" (.bitVec 8))

def divisor : Term := leaf 1 (.var "divisor" (.bitVec 8))

/-- The least number of 8 bits, and minus one. -/
def extremes : Assignment :=
  .ofList [("dividend", .ofVector (BitVec.intMin 8)), ("divisor", .ofVector (BitVec.allOnes 8))]

/-- The quotient of the least number by minus one is the least number; as a distance, minus one is beyond
the width. -/
theorem eval_vectors_extremes :
    (binary 2 (.bits .sdiv) dividend divisor).eval extremes = .ok (.bitVec 0x80 8) ∧
    (binary 2 (.bits .srem) dividend divisor).eval extremes = .ok (.bitVec 0 8) ∧
    (binary 2 (.bits .shl) dividend divisor).eval extremes = .ok (.bitVec 0 8) ∧
    (binary 2 (.bits .ashr) dividend divisor).eval extremes = .ok (.bitVec 0xff 8) ∧
    (binary 2 (.compare .slt) dividend divisor).eval extremes = .ok (.bool true) ∧
    (unary 2 (.signExtend 56) dividend).eval extremes = .ok (.bitVec 0xffffffffffffff80 64) ∧
    (unary 2 (.extract 7 6) dividend).eval extremes = .ok (.bitVec 2 2) := by
  have first : dividend.eval extremes = .ok (ofVector (BitVec.intMin 8)) := rfl
  have second : divisor.eval extremes = .ok (ofVector (BitVec.allOnes 8)) := rfl
  obtain ⟨-, bits, compare, sign, -, extract⟩ := eval_vectors (by decide) first second 2
  refine ⟨(bits .sdiv).trans ?_, (bits .srem).trans ?_, (bits .shl).trans ?_, (bits .ashr).trans ?_,
    (compare .slt).trans ?_, (sign 56 (by decide)).trans ?_, (extract 7 6 (by decide) (by decide)).trans ?_⟩
  all_goals rfl

end Extremes

end Term
end SinkReach
