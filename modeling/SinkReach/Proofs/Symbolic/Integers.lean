import SinkReach.Proofs.ModelSearch.Exact
import SinkReach.Proofs.Symbolic.KeyTest
import SinkReach.Proofs.Term.Constructors
import SinkReach.Proofs.Term.FixedSize
import SinkReach.Proofs.Typing.Sorts

/-!
Numbers of the integer types and the terms that show them. A term shows a number of a type if its value is
the number's pattern at the type's width. Conversions keep numbers that the source holds, and reduce them
to the target's width.
-/
namespace SinkReach

namespace Bits

variable {signed : Bool} {v w : Nat} {n : Int}

/-- The numbers that patterns of a width stand for, read with a sign or without. -/
def InRange (signed : Bool) (w : Nat) (n : Int) : Prop :=
  if signed then -2 ^ (w - 1) ≤ n ∧ n < 2 ^ (w - 1) else 0 ≤ n ∧ n < 2 ^ w

instance (signed : Bool) (w : Nat) (n : Int) : Decidable (InRange signed w n) :=
  inferInstanceAs (Decidable (if signed then -2 ^ (w - 1) ≤ n ∧ n < 2 ^ (w - 1) else 0 ≤ n ∧ n < 2 ^ w))

theorem toInt_ofInt_of_inRange (pos : 1 ≤ w) (h : InRange true w n) : (BitVec.ofInt w n).toInt = n := by
  obtain ⟨low, high⟩ : -2 ^ (w - 1) ≤ n ∧ n < 2 ^ (w - 1) := h
  exact BitVec.toInt_ofInt_eq_self pos low high

theorem toNat_ofInt_of_inRange (h : InRange false w n) : ((BitVec.ofInt w n).toNat : Int) = n := by
  obtain ⟨low, high⟩ : 0 ≤ n ∧ n < 2 ^ w := h
  rw [BitVec.toNat_ofInt, Int.emod_eq_of_lt low (by exact_mod_cast high)]
  omega

theorem inRange_toInt (pos : 1 ≤ w) (x : BitVec w) : InRange true w x.toInt := by
  have size : (2 : Int) ^ w = 2 * 2 ^ (w - 1) := by exact_mod_cast two_pow_pred pos
  have low := BitVec.le_two_mul_toInt (x := x)
  have high := BitVec.two_mul_toInt_lt (x := x)
  show -2 ^ (w - 1) ≤ x.toInt ∧ x.toInt < 2 ^ (w - 1)
  omega

theorem inRange_toNat (x : BitVec w) : InRange false w x.toNat := by
  have high : (x.toNat : Int) < (2 ^ w : Nat) := Int.ofNat_lt.2 x.isLt
  exact ⟨Int.natCast_nonneg _, by exact_mod_cast high⟩

theorem InRange.mono (h : InRange signed v n) (le : v ≤ w) : InRange signed w n := by
  cases signed with
  | true =>
    have wider : (2 : Int) ^ (v - 1) ≤ 2 ^ (w - 1) := by
      exact_mod_cast Nat.pow_le_pow_right (n := 2) (by decide) (by omega)
    obtain ⟨low, high⟩ : -2 ^ (v - 1) ≤ n ∧ n < 2 ^ (v - 1) := h
    exact ⟨by omega, by omega⟩
  | false =>
    have wider : (2 : Int) ^ v ≤ 2 ^ w := by exact_mod_cast Nat.pow_le_pow_right (n := 2) (by decide) le
    obtain ⟨low, high⟩ : 0 ≤ n ∧ n < 2 ^ v := h
    exact ⟨low, by omega⟩

/-- A number without sign is one with a sign at any greater width. -/
theorem InRange.withSign (h : InRange false v n) (less : v < w) : InRange true w n := by
  have wider : (2 : Int) ^ v ≤ 2 ^ (w - 1) := by
    exact_mod_cast Nat.pow_le_pow_right (n := 2) (by decide) (by omega)
  obtain ⟨low, high⟩ : 0 ≤ n ∧ n < 2 ^ v := h
  exact ⟨by omega, by omega⟩

end Bits

namespace Term

open Value (ofVector)

variable {s u : TermSort} {ρ : Valuation} {l : Label} {a b t : Term} {v w : Nat} {n : Int}

theorem OfSort.supported (h : a.OfSort s) : a.wellSorted TermSort.supported = true :=
  wellSorted_mono TermSort.supported_of_valued a h.2

theorem OfSort.valued (h : a.OfSort s) : s.valued = true := h.1 ▸ admissible_sort rfl h.2

theorem OfSort.bits2 {op : Bits.BinaryOp} (ha : a.OfSort (.bitVec w)) (hb : b.OfSort (.bitVec w)) :
    (Term.bits2 l op a b).OfSort (.bitVec w) :=
  ((ha.plain [a, b] (by simp)).bits2 (d := l) (hb.plain _ (by simp))).ofSort

theorem OfSort.compare {op : Bits.CompareOp} (ha : a.OfSort (.bitVec w)) (hb : b.OfSort (.bitVec w)) :
    (Term.compare l op a b).OfSort .bool :=
  ((ha.plain [a, b] (by simp)).compare (d := l) (hb.plain _ (by simp))).ofSort

theorem OfSort.resize {signed : Bool} (h : a.OfSort (.bitVec v)) (low : 1 ≤ w) (high : w ≤ 64) :
    (Term.resize l a v w signed).OfSort (.bitVec w) :=
  ((h.plain [a] (by simp)).resize (d := l) low high).ofSort

/-- A folded operation has the value of the operation. -/
theorem denote_fold_unary {op : UnaryOp} {x r : Value} (ha : a.OfSort s) (accepts : op.accepts s = true)
    (valued : (op.result s).valued = true) (value : a.denote ρ = some x) (result : op.denote x = some r) :
    (fold (unary l op a)).denote ρ = some r := by
  have sorted : (unary l op a).wellSorted TermSort.valued = true := by
    rw [wellSorted, sort_unary, ha.1, valued, accepts, ha.2]
    rfl
  refine (fold_unary_retains sorted ha.supported).value r ?_
  rw [denote, value, Option.bind_some, result]

theorem denote_fold_binary {op : BinaryOp} {x y r : Value} (ha : a.OfSort s) (hb : b.OfSort u)
    (other : op ≠ .select) (accepts : op.accepts s u = true) (valued : (op.result s).valued = true)
    (first : a.denote ρ = some x) (second : b.denote ρ = some y) (result : op.denote x y = some r) :
    (fold (binary l op a b)).denote ρ = some r := by
  have sorted : (binary l op a b).wellSorted TermSort.valued = true := by
    rw [wellSorted, sort_binary, ha.1, hb.1, valued, accepts, ha.2, hb.2]
    rfl
  refine (fold_binary_retains sorted other).value r ?_
  rw [denote, first, second, Option.bind_some, Option.bind_some, result]

section Vectors

variable {x y : BitVec w} (ha : a.OfSort (.bitVec w)) (hb : b.OfSort (.bitVec w))
  (first : a.denote ρ = some (ofVector x)) (second : b.denote ρ = some (ofVector y))
include ha first

theorem denote_bits1 (op : Bits.UnaryOp) : (bits1 l op a).denote ρ = some (ofVector (op.onVector x)) :=
  denote_fold_unary ha rfl ha.valued first ((UnaryOp.denote_vector (width_le ha.valued) x).1 op)

include hb second

theorem denote_bits2 (op : Bits.BinaryOp) :
    (bits2 l op a b).denote ρ = some (ofVector (op.onVectors x y)) := by
  refine denote_fold_binary ha hb (by simp) (by simp [BinaryOp.accepts, TermSort.width?]) ha.valued first second ?_
  rw [ofVector, ofVector, BinaryOp.denote_bits, if_pos rfl, op.apply_vectors (width_le ha.valued), ofVector]

theorem denote_compare (op : Bits.CompareOp) :
    (compare l op a b).denote ρ = some (.bool (op.holds x.toInt y.toInt)) := by
  have fits := width_le ha.valued
  refine denote_fold_binary ha hb (by simp) (by simp [BinaryOp.accepts, TermSort.width?]) rfl first second ?_
  show some (Value.bool (op.holds (Bits.toInt x.toNat w) (Bits.toInt y.toNat w))) = _
  rw [Bits.toInt_toNat fits, Bits.toInt_toNat fits]

theorem denote_eq_vectors : (eq l a b).denote ρ = some (.bool (decide (x = y))) := by
  unfold eq
  split
  next same =>
    obtain rfl : x = y := by
      rw [same_denote same, second] at first
      exact BitVec.eq_of_toNat_eq (Value.bitVec.inj (Option.some.inj first)).1.symm
    rw [decide_eq_true rfl]
    rfl
  next =>
    refine denote_fold_binary ha hb (by simp) (by simp [BinaryOp.accepts]) rfl first second ?_
    show some (Value.bool ((ofVector x).same (ofVector y))) = _
    rw [ofVector, ofVector, Value.same, Value.sameScalar, beq_self_eq_true, Bool.and_true]
    · rw [beq_eq_decide, decide_eq_decide.2 BitVec.toNat_inj]
    · simp

end Vectors

/-- The term shows at a width the numbers of a range that another one shows at its width. -/
structure Carries (R : Int → Prop) (a : Term) (v : Nat) (t : Term) (w : Nat) : Prop where
  ofSort : t.OfSort (.bitVec w)
  value : ∀ (ρ : Valuation) (n : Int), R n → a.denote ρ = some (.ofInt n v) → t.denote ρ = some (.ofInt n w)

variable {R R' : Int → Prop} {signed : Bool}

theorem Carries.refl (ha : a.OfSort (.bitVec v)) : Carries R a v a v := ⟨ha, fun _ _ _ value => value⟩

theorem Carries.trans (h : Carries R a v b w) {k : Nat} (h' : Carries R' b w t k) (imp : ∀ n, R n → R' n) :
    Carries R a v t k :=
  ⟨h'.ofSort, fun ρ n inside value => h'.value ρ n (imp n inside) (h.value ρ n inside value)⟩

theorem Carries.mono (h : Carries R' a v t w) (imp : ∀ n, R n → R' n) : Carries R a v t w :=
  ⟨h.ofSort, fun ρ n inside value => h.value ρ n (imp n inside) value⟩

/-- The lowest bits of a pattern are the pattern at the smaller width. -/
theorem ofInt_extractLow (low : 1 ≤ w) (le : w ≤ v) (fits : v ≤ 64) :
    ofVector ((BitVec.ofInt v n).extractLsb (w - 1) 0) = .ofInt n w := by
  have width : w - 1 - 0 + 1 = w := by omega
  have divides : ((2 ^ w : Nat) : Int) ∣ ((2 ^ v : Nat) : Int) := by exact_mod_cast Nat.pow_dvd_pow 2 le
  have pos : (0 : Int) < (2 ^ v : Nat) := Int.natCast_pos.2 (Nat.two_pow_pos v)
  have kept := Int.emod_nonneg n (Int.ne_of_gt pos)
  have lowest : (n % (2 ^ v : Nat)).toNat % 2 ^ w = (n % (2 ^ w : Nat)).toNat := by
    rw [← Int.toNat_natCast (2 ^ w), ← Int.toNat_emod kept (by omega), Int.emod_emod_of_dvd n divides,
      Int.toNat_natCast]
  rw [Value.ofInt_eq_ofVector (by omega), ofVector, ofVector, BitVec.extractLsb_toNat, width, Nat.shiftRight_zero,
    BitVec.toNat_ofInt, BitVec.toNat_ofInt, lowest]

/-- A change of width keeps the number if it narrows, or if the extension is the one that the number was
read by. -/
theorem resize_carries (ha : a.OfSort (.bitVec v)) (low : 1 ≤ w) (high : w ≤ 64) :
    Carries (fun n => v < w → Bits.InRange signed v n) a v (resize l a v w signed) w := by
  obtain ⟨pos, fits⟩ := width_bounds ha.valued
  refine ⟨ha.resize low high, fun ρ n inside value => ?_⟩
  rw [Value.ofInt_eq_ofVector fits] at value
  unfold resize
  split
  next same => rwa [same, Value.ofInt_eq_ofVector fits]
  next other =>
    split
    next wider =>
      obtain ⟨e, rfl⟩ : ∃ e, w = v + e := ⟨w - v, by omega⟩
      have valued : (TermSort.bitVec (v + e)).valued = true := decide_eq_true ⟨low, high⟩
      obtain ⟨-, sign, zero, -⟩ := UnaryOp.denote_vector fits (BitVec.ofInt v n)
      rw [Nat.add_sub_cancel_left, Value.ofInt_eq_ofVector high]
      cases signed with
      | true =>
        rw [if_pos rfl, signExtend, if_neg (by omega)]
        refine denote_fold_unary ha rfl valued value ?_
        rw [sign e high, BitVec.signExtend, Bits.toInt_ofInt_of_inRange pos (inside wider)]
      | false =>
        have number := Bits.toNat_ofInt_of_inRange (inside wider)
        rw [if_neg (by decide), zeroExtend, if_neg (by omega)]
        refine denote_fold_unary ha rfl valued value ?_
        rw [zero e, BitVec.zeroExtend, ← BitVec.ofNat_toNat, ← BitVec.ofInt_natCast, number]
    next narrower =>
      obtain ⟨-, -, -, extract⟩ := UnaryOp.denote_vector fits (BitVec.ofInt v n)
      have whole : ¬ (0 = 0 ∧ a.sort.width? = some (w - 1 + 1)) := by
        rintro ⟨-, width⟩
        rw [ha.1] at width
        cases width
        omega
      rw [Term.extract, if_neg whole, ← ofInt_extractLow low (by omega) fits]
      refine denote_fold_unary ha ?_ (decide_eq_true (by omega)) value (extract (w - 1) 0 (by omega) (by omega))
      simp [UnaryOp.accepts, TermSort.width?]
      omega

theorem convert_carries (ha : a.OfSort (.bitVec v)) (low : 1 ≤ w) (high : w ≤ 64) :
    ∃ t, convert l a (.bitVec w) = .ok t ∧ Carries (fun n => v < w → Bits.InRange true v n) a v t w :=
  ⟨_, convert_bits ha.1, resize_carries ha low high⟩

/-- Extended by zeros to an `int` first, a `char` keeps its number at any width that holds it. -/
theorem convert_char_carries (ha : a.OfSort (.bitVec 16)) (low : 1 ≤ w) (high : w ≤ 64) :
    ∃ t, convert l (resize (l + 16) a 16 32 false) (.bitVec w) = .ok t ∧ Carries (Bits.InRange false 16) a 16 t w := by
  have wide : Carries (Bits.InRange false 16) a 16 (resize (l + 16) a 16 32 false) 32 :=
    (resize_carries ha (by decide) (by decide)).mono fun n inside _ => inside
  obtain ⟨t, converted, carries⟩ := convert_carries (l := l) wide.ofSort low high
  exact ⟨t, converted, wide.trans carries fun n inside _ => inside.withSign (by decide)⟩

/-- Operands are brought to the wider of their widths, but at least that of an `int`. -/
theorem align_carries {k : Nat} (ha : a.OfSort (.bitVec v)) (hb : b.OfSort (.bitVec k)) :
    ∃ a' b', align l a b = .ok (a', b') ∧
      Carries (Bits.InRange true v) a v a' (max (max 32 v) k) ∧
      Carries (Bits.InRange true k) b k b' (max (max 32 v) k) := by
  obtain ⟨-, first⟩ := width_bounds ha.valued
  obtain ⟨-, second⟩ := width_bounds hb.valued
  obtain ⟨a', ha', left⟩ := convert_carries (l := l) (w := max (max 32 v) k) ha (by omega) (by omega)
  obtain ⟨b', hb', right⟩ := convert_carries (l := l + 16) (w := max (max 32 v) k) hb (by omega) (by omega)
  refine ⟨a', b', ?_, left.mono fun n inside _ => inside, right.mono fun n inside _ => inside⟩
  simp only [align, ha.1, hb.1, higherSort_bits, ha', hb', bind, Except.bind, pure, Except.pure]

end Term

/-- Integer types. -/
inductive IntegerTy where
  | byte
  | short
  | char
  | int
  | long
deriving DecidableEq

namespace IntegerTy

def ty : IntegerTy → Ty
  | byte => .byte
  | short => .short
  | char => .char
  | int => .int
  | long => .long

def width : IntegerTy → Nat
  | byte => 8
  | short | char => 16
  | int => 32
  | long => 64

/-- Only `char` is without negative numbers. -/
def signed : IntegerTy → Bool
  | char => false
  | _ => true

/-- The numbers of the type. -/
def Holds (k : IntegerTy) (n : Int) : Prop := Bits.InRange k.signed k.width n

instance (k : IntegerTy) (n : Int) : Decidable (k.Holds n) :=
  inferInstanceAs (Decidable (Bits.InRange k.signed k.width n))

/-- Type of an operation on two operands. -/
def promoted (s t : IntegerTy) : IntegerTy := if s = long ∨ t = long then long else int

/-- The term evaluates to the pattern of a number of the type. -/
structure Shows (k : IntegerTy) (env : Assignment) (t : Term) (n : Int) : Prop where
  holds : k.Holds n
  value : t.eval env = .ok (.ofInt n k.width)

variable {k : IntegerTy} {a : Term} {l : Label}

theorem sort_ty (k : IntegerTy) : k.ty.sort = .bitVec k.width := by cases k <;> rfl

theorem ty_injective {s t : IntegerTy} (h : s.ty = t.ty) : s = t := by
  cases s <;> cases t <;> first | rfl | cases h

theorem width_bounds (k : IntegerTy) : 1 ≤ k.width ∧ k.width ≤ 64 := by cases k <;> decide

/-- The number of the type that has a pattern. -/
def number (k : IntegerTy) (x : BitVec k.width) : Int := if k.signed then x.toInt else x.toNat

theorem holds_number (k : IntegerTy) (x : BitVec k.width) : k.Holds (k.number x) := by
  unfold Holds number
  cases sign : k.signed with
  | true => exact Bits.inRange_toInt k.width_bounds.1 x
  | false => exact Bits.inRange_toNat x

theorem ofInt_number (k : IntegerTy) (x : BitVec k.width) : BitVec.ofInt k.width (k.number x) = x := by
  unfold number
  split
  · exact BitVec.ofInt_toInt
  · exact Bits.ofInt_natCast_toNat x

/-- Under an assignment of its constants a term of the type shows a number. -/
theorem exists_shows {env : Assignment} (h : a.OfSort k.ty.sort) (bound : env.WellSorted [a]) :
    ∃ n, k.Shows env a n := by
  rw [sort_ty] at h
  obtain ⟨x, value, small⟩ := Term.denote_bits env.completed_wellSorted h.2 h.1
  refine ⟨k.number ⟨x, small⟩, k.holds_number _, ?_⟩
  rw [← Term.value?_eq_some, Term.value?_eq_denote, bound.completed (List.mem_singleton.2 rfl), value,
    Value.ofInt_eq_ofVector k.width_bounds.2, ofInt_number]
  rfl

theorem Shows.denote {env : Assignment} {n : Int} (h : k.Shows env a n) :
    a.denote env.valuation = some (.ofInt n k.width) := by
  rw [← Term.value?_eq_denote, Term.value?_eq_some]
  exact h.value

/-- The types of keys of switches are integer types. -/
theorem exists_of_isIntegral {ty : Ty} (h : ty.isIntegral = true) : ∃ k : IntegerTy, ty = k.ty := by
  cases ty with
  | byte => exact ⟨.byte, rfl⟩
  | short => exact ⟨.short, rfl⟩
  | char => exact ⟨.char, rfl⟩
  | int => exact ⟨.int, rfl⟩
  | boolean | long | float | double | void | null | ref | array => cases h

/-- Width at which a promoted operand enters the alignment. -/
def entry : IntegerTy → Nat
  | char => 32
  | k => k.width

theorem Holds.entry {n : Int} (h : k.Holds n) : Bits.InRange true k.entry n := by
  cases k with
  | char => exact Bits.InRange.withSign h (by decide)
  | byte | short | int | long => exact h

theorem width_promoted (s t : IntegerTy) : (s.promoted t).width = max (max 32 s.entry) t.entry := by
  cases s <;> cases t <;> rfl

open Term (Carries)

/-- An operand enters an operator with its number; a `char` is extended by zeros. -/
theorem promote_carries (h : a.OfSort k.ty.sort) :
    ∃ t, Machine.promote l k.ty a = .ok t ∧ Carries k.Holds a k.width t k.entry := by
  rw [sort_ty] at h
  cases k with
  | char =>
    obtain ⟨t, converted, carries⟩ := Term.convert_char_carries (l := l) (w := 32) h (by decide) (by decide)
    refine ⟨t, ?_, carries⟩
    show Machine.promote l .char a = _
    rw [Machine.promote, if_pos rfl, Term.cast_char_int h.1]
    exact converted
  | byte | short | int | long => exact ⟨a, rfl, .refl h⟩

/-- A cast takes the number modulo the size of the target. -/
theorem cast_carries (target : IntegerTy) (h : a.OfSort k.ty.sort) :
    ∃ t, Term.cast l a k.ty target.ty = .ok t ∧ Carries k.Holds a k.width t target.width := by
  rw [sort_ty] at h
  obtain ⟨low, high⟩ := target.width_bounds
  by_cases same : k = target
  · subst same
    exact ⟨a, Term.cast_self l a k.ty, .refl h⟩
  have other : k.ty ≠ target.ty := fun types => same (ty_injective types)
  obtain ⟨t, converted, carries⟩ := Term.convert_carries (l := l) h low high
  cases k with
  | char =>
    have narrow : (TermSort.bitVec target.width).width?.any (fun v => decide (v ≤ 16)) =
        decide (target.width ≤ 16) := rfl
    rw [ty] at other ⊢
    rw [Term.cast_char other l h.1, sort_ty, width, narrow]
    by_cases fits : target.width ≤ 16
    · rw [if_pos (decide_eq_true fits)]
      exact ⟨t, converted, carries.mono fun n _ less => absurd less (Nat.not_lt.2 fits)⟩
    · rw [if_neg (by simpa using fits)]
      exact Term.convert_char_carries h low high
  | byte | short | int | long =>
    rw [Term.cast_of_ne_char other (by decide), sort_ty]
    exact ⟨t, converted, carries.mono fun n inside _ => inside⟩

end IntegerTy
end SinkReach
