import SinkReach.Proofs.Symbolic.Data

/-!
Conditions on the data of their operands. An operator gives a term that is true just where the machine's result is
true or not zero, with one exception: beside a truth value every number is taken for a truth value as well, and two
is not one.
-/
namespace SinkReach

/-- The term is true, or not zero, just if the truth value is true. -/
inductive Term.Decided (ρ : Valuation) (t : Term) (r : Bool) : Prop
  | truth : t.OfSort .bool → t.denote ρ = some (.bool r) → Decided ρ t r
  | number {w : Nat} {x : BitVec w} : t.OfSort (.bitVec w) → t.denote ρ = some (.ofVector x) →
    decide (x ≠ 0#w) = r → Decided ρ t r

/-- A promoted operand, and the datum that it stands for. -/
inductive Term.Enters (ρ : Valuation) : Term → Datum → Prop
  | truth {a : Term} {b : Bool} : a.OfSort .bool → a.denote ρ = some (.bool b) → Enters ρ a (.integer .int b.toInt)
  | integer {a : Term} {k : IntegerTy} {n : Int} : a.OfSort (.bitVec k.entry) → Bits.InRange true k.entry n →
    a.denote ρ = some (.ofInt n k.entry) → Enters ρ a (.integer k n)
  | float {a : Term} {p : Precision} {x : Nat} : a.OfSort (.float p.format) → a.denote ρ = some (.float p x) →
    Enters ρ a (.float p x)

namespace Term

variable {ρ : Valuation} {l : Label} {a b a' b' t : Term} {w : Nat} {d e : Datum} {p : Precision} {r : Bool}

section Conversions

theorem denote_nonzero {x : BitVec w} (ha : a.OfSort (.bitVec w)) (value : a.denote ρ = some (.ofVector x)) :
    (nonzero l a w).denote ρ = some (.bool (x ≠ 0#w)) := by
  obtain ⟨pos, fits⟩ := width_bounds ha.valued
  have zero : (ofInt (l + 2) 0 w).denote ρ = some (.ofVector (0#w)) := by
    refine Eq.trans (b := some (.ofInt 0 w)) rfl ?_
    rw [Value.ofInt_eq_ofVector fits, BitVec.ofInt_ofNat]
  rw [nonzero, denote_not_iff, denote_eq_vectors ha (.ofInt 0 pos fits) value zero, decide_not, Bool.not_not]

/-- Brought to a truth value, a term decides as before. -/
theorem Decided.convert (h : Decided ρ t r) (made : convert l t .bool = .ok b) : b.denote ρ = some (.bool r) := by
  unfold Term.convert at made
  cases h with
  | truth sorted value =>
    rw [if_pos sorted.1] at made
    cases made
    exact value
  | number sorted value same =>
    rw [sorted.1, if_neg (by simp)] at made
    cases made
    rw [denote_nonzero sorted value, same]

theorem denote_boolToBits (value : a.denote ρ = some (.bool r)) :
    (boolToBits l a 32).denote ρ = some (.ofInt r.toInt 32) := by
  rw [boolToBits, denote_ite_of_condition value]
  cases r <;> rfl

theorem OfSort.boolToBits (ha : a.OfSort .bool) : (boolToBits l a 32).OfSort (.bitVec 32) :=
  ha.ite (.ofInt 1 (by decide) (by decide)) (.ofInt 0 (by decide) (by decide))

theorem denote_bvToFp {n : Int} (ha : a.OfSort (.bitVec w)) (inside : Bits.InRange true w n)
    (value : a.denote ρ = some (.ofInt n w)) :
    (bvToFp l p.format a).denote ρ = some (.float p (p.ofInt n)) := by
  obtain ⟨pos, fits⟩ := width_bounds ha.valued
  have number : Bits.toInt (Bits.ofInt n w) w = n := by
    rw [Bits.ofInt_eq_toNat fits, Bits.toInt_toNat fits, Bits.toInt_ofInt_of_inRange pos inside]
  refine denote_fold_unary ha rfl p.valued_format value ?_
  rw [Value.ofInt, UnaryOp.denote_bvToFp, p.precision?_format, number]
  rfl

theorem OfSort.bvToFp (ha : a.OfSort (.bitVec w)) : (bvToFp l p.format a).OfSort (.float p.format) :=
  ((ha.plain [a] (by simp)).bvToFp (d := l) p.valued_format).ofSort

/-- A promoted operand that is brought to a float has the datum as a float. -/
theorem Enters.convert_float (h : Enters ρ a d) (made : convert l a (.float p.format) = .ok t) :
    t.OfSort (.float p.format) ∧ ∃ x, d.toFloat? p = some x ∧ t.denote ρ = some (.float p x) := by
  unfold Term.convert at made
  cases h with
  | @truth b sorted value =>
    rw [sorted.1, if_neg (by simp)] at made
    cases made
    have bits := sorted.boolToBits (l := l)
    have inside : Bits.InRange true 32 b.toInt := by cases b <;> decide
    exact ⟨bits.bvToFp, _, rfl, denote_bvToFp bits inside (denote_boolToBits value)⟩
  | integer sorted inside value =>
    rw [sorted.1, if_neg (by simp)] at made
    cases made
    exact ⟨sorted.bvToFp, _, rfl, denote_bvToFp sorted inside value⟩
  | @float q x sorted value =>
    rw [sorted.1] at made
    split at made
    next same =>
      cases made
      obtain rfl : q = p := Precision.format_injective (TermSort.float.inj same)
      refine ⟨sorted, x, ?_, value⟩
      rw [Datum.toFloat?, Precision.convert_self]
    next other =>
      cases made
      rw [fpToFp, if_neg (by rwa [sorted.1])]
      have result : (UnaryOp.fpToFp p.format).denote (.float q x) = some (.float p (q.convert p x)) := by
        rw [UnaryOp.denote_fpToFp, p.precision?_format]
        cases q with
        | single =>
          cases p with
          | single => exact absurd rfl other
          | double => rw [Value.toDouble?, Option.bind_some, Option.map_some, Precision.convert_self]
        | double => rw [Value.toDouble?, Option.bind_some, Option.map_some]
      refine ⟨?_, _, rfl, denote_fold_unary sorted rfl p.valued_format value result⟩
      exact ((sorted.plain [a] (by simp)).foldUnary (d := l) (o := .fpToFp p.format) rfl p.valued_format).ofSort

end Conversions

/-- A value of the term's sort decides as it says. -/
theorem Decided.of_value {s : TermSort} {v : Value} (ht : t.OfSort s) (value : t.denote ρ = some v)
    (sort : v.hasSort s = true) (truth : v.truth? = some r) : Decided ρ t r := by
  cases v with
  | bool b =>
    cases s <;> cases sort
    cases truth
    exact .truth ht value
  | bitVec x w =>
    cases s with
    | bitVec w' =>
      obtain ⟨same, small⟩ := Bool.and_eq_true_iff.1 sort
      obtain rfl := eq_of_beq same
      let y : BitVec w := ⟨x, of_decide_eq_true small⟩
      have zero : y = 0#w ↔ x = 0 := ⟨fun h => congrArg BitVec.toNat h, fun h => BitVec.eq_of_toNat_eq h⟩
      exact .number (x := y) ht value ((decide_eq_decide.2 (not_congr zero)).trans (Option.some.inj truth))
    | _ => cases sort
  | _ => cases truth

end Term

namespace Operator

open Term (Decided)

variable {ρ : Valuation} {l : Label} {a b t : Term} {p : Precision} {x y : Nat} {v : Value} {op : Operator}

theorem threeWay_eq (p : Precision) (unordered : Int) (x y : Nat) : p.threeWay unordered x y =
    if p.isNaN x || p.isNaN y then unordered else if p.le x y then if p.eq x y then 0 else -1 else 1 := by
  unfold Precision.threeWay Precision.le Precision.lt Precision.eq
  cases p.isNaN x <;> cases p.isNaN y <;> simp only [Bool.or_true, Bool.or_false, Bool.not_true, Bool.not_false,
    Bool.false_and, Bool.true_and, Bool.and_false, if_true, decide_eq_true_eq, Bool.false_eq_true, if_false]
  rcases lt_trichotomy (p.position x) (p.position y) with less | same | greater
  · simp only [less, less.le, less.ne, if_true, if_false]
  · simp only [same, lt_irrefl, le_refl, if_true, if_false]
  · simp only [greater.not_gt, greater.ne', greater.not_ge, if_false]

section Floats

variable (ha : a.OfSort (.float p.format)) (hb : b.OfSort (.float p.format))
  (first : a.denote ρ = some (.float p x)) (second : b.denote ρ = some (.float p y))
include ha hb

theorem ofSort_fpCompare (op : FloatCompareOp) : (Term.fpCompare l op a b).OfSort .bool :=
  ((ha.plain [a, b] (by simp)).fpCompare (d := l) (hb.plain _ (by simp))).ofSort

theorem ofSort_floatThreeWay (n : Int) : (floatThreeWay l a b (some n)).OfSort (.bitVec 32) :=
  ((ha.plain [a, b] (by simp)).floatThreeWay (d := l) (hb.plain _ (by simp)) (some n)).ofSort

include first second

theorem denote_fpCompare (op : FloatCompareOp) :
    (Term.fpCompare l op a b).denote ρ = some (.bool (op.holds p x y)) := by
  refine Term.denote_fold_binary ha hb (by simp) (by simp [Term.BinaryOp.accepts, TermSort.format?]) rfl first second ?_
  rw [Term.BinaryOp.denote_fpCompare, if_pos rfl]

theorem denote_floatThreeWay (n : Int) :
    (floatThreeWay l a b (some n)).denote ρ = some (.ofInt (p.threeWay n x y) 32) := by
  have nan {l : Label} {c : Term} {z : Nat} (hc : c.OfSort (.float p.format)) (value : c.denote ρ = some (.float p z)) :
      (Term.fpIsNaN l c).denote ρ = some (.bool (p.isNaN z)) := Term.denote_fold_unary hc rfl rfl value rfl
  have either := Term.denote_or_of_bools (l := l + 8) (nan (l := l + 9) ha first) (nan (l := l + 10) hb second)
  rw [floatThreeWay, Term.denote_ite_of_condition either, threeWay_eq]
  split
  next => rfl
  next =>
    rw [threeWay, Term.denote_ite_of_condition (denote_fpCompare ha hb first second .le)]
    show (if p.le x y then _ else _) = _
    split
    next =>
      rw [Term.denote_ite_of_condition (denote_fpCompare ha hb first second .eq)]
      show (if p.eq x y then _ else _) = _
      split <;> rfl
    next => rfl

/-- Comparisons of floats decide as the machine compares them. -/
theorem onFloats_decided {r : Bool} (made : onFloats l a b op = .ok t) (result : op.floats? p x y = some v)
    (truth : v.truth? = some r) : Decided ρ t r := by
  have compare {l : Label} (op : FloatCompareOp) := denote_fpCompare (l := l) ha hb first second op
  have sort {l : Label} (op : FloatCompareOp) := ofSort_fpCompare (l := l) ha hb op
  cases op with
  | eq | lt | le | gt | ge =>
    cases made
    cases result
    exact .of_value (sort _) (compare _) rfl truth
  | ne =>
    cases made
    cases result
    refine .of_value (sort .eq).not (Term.denote_not_iff.2 ?_) rfl truth
    rw [Bool.not_not]
    exact compare .eq
  | cmpl | cmpg =>
    cases made
    cases result
    exact .of_value (ofSort_floatThreeWay ha hb _) (denote_floatThreeWay ha hb first second _)
      (Value.hasSort_ofInt (by decide)) truth
  | _ => cases result

end Floats

section Truths

variable {p q : Bool} (ha : a.OfSort .bool) (hb : b.OfSort .bool) (first : a.denote ρ = some (.bool p))
  (second : b.denote ρ = some (.bool q))
include ha hb first second

theorem denote_eq_bools : (Term.eq l a b).denote ρ = some (.bool (p == q)) := by
  unfold Term.eq
  split
  next same =>
    rw [Term.same_denote same, second] at first
    cases first
    rw [beq_self_eq_true]
    rfl
  next =>
    refine Term.denote_fold_binary ha hb (by simp) (by simp [Term.BinaryOp.accepts]) rfl first second ?_
    show some (Value.bool ((Value.bool p).same (.bool q))) = _
    rw [Value.same, Value.sameScalar]
    simp

/-- Operators on truth values give truth values. -/
theorem onBools_truths (made : onBools l a b op = .ok t) :
    ∃ r, op.truths? p q = some r ∧ t.OfSort .bool ∧ t.denote ρ = some (.bool r) := by
  have xor : (Term.xor l a b).OfSort .bool ∧ (Term.xor l a b).denote ρ = some (.bool (p != q)) := by
    refine ⟨((ha.plain [a, b] (by simp)).xor (d := l) (hb.plain _ (by simp))).ofSort, ?_⟩
    exact Term.denote_fold_binary ha hb (by simp) rfl rfl first second rfl
  cases op with
  | eq =>
    cases made
    exact ⟨_, rfl, ha.eq hb rfl, denote_eq_bools ha hb first second⟩
  | ne | xor =>
    cases made
    exact ⟨_, rfl, xor⟩
  | and =>
    cases made
    exact ⟨_, rfl, ha.and hb, Term.denote_and_of_bools first second⟩
  | or =>
    cases made
    exact ⟨_, rfl, ha.or hb, Term.denote_or_of_bools first second⟩
  | _ => cases made

end Truths

section Integers

variable {w : Nat} {m n : Int} {r : Bool}

theorem ofInt_eq_zero_iff (pos : 1 ≤ w) (h : Bits.InRange true w n) : BitVec.ofInt w n = 0#w ↔ n = 0 := by
  constructor
  · intro zero
    rw [← Bits.toInt_ofInt_of_inRange pos h, zero, BitVec.toInt_zero]
  · rintro rfl
    exact BitVec.ofInt_ofNat w 0

theorem truth?_ofVector (x : BitVec w) : (Value.ofVector x).truth? = some (decide (x ≠ 0#w)) := by
  have zero : x.toNat = 0 ↔ x = 0#w := ⟨fun h => BitVec.eq_of_toNat_eq h, fun h => congrArg BitVec.toNat h⟩
  exact congrArg some (decide_eq_decide.2 (not_congr zero))

/-- Bits are combined as truth values are where one operand is zero or both are the same. -/
theorem bits_truths {x y : BitVec w} (plain : x = 0#w ∨ y = 0#w ∨ x = y) :
    decide (x &&& y ≠ 0#w) = (decide (x ≠ 0#w) && decide (y ≠ 0#w)) ∧
    decide (x ||| y ≠ 0#w) = (decide (x ≠ 0#w) || decide (y ≠ 0#w)) ∧
    decide (x ^^^ y ≠ 0#w) = (decide (x ≠ 0#w) != decide (y ≠ 0#w)) := by
  rcases plain with rfl | rfl | rfl <;> simp

/-- A number can stand for the truth value that it is not zero beside zero, and beside itself. -/
theorem truth?_onNumbers (pos : 1 ≤ w) (hm : Bits.InRange true w m) (hn : Bits.InRange true w n)
    (plain : m = 0 ∨ n = 0 ∨ m = n) (result : op.truths? (m ≠ 0) (n ≠ 0) = some r) :
    (op.onNumbers w m n).truth? = some r := by
  have left : decide (m ≠ 0) = decide (BitVec.ofInt w m ≠ 0#w) :=
    decide_eq_decide.2 (not_congr (ofInt_eq_zero_iff pos hm)).symm
  have right : decide (n ≠ 0) = decide (BitVec.ofInt w n ≠ 0#w) :=
    decide_eq_decide.2 (not_congr (ofInt_eq_zero_iff pos hn)).symm
  have vectors : BitVec.ofInt w m = 0#w ∨ BitVec.ofInt w n = 0#w ∨ BitVec.ofInt w m = BitVec.ofInt w n :=
    plain.imp (ofInt_eq_zero_iff pos hm).2 (Or.imp (ofInt_eq_zero_iff pos hn).2 (congrArg _))
  obtain ⟨conjunction, disjunction, exclusion⟩ := bits_truths vectors
  cases op with
  | eq =>
    rw [← result]
    refine congrArg some ?_
    rcases plain with rfl | rfl | rfl <;> simp [eq_comm]
  | ne =>
    rw [← result]
    refine congrArg some ?_
    rcases plain with rfl | rfl | rfl <;> simp [eq_comm]
  | and => rw [onNumbers, truth?_ofVector, conjunction, ← left, ← right, ← result, truths?]
  | or => rw [onNumbers, truth?_ofVector, disjunction, ← left, ← right, ← result, truths?]
  | xor => rw [onNumbers, truth?_ofVector, exclusion, ← left, ← right, ← result, truths?]
  | _ => cases result

/-- The result of an operator on promoted numbers is one of its result type. -/
theorem hasSort_onNumbers (op : Operator) (k : IntegerTy) (m n : Int) :
    (op.onNumbers k.width m n).hasSort (op.resultTy k).sort = true := by
  cases op with
  | add | sub | mul | div | rem | shl | shr | ushr =>
    rw [resultTy, k.sort_ty]
    exact Value.hasSort_ofInt k.width_bounds.2
  | and | or | xor =>
    rw [resultTy, k.sort_ty]
    exact Value.hasSort_ofVector _
  | eq | ne | lt | le | gt | ge => rfl
  | cmp | cmpl | cmpg => exact Value.hasSort_ofInt (by decide)

end Integers

end Operator

namespace Term

variable {ρ : Valuation} {l : Label} {a b a' b' t : Term} {d e : Datum} {k k' : IntegerTy} {m n : Int} {r : Bool}

theorem align_ok (h : align l a b = .ok (a', b')) :
    ∃ first target, higherSort (.bitVec 32) a.sort = .ok first ∧ higherSort first b.sort = .ok target ∧
      convert l a target = .ok a' ∧ convert (l + 16) b target = .ok b' := by
  obtain ⟨first, higher, h⟩ := except_bind_ok.1 h
  obtain ⟨target, higher', h⟩ := except_bind_ok.1 h
  obtain ⟨x, left, h⟩ := except_bind_ok.1 h
  obtain ⟨y, right, h⟩ := except_bind_ok.1 h
  cases h
  exact ⟨first, target, higher, higher', left, right⟩

section Ranks

variable {p : Precision} {w : Nat}

theorem higherSort_bits_bool (fits : w ≤ 64) : higherSort (.bitVec w) .bool = .ok .bool := by
  show Except.ok (if 10000000 + w < 20000000 then _ else _) = _
  rw [if_pos (by omega)]

theorem higherSort_bool_bits (fits : w ≤ 64) : higherSort .bool (.bitVec w) = .ok .bool := by
  show Except.ok (if 20000000 < 10000000 + w then _ else _) = _
  rw [if_neg (by omega)]

theorem higherSort_bits_float (fits : w ≤ 64) : higherSort (.bitVec w) (.float p.format) = .ok (.float p.format) := by
  show Except.ok (if 10000000 + w < 30000000 + p.format.width then _ else _) = _
  rw [if_pos (by omega)]

theorem higherSort_float_bits (fits : w ≤ 64) : higherSort (.float p.format) (.bitVec w) = .ok (.float p.format) := by
  show Except.ok (if 30000000 + p.format.width < 10000000 + w then _ else _) = _
  rw [if_neg (by omega)]

theorem higherSort_bool_float : higherSort .bool (.float p.format) = .ok (.float p.format) := by cases p <;> rfl

theorem higherSort_float_bool : higherSort (.float p.format) .bool = .ok (.float p.format) := by cases p <;> rfl

theorem higherSort_floats (p q : Precision) :
    higherSort (.float p.format) (.float q.format) = .ok (.float (p.wider q).format) := by
  cases p <;> cases q <;> rfl

end Ranks

/-- Where an operand is a float, both are brought to floats of one precision, as the machine does. -/
theorem align_floats (ha : Enters ρ a d) (hb : Enters ρ b e) (aligned : align l a b = .ok (a', b'))
    (floats : (∃ p x, d = .float p x) ∨ ∃ p x, e = .float p x) :
    ∃ p : Precision, (∀ op : Operator, op.data? d e = op.asFloats? p d e) ∧
      convert l a (.float p.format) = .ok a' ∧ convert (l + 16) b (.float p.format) = .ok b' := by
  obtain ⟨first, target, higher, higher', left, right⟩ := align_ok aligned
  cases ha with
  | @float p x sorted value =>
    rw [sorted.1, higherSort_bits_float (by decide)] at higher
    cases higher
    cases hb with
    | truth sorted' =>
      rw [sorted'.1, higherSort_float_bool] at higher'
      cases higher'
      exact ⟨p, fun _ => rfl, left, right⟩
    | integer sorted' =>
      rw [sorted'.1, higherSort_float_bits (width_bounds sorted'.valued).2] at higher'
      cases higher'
      exact ⟨p, fun _ => rfl, left, right⟩
    | @float q y sorted' =>
      rw [sorted'.1, higherSort_floats] at higher'
      cases higher'
      exact ⟨p.wider q, fun _ => rfl, left, right⟩
  | truth sorted value =>
    obtain ⟨p, x, rfl⟩ := floats.resolve_left fun ⟨_, _, same⟩ => nomatch same
    cases hb with
    | float sorted' =>
      rw [sorted.1, higherSort_bits_bool (by decide)] at higher
      cases higher
      rw [sorted'.1, higherSort_bool_float] at higher'
      cases higher'
      exact ⟨p, fun _ => rfl, left, right⟩
  | @integer k n sorted inside value =>
    obtain ⟨p, x, rfl⟩ := floats.resolve_left fun ⟨_, _, same⟩ => nomatch same
    cases hb with
    | float sorted' =>
      have fits := (width_bounds sorted.valued).2
      rw [sorted.1, higherSort_bits] at higher
      cases higher
      rw [sorted'.1, higherSort_bits_float (by omega)] at higher'
      cases higher'
      exact ⟨p, fun _ => rfl, left, right⟩

/-- Where an operand is a truth value and none a float, both are brought to truth values. -/
theorem align_truths (ha : Enters ρ a (.integer k m)) (hb : Enters ρ b (.integer k' n))
    (aligned : align l a b = .ok (a', b')) (bool : a.sort = .bool ∨ b.sort = .bool) :
    convert l a .bool = .ok a' ∧ convert (l + 16) b .bool = .ok b' := by
  obtain ⟨first, target, higher, higher', left, right⟩ := align_ok aligned
  suffices h : target = .bool by
    subst h
    exact ⟨left, right⟩
  cases ha with
  | truth sorted =>
    rw [sorted.1, higherSort_bits_bool (by decide)] at higher
    cases higher
    cases hb with
    | truth sorted' =>
      rw [sorted'.1] at higher'
      cases higher'
      rfl
    | integer sorted' =>
      rw [sorted'.1, higherSort_bool_bits (width_bounds sorted'.valued).2] at higher'
      cases higher'
      rfl
  | integer sorted =>
    have fits := (width_bounds sorted.valued).2
    rw [sorted.1, higherSort_bits] at higher
    cases higher
    rw [bool.resolve_left (by simp [sorted.1]), higherSort_bits_bool (by omega)] at higher'
    cases higher'
    rfl

/-- A promoted operand that is brought to a truth value tells whether its number is zero. -/
theorem Enters.convert_bool (h : Enters ρ a (.integer k n)) (made : convert l a .bool = .ok t) :
    t.OfSort .bool ∧ t.denote ρ = some (.bool (n ≠ 0)) := by
  cases h with
  | @truth b sorted value =>
    unfold convert at made
    rw [if_pos sorted.1] at made
    cases made
    have same : decide (b.toInt ≠ 0) = b := by cases b <;> rfl
    exact ⟨sorted, value.trans (by rw [same])⟩
  | integer sorted inside value =>
    obtain ⟨pos, fits⟩ := width_bounds sorted.valued
    refine ⟨sorted.convert rfl made, ?_⟩
    rw [Value.ofInt_eq_ofVector fits] at value
    refine (Decided.number sorted value ?_).convert made
    exact decide_eq_decide.2 (not_congr (Operator.ofInt_eq_zero_iff pos inside))

theorem Enters.inRange (h : Enters ρ a (.integer k n)) : Bits.InRange true k.entry n := by
  cases h with
  | @truth b => cases b <;> decide
  | integer _ inside => exact inside

theorem Enters.zero_or_one (h : Enters ρ a (.integer k n)) (bool : a.sort = .bool) : k = .int ∧ (n = 0 ∨ n = 1) := by
  cases h with
  | @truth b => cases b <;> decide
  | integer sorted => cases sorted.1.symm.trans bool

section Applied

variable {op : Operator} {v : Value}

/-- Floats decide as the machine compares them, whatever is brought to a float. -/
theorem Enters.apply_floats (ha : Enters ρ a d) (hb : Enters ρ b e) (made : op.apply l a b = .ok t)
    (floats : (∃ p x, d = .float p x) ∨ ∃ p x, e = .float p x) (result : op.data? d e = some v)
    (truth : v.truth? = some r) : Decided ρ t r := by
  obtain ⟨⟨a', b'⟩, aligned, made⟩ := except_bind_ok.1 made
  dsimp only at made
  obtain ⟨p, brought, left, right⟩ := align_floats ha hb aligned floats
  obtain ⟨sorted, x, hx, first⟩ := ha.convert_float left
  obtain ⟨sorted', y, hy, second⟩ := hb.convert_float right
  rw [sorted.1] at made
  rw [brought, Operator.asFloats?, hx, hy] at result
  exact Operator.onFloats_decided sorted sorted' first second made result truth

/-- Beside a truth value a number decides as the machine's result does, if it can stand for a truth value. -/
theorem Enters.apply_truths (ha : Enters ρ a (.integer k m)) (hb : Enters ρ b (.integer k' n))
    (made : op.apply l a b = .ok t) (bool : a.sort = .bool ∨ b.sort = .bool) (plain : m = 0 ∨ n = 0 ∨ m = n)
    (truth : (op.onNumbers (k.promoted k').width m n).truth? = some r) : Decided ρ t r := by
  obtain ⟨⟨a', b'⟩, aligned, made⟩ := except_bind_ok.1 made
  dsimp only at made
  obtain ⟨left, right⟩ := align_truths ha hb aligned bool
  obtain ⟨sorted, first⟩ := ha.convert_bool left
  obtain ⟨sorted', second⟩ := hb.convert_bool right
  rw [sorted.1] at made
  obtain ⟨q, given, sort, value⟩ := Operator.onBools_truths sorted sorted' first second made
  have wider := IntegerTy.width_promoted k k'
  have hm : Bits.InRange true (k.promoted k').width m := ha.inRange.mono (by omega)
  have hn : Bits.InRange true (k.promoted k').width n := hb.inRange.mono (by omega)
  have pos := (k.promoted k').width_bounds.1
  cases (Operator.truth?_onNumbers pos hm hn plain given).symm.trans truth
  exact .truth sort value

/-- Numbers of two integer types decide as the machine's result at the wider one. -/
theorem Enters.apply_integers (ha : Enters ρ a (.integer k m)) (hb : Enters ρ b (.integer k' n))
    (made : op.apply l a b = .ok t) (numbers : ¬ (a.sort = .bool ∨ b.sort = .bool))
    (defined : op.isDivision = true → n ≠ 0)
    (truth : (op.onNumbers (k.promoted k').width m n).truth? = some r) : Decided ρ t r := by
  obtain ⟨⟨a', b'⟩, aligned, made⟩ := except_bind_ok.1 made
  dsimp only at made
  have wider := IntegerTy.width_promoted k k'
  have hm : Bits.InRange true (k.promoted k').width m := ha.inRange.mono (by omega)
  have hn : Bits.InRange true (k.promoted k').width n := hb.inRange.mono (by omega)
  cases ha with
  | truth sorted => exact absurd (.inl sorted.1) numbers
  | integer sorted inside first =>
  cases hb with
  | truth sorted' => exact absurd (.inr sorted'.1) numbers
  | integer sorted' inside' second =>
  obtain ⟨x, y, aligned', left, right⟩ := align_carries (l := l) sorted sorted'
  cases aligned'.symm.trans aligned
  rw [← wider] at left right
  rw [left.ofSort.1] at made
  cases made
  have wide : (k.promoted k').width = 32 ∨ (k.promoted k').width = 64 := by cases k <;> cases k' <;> decide
  have sort := Operator.ofSort_onBits (l := l + 32) ((k.promoted k').sort_ty ▸ left.ofSort)
    ((k.promoted k').sort_ty ▸ right.ofSort) op
  refine .of_value sort ?_ (Operator.hasSort_onNumbers op (k.promoted k') m n) truth
  exact Operator.denote_onBits wide left.ofSort right.ofSort hm hn (left.value ρ m inside first)
    (right.value ρ n inside' second) op defined

/-- Where an operand is a truth value, the other one can stand for one unless the first is true and it is none. -/
theorem Enters.plain (ha : Enters ρ a (.integer k m)) (hb : Enters ρ b (.integer k' n))
    (bool : a.sort = .bool ∨ b.sort = .bool)
    (clear : a.sort = .bool → m = 1 → b.sort ≠ .bool → n = 0 ∨ n = 1)
    (clear' : b.sort = .bool → n = 1 → a.sort ≠ .bool → m = 0 ∨ m = 1) : m = 0 ∨ n = 0 ∨ m = n := by
  by_cases one : a.sort = .bool
  · obtain ⟨-, rfl | rfl⟩ := ha.zero_or_one one
    · exact .inl rfl
    · by_cases other : b.sort = .bool
      · exact .inr ((hb.zero_or_one other).2.imp_right Eq.symm)
      · exact .inr ((clear one rfl other).imp_right Eq.symm)
  · have other := bool.resolve_left one
    obtain ⟨-, rfl | rfl⟩ := hb.zero_or_one other
    · exact .inr (.inl rfl)
    · exact (clear' other rfl one).imp_right .inr

/-- A datum is a number, if it is no float. -/
theorem Enters.exists_integer (h : Enters ρ a d) (other : ¬ ∃ p x, d = .float p x) : ∃ k n, d = .integer k n := by
  cases h with
  | float => exact absurd ⟨_, _, rfl⟩ other
  | _ => exact ⟨_, _, rfl⟩

/-- What an operator gives for promoted operands decides as the machine's result on their data, unless one of
them is true and the other one a number that is no truth value. -/
theorem Enters.apply (ha : Enters ρ a d) (hb : Enters ρ b e) (made : op.apply l a b = .ok t)
    (result : op.data? d e = some v) (truth : v.truth? = some r)
    (clear : a.sort = .bool → d = .integer .int 1 → b.sort ≠ .bool → ∀ k n, e = .integer k n → n = 0 ∨ n = 1)
    (clear' : b.sort = .bool → e = .integer .int 1 → a.sort ≠ .bool → ∀ k n, d = .integer k n → n = 0 ∨ n = 1) :
    Decided ρ t r := by
  by_cases floats : (∃ p x, d = .float p x) ∨ ∃ p x, e = .float p x
  · exact ha.apply_floats hb made floats result truth
  obtain ⟨k, m, rfl⟩ := ha.exists_integer fun float => floats (.inl float)
  obtain ⟨k', n, rfl⟩ := hb.exists_integer fun float => floats (.inr float)
  obtain ⟨rfl, defined⟩ := Operator.integers?_eq_some result
  by_cases bool : a.sort = .bool ∨ b.sort = .bool
  · refine ha.apply_truths hb made bool (ha.plain hb bool ?_ ?_) truth
    · intro one same other
      exact clear one (by rw [(ha.zero_or_one one).1, same]) other k' n rfl
    · intro one same other
      exact clear' one (by rw [(hb.zero_or_one one).1, same]) other k m rfl
  · exact ha.apply_integers hb made bool defined truth

end Applied

end Term

namespace Machine

variable {σ : Assignment} {l : Label} {op : Operator} {v w r : SymValue} {s u ty : Ty} {a t : Term} {d e : Datum}
  {x : Value} {q : Bool}

/-- A primitive operand stands for its datum once it is promoted. -/
theorem enters_of_promote (sorted : a.OfSort ty.sort) (shows : SymValue.Shows σ (.primitive ty a) d)
    (made : promote l ty a = .ok t) :
    t.Enters σ.valuation d ∧ (t.sort = .bool ↔ ty = .boolean) := by
  cases shows with
  | truth value =>
    cases made
    rw [← Term.value?_eq_some, Term.value?_eq_denote] at value
    exact ⟨.truth sorted value, iff_of_true sorted.1 rfl⟩
  | @integer k _ n shows =>
    obtain ⟨t', promoted, carries⟩ := k.promote_carries (l := l) sorted
    cases promoted.symm.trans made
    refine ⟨.integer carries.ofSort shows.holds.entry (carries.value _ _ shows.holds shows.denote), ?_⟩
    refine iff_of_false ?_ k.ty_ne_boolean
    rw [carries.ofSort.1]
    exact TermSort.noConfusion
  | @float p _ x value =>
    rw [promote, if_neg p.ty_ne_char] at made
    cases made
    rw [p.sort_ty] at sorted
    rw [← Term.value?_eq_some, Term.value?_eq_denote] at value
    refine ⟨.float sorted value, iff_of_false ?_ p.ty_ne_boolean⟩
    rw [sorted.1]
    exact TermSort.noConfusion

/-- An operator applies to two addresses, or to two data that are no addresses. -/
theorem kinds_of_applied (hv : v.HasType s) (hw : w.HasType u) (first : v.Shows σ d) (second : w.Shows σ e)
    (made : applied l op v w = .ok t) :
    (∀ n, d ≠ .object n) ∧ (∀ n, e ≠ .object n) ∨ s.isReference = true ∧ ∃ m n, d = .object m ∧ e = .object n := by
  have kind := first.object_iff hv
  have kind' := second.object_iff hw
  cases v with
  | primitive =>
    cases w with
    | reference => cases made
    | primitive =>
      rw [hv.of_primitive.2.1] at kind
      rw [hw.of_primitive.2.1] at kind'
      exact .inl ⟨fun n same => (nomatch kind.2 ⟨n, same⟩), fun n same => nomatch kind'.2 ⟨n, same⟩⟩
  | reference =>
    cases w with
    | primitive => cases made
    | reference =>
      obtain ⟨m, object⟩ := kind.1 hv.of_reference.2.1
      obtain ⟨n, object'⟩ := kind'.1 hw.of_reference.2.1
      exact .inr ⟨hv.of_reference.2.1, m, n, object, object'⟩

/-- The term of an operator on two values decides as the machine's result on their data, unless one of them is
true and the other one a number that is no truth value. -/
theorem decided_of_applied (hv : v.HasType s) (hw : w.HasType u) (first : v.Shows σ d) (second : w.Shows σ e)
    (made : applied l op v w = .ok t) (result : op.data? d e = some x) (truth : x.truth? = some q)
    (clear : ¬ v.Blurs w d e) (clear' : ¬ w.Blurs v e d) : t.Decided σ.valuation q := by
  cases v with
  | primitive ty a =>
    cases w with
    | reference => cases made
    | primitive ty' b =>
    obtain ⟨rfl, -, sorted⟩ := hv.of_primitive
    obtain ⟨rfl, -, sorted'⟩ := hw.of_primitive
    obtain ⟨a', left, made⟩ := except_bind_ok.1 made
    obtain ⟨b', right, made⟩ := except_bind_ok.1 made
    obtain ⟨ha, kind⟩ := enters_of_promote sorted first left
    obtain ⟨hb, kind'⟩ := enters_of_promote sorted' second right
    refine ha.apply hb made result truth (fun bool one other k n number => ?_) fun bool one other k n number => ?_
    · by_contra none
      exact clear ⟨kind.1 bool, one, fun same => other (kind'.2 same), k, n, number, not_or.1 none⟩
    · by_contra none
      exact clear' ⟨kind'.1 bool, one, fun same => other (kind.2 same), k, n, number, not_or.1 none⟩
  | reference ty a =>
    cases w with
    | primitive => cases made
    | reference ty' b =>
    obtain ⟨rfl, -, sorted⟩ := hv.of_reference
    obtain ⟨rfl, -, sorted'⟩ := hw.of_reference
    cases first with
    | object shows =>
    cases second with
    | object shows' =>
    have enters {c : Term} {n : Int} (sorted : c.OfSort Address.sort) (shows : IntegerTy.int.Shows σ c n) :
        c.Enters σ.valuation (.integer .int n) := .integer sorted shows.holds.entry shows.denote
    have number : ∀ {c : Term}, c.OfSort Address.sort → c.sort ≠ .bool := fun sorted => by
      rw [sorted.1]
      nofun
    refine (enters sorted shows).apply (enters sorted' shows') made (Operator.data?_of_objects result) truth ?_ ?_
    · exact fun bool => absurd bool (number sorted)
    · exact fun bool => absurd bool (number sorted')

/-- Where the result of an operator is a condition, that is the operator's term as a truth value. -/
theorem condition_of_operate (hv : v.HasType s) (hw : w.HasType u) (made : operate l op v w ty = .ok r)
    (bool : condition r = .ok t) : ∃ a, applied l op v w = .ok a ∧
      ∀ ρ q, a.Decided ρ q → t.denote ρ = some (.bool q) := by
  rw [operate_eq] at made
  obtain ⟨a, applied, made⟩ := except_bind_ok.1 made
  obtain ⟨t', converted, made⟩ := except_bind_ok.1 made
  cases made
  obtain ⟨rfl, sort⟩ := condition_ok bool
  refine ⟨a, applied, fun ρ q decided => ?_⟩
  unfold fitted at converted
  split at converted
  next primitive =>
    have target : ty.sort = .bool :=
      ((applied_ofSort hv hw applied).convert ty.sort_valued converted).1.symm.trans sort
    rw [target] at converted
    exact decided.convert converted
  next =>
    cases converted
    refine decided.convert (l := l) ?_
    unfold Term.convert
    rw [if_pos]
    exact sort

end Machine
end SinkReach
