import SinkReach.Proofs.Symbolic.Integral
import SinkReach.Proofs.Term.Bits

/-!
Tests of the key of a switch. Every test widens the key anew, under labels of its own, but the value is
the same each time; a number of the range of `int` has one pattern at each width. So a key that equals
one number equals no other, and is neither below its least number nor above its greatest.
-/
namespace SinkReach

namespace Bits

/-- The number is one of `int`. -/
def isInt (n : Int) : Bool := decide (-2147483648 ≤ n ∧ n ≤ 2147483647)

theorem modulus_ge {w : Nat} (h : 32 ≤ w) : 4294967296 ≤ modulus w := by
  rw [modulus_eq]
  exact Nat.pow_le_pow_right (n := 2) (i := 32) (by decide) (Nat.le_min.2 ⟨h, by decide⟩)

theorem mask_ofInt (n : Int) (w : Nat) : mask (ofInt n w) w = ofInt n w := by
  have pos : 0 < (modulus w : Int) := by
    rw [modulus_eq]
    exact Int.natCast_pos.2 (Nat.pow_pos (by decide))
  have lt := Int.emod_lt_of_pos n pos
  have nonneg := Int.emod_nonneg n (Int.ne_of_gt pos)
  exact Nat.mod_eq_of_lt (by unfold ofInt; omega)

/-- A number of `int` is read back at every width from 32 bits on. -/
theorem toInt_ofInt {n : Int} (int : isInt n = true) {w : Nat} (h : 32 ≤ w) : toInt (ofInt n w) w = n := by
  have large := modulus_ge h
  have masked : ofInt n w % modulus w = ofInt n w := mask_ofInt n w
  unfold isInt at int
  rw [decide_eq_true_iff] at int
  unfold toInt
  simp only [masked]
  unfold ofInt
  by_cases sign : 0 ≤ n
  · have rem : n % (modulus w : Int) = n := Int.emod_eq_of_lt sign (by omega)
    rw [rem, if_pos (by omega)]
    omega
  · have rem : n % (modulus w : Int) = n + modulus w := by
      rw [← Int.add_emod_right, Int.emod_eq_of_lt (by omega) (by omega)]
    rw [rem, if_neg (by omega)]
    omega

end Bits

namespace Term

variable {ρ : Valuation} {l l' : Label} {a a' b t : Term} {v w : Nat}

theorem sort_of_alike (h : a.alike a' = true) : a.sort = a'.sort := by
  induction a generalizing a' with
  | leaf l x =>
    cases a' <;> simp only [alike, Bool.false_eq_true, beq_iff_eq] at h
    rw [sort, sort, h]
  | unary l op a ih =>
    cases a' <;> simp only [alike, Bool.false_eq_true, Bool.and_eq_true, beq_iff_eq] at h
    rw [sort_unary, sort_unary, h.1, ih h.2]
  | binary l op a b ih =>
    cases a' <;> simp only [alike, Bool.false_eq_true, Bool.and_eq_true, beq_iff_eq] at h
    rw [sort_binary, sort_binary, h.1.1, ih h.1.2]
  | ternary l op a b c iha ihb =>
    cases a' <;> simp only [alike, Bool.false_eq_true, Bool.and_eq_true, beq_iff_eq] at h
    obtain ⟨⟨⟨rfl, ha⟩, hb⟩, -⟩ := h
    cases op with
    | ite => exact (ihb hb :)
    | store => exact (iha ha :)
  | junction l op items =>
    cases a' <;> simp only [alike, Bool.false_eq_true] at h
    rfl

theorem isLiteral_of_alike (h : a.alike a' = true) : a.isLiteral = a'.isLiteral := by
  cases a <;> cases a' <;> simp only [alike, Bool.false_eq_true, beq_iff_eq] at h
  · subst h
    cases ‹Atom› <;> rfl
  all_goals rfl

theorem toLiteral?_alike (x : Value) (h : t.alike a = true) :
    ((x.toLiteral? l).getD t).alike ((x.toLiteral? l').getD a) = true := by
  cases x with
  | bool | bitVec | float => simp [Value.toLiteral?, alike]
  | array => exact h

/-- Computing an operation at once does not depend on labels. -/
theorem fold_alike {op : UnaryOp} (h : a.alike a' = true) :
    (fold (unary l op a)).alike (fold (unary l' op a')) = true := by
  have whole : (unary l op a).alike (unary l' op a') = true := by simp [alike, h]
  have value := value?_of_alike {} whole
  unfold fold
  rw [sort_of_alike whole]
  simp only [children, List.all_cons, List.all_nil, Bool.and_true, isLiteral_of_alike h]
  split
  · exact whole
  · unfold value? at value
    cases left : (unary l op a).eval {} with
    | ok x =>
      rw [left] at value
      rw [toOption_eq_some.1 value.symm]
      exact toLiteral?_alike x whole
    | error e =>
      cases right : (unary l' op a').eval {} with
      | ok x =>
        rw [left, right] at value
        cases value
      | error e' => exact whole

theorem resize_alike {signed : Bool} (h : a.alike a' = true) :
    (resize l a v w signed).alike (resize l' a' v w signed) = true := by
  unfold resize
  split
  · exact h
  · split
    · split
      · unfold signExtend
        split
        · exact h
        · exact fold_alike h
      · unfold zeroExtend
        split
        · exact h
        · exact fold_alike h
    · unfold extract
      rw [sort_of_alike h]
      split
      · exact h
      · exact fold_alike h

theorem convert_bits (sort : a.sort = .bitVec v) : convert l a (.bitVec w) = .ok (resize l a v w true) := by
  unfold convert
  rw [sort]
  split
  next same =>
    cases same
    unfold resize
    rw [if_pos rfl]
  next => rfl

theorem cast_char_int (sort : a.sort = .bitVec v) : cast l a .char .int =
    if 32 ≤ v then convert l a (.bitVec 32)
    else convert l (resize (l + 16) a v 32 false) (.bitVec 32) := by
  unfold cast
  rw [if_neg (by decide), sort]
  rfl

theorem higherSort_bits (v w : Nat) : higherSort (.bitVec v) (.bitVec w) = .ok (.bitVec (max v w)) := by
  show Except.ok (if 10000000 + v < 10000000 + w then TermSort.bitVec w else .bitVec v) = _
  by_cases less : v < w
  · rw [if_pos (by omega), Nat.max_eq_right (by omega)]
  · rw [if_neg (by omega), Nat.max_eq_left (by omega)]

/-- A number of `int` has its own pattern at every width that it is extended to. -/
theorem denote_resize_ofInt {n : Int} (int : Bits.isInt n = true) (h : 32 ≤ w) :
    (resize l (ofInt l' n 32) 32 w true).denote ρ = some (.bitVec (Bits.ofInt n w) w) := by
  unfold resize
  split
  next same =>
    subst same
    rfl
  next other =>
    rw [if_pos (by omega), if_pos rfl]
    unfold signExtend
    rw [if_neg (by omega)]
    have value : (unary l (.signExtend (w - 32)) (ofInt l' n 32)).eval {} =
        .ok (.ofInt (Bits.toInt (Bits.ofInt n 32) 32) (32 + (w - 32))) := rfl
    have literal : (fold (unary l (.signExtend (w - 32)) (ofInt l' n 32))) =
        leaf l (.bitVec (Bits.mask (Bits.ofInt (Bits.toInt (Bits.ofInt n 32) 32) (32 + (w - 32)))
          (32 + (w - 32))) (32 + (w - 32))) := by
      unfold fold
      rw [value]
      rfl
    rw [literal, Bits.toInt_ofInt int (Nat.le_refl 32), Bits.mask_ofInt, Nat.add_sub_cancel' h]
    rfl

theorem bool_of_eval_binary {op : BinaryOp} (bools : ∀ x y r, op.denote x y = some r → ∃ p, r = .bool p)
    {x : Value} (h : (binary l op a b).eval {} = .ok x) : ∃ p, x = .bool p := by
  rw [← value?_eq_some, value?_binary] at h
  obtain ⟨u, -, h⟩ := Option.bind_eq_some_iff.1 h
  obtain ⟨u', -, h⟩ := Option.bind_eq_some_iff.1 h
  exact bools u u' x h

theorem BinaryOp.bool_of_eq (x y r : Value) (h : BinaryOp.eq.denote x y = some r) : ∃ p, r = .bool p := by
  cases h
  exact ⟨_, rfl⟩

theorem BinaryOp.bool_of_compare (op : Bits.CompareOp) (x y r : Value)
    (h : (BinaryOp.compare op).denote x y = some r) : ∃ p, r = .bool p := by
  cases x with
  | bitVec =>
    cases y with
    | bitVec =>
      cases h
      exact ⟨_, rfl⟩
    | bool | float | array => cases h
  | bool | float | array => cases h

theorem sort_fold_binary {op : BinaryOp} (sort : (binary l op a b).sort = .bool)
    (bools : ∀ x y r, op.denote x y = some r → ∃ p, r = .bool p) : (fold (binary l op a b)).sort = .bool := by
  unfold fold
  split
  · exact sort
  · split
    next value =>
      obtain ⟨p, rfl⟩ := bool_of_eval_binary bools value
      rfl
    next => exact sort

/-- Whatever equals a bit vector is that bit vector. -/
theorem denote_of_eq {x : Nat} (h : (eq l a b).denote ρ = some (.bool true))
    (literal : b.denote ρ = some (.bitVec x w)) : a.denote ρ = some (.bitVec x w) := by
  unfold eq at h
  split at h
  next same => exact (same_denote same ρ).trans literal
  next =>
    rw [denote_fold_of_bools fun _ => bool_of_eval_binary BinaryOp.bool_of_eq, denote, literal] at h
    obtain ⟨u, value, h⟩ := Option.bind_eq_some_iff.1 h
    have same : u.same (.bitVec x w) = true := Value.bool.inj (Option.some.inj h)
    rw [Value.same_iff_alike (.inr rfl)] at same
    cases same
    exact value

/-- Comparisons are those of the signed numbers at the first operand's width. -/
theorem denote_of_compare {op : Bits.CompareOp} {x : Nat} (h : (compare l op a b).denote ρ = some (.bool true))
    (literal : b.denote ρ = some (.bitVec x w)) :
    ∃ y v, a.denote ρ = some (.bitVec y v) ∧ op.holds (Bits.toInt y v) (Bits.toInt x v) = true := by
  unfold compare at h
  rw [denote_fold_of_bools fun _ => bool_of_eval_binary (BinaryOp.bool_of_compare op), denote, literal] at h
  obtain ⟨u, value, h⟩ := Option.bind_eq_some_iff.1 h
  cases u with
  | bitVec y v =>
    refine ⟨y, v, value, ?_⟩
    exact Value.bool.inj (Option.some.inj h)
  | bool | float | array => cases h

/-- No valuation makes both terms true. -/
def Excludes (t u : Term) : Prop :=
  ∀ ρ : Valuation, t.denote ρ = some (.bool true) → u.denote ρ ≠ some (.bool true)

theorem excludes_not : a.Excludes (not l a) := by
  intro ρ true false
  rw [denote_not_iff, true] at false
  cases false

end Term

section Keys

open Term

variable {F : Field → Prop} {s : Ty} {a : Term} {op : Operator} {n m : Int} {t u : Term}

/-- A term that the key of a type is compared as, at a width. -/
inductive Widened (s : Ty) (a : Term) : Nat → Term → Prop
  | mk {p : Term} {w : Nat} (l l' : Label) : Machine.promote l s a = .ok p → p.sort = .bitVec w →
    Widened s a (max 32 w) (resize l' p w (max 32 w) true)

theorem promote_alike (bits : a.IsBits) {l l' : Label} {p p' : Term} (h : Machine.promote l s a = .ok p)
    (h' : Machine.promote l' s a = .ok p') : p.alike p' = true := by
  obtain ⟨w, sort⟩ := bits
  unfold Machine.promote at h h'
  by_cases char : s = .char
  · rw [if_pos char, cast_char_int sort] at h h'
    by_cases wide : 32 ≤ w
    · rw [if_pos wide, convert_bits sort] at h h'
      cases h
      cases h'
      exact resize_alike (alike_refl a)
    · rw [if_neg wide] at h h'
      have sorts : (resize (l + 16) a w 32 false).sort = (resize (l' + 16) a w 32 false).sort :=
        sort_of_alike (resize_alike (alike_refl a))
      obtain ⟨v, extended⟩ : (resize (l + 16) a w 32 false).IsBits := resize_isBits ⟨w, sort⟩
      rw [convert_bits extended] at h
      rw [convert_bits (sorts ▸ extended)] at h'
      cases h
      cases h'
      exact resize_alike (resize_alike (alike_refl a))
  · rw [if_neg char] at h h'
    cases h
    cases h'
    exact alike_refl a

theorem promote_isBits (bits : a.IsBits) {l : Label} {p : Term} (h : Machine.promote l s a = .ok p) :
    p.IsBits := by
  unfold Machine.promote at h
  split at h
  · exact cast_isBits (w := 32) (by decide) rfl h
  · cases h
    exact bits

theorem Widened.isBits {w : Nat} (h : Widened s a w t) : t.IsBits := by
  obtain ⟨l, l', -, sort⟩ := h
  exact resize_isBits ⟨_, sort⟩

/-- A key has one width and one value, whatever the labels. -/
theorem Widened.unique (bits : a.IsBits) {v w : Nat} (h : Widened s a v t) (h' : Widened s a w u)
    (ρ : Valuation) : v = w ∧ t.denote ρ = u.denote ρ := by
  obtain ⟨l₁, l₂, promoted, sort⟩ := h
  obtain ⟨l₃, l₄, promoted', sort'⟩ := h'
  have alike := promote_alike bits promoted promoted'
  rw [sort_of_alike alike, sort'] at sort
  cases sort
  exact ⟨rfl, denote_of_alike ρ (resize_alike alike)⟩

/-- What a test that is true says about the value of a key at a width. -/
def Operator.Passes (op : Operator) (n : Int) (w : Nat) (x : Value) : Prop :=
  match op with
  | eq => x = .bitVec (Bits.ofInt n w) w
  | lt => ∃ y v, x = .bitVec y v ∧ Bits.toInt y v < Bits.toInt (Bits.ofInt n w) v
  | gt => ∃ y v, x = .bitVec y v ∧ Bits.toInt (Bits.ofInt n w) v < Bits.toInt y v
  | _ => True

/-- The term tests the key of a type against a number. -/
def TestsKey (s : Ty) (a : Term) (op : Operator) (n : Int) (t : Term) : Prop :=
  ∀ ρ : Valuation, t.denote ρ = some (.bool true) →
    ∃ w r x, 32 ≤ w ∧ Widened s a w r ∧ r.denote ρ = some x ∧ op.Passes n w x

/-- Two tests of one key see the same value. -/
theorem TestsKey.both (bits : a.IsBits) {op' : Operator} (h : TestsKey s a op n t)
    (h' : TestsKey s a op' m u) {ρ : Valuation} (ht : t.denote ρ = some (.bool true))
    (hu : u.denote ρ = some (.bool true)) : ∃ w x, 32 ≤ w ∧ op.Passes n w x ∧ op'.Passes m w x := by
  obtain ⟨w, r, x, wide, key, value, passes⟩ := h ρ ht
  obtain ⟨w', r', x', -, key', value', passes'⟩ := h' ρ hu
  obtain ⟨rfl, same⟩ := key.unique bits key' ρ
  cases value.symm.trans (same.trans value')
  exact ⟨w, x, wide, passes, passes'⟩

theorem TestsKey.eq_excludes_eq (bits : a.IsBits) (hn : Bits.isInt n = true) (hm : Bits.isInt m = true)
    (other : n ≠ m) (h : TestsKey s a .eq n t) (h' : TestsKey s a .eq m u) : t.Excludes u := by
  intro ρ ht hu
  obtain ⟨w, x, wide, passes, passes'⟩ := h.both bits h' ht hu
  obtain ⟨same, -⟩ := Value.bitVec.inj (passes.symm.trans passes')
  have numbers := congrArg (Bits.toInt · w) same
  simp only [Bits.toInt_ofInt hn wide, Bits.toInt_ofInt hm wide] at numbers
  exact other numbers

theorem TestsKey.eq_excludes_lt (bits : a.IsBits) (hn : Bits.isInt n = true) (hm : Bits.isInt m = true)
    (le : m ≤ n) (h : TestsKey s a .eq n t) (h' : TestsKey s a .lt m u) : t.Excludes u := by
  intro ρ ht hu
  obtain ⟨w, x, wide, rfl, y, v, same, less⟩ := h.both bits h' ht hu
  obtain ⟨rfl, rfl⟩ := Value.bitVec.inj same
  rw [Bits.toInt_ofInt hn wide, Bits.toInt_ofInt hm wide] at less
  omega

theorem TestsKey.eq_excludes_gt (bits : a.IsBits) (hn : Bits.isInt n = true) (hm : Bits.isInt m = true)
    (le : n ≤ m) (h : TestsKey s a .eq n t) (h' : TestsKey s a .gt m u) : t.Excludes u := by
  intro ρ ht hu
  obtain ⟨w, x, wide, rfl, y, v, same, greater⟩ := h.both bits h' ht hu
  obtain ⟨rfl, rfl⟩ := Value.bitVec.inj same
  rw [Bits.toInt_ofInt hn wide, Bits.toInt_ofInt hm wide] at greater
  omega

/-- The operands of a test: the widened key, and the number at the key's width. -/
theorem align_key (int : Bits.isInt n = true) {l l₀ l₁ : Label} {p r k : Term} {v : Nat}
    (promoted : Machine.promote l s a = .ok p) (sort : p.sort = .bitVec v)
    (h : align l₁ p (ofInt l₀ n 32) = .ok (r, k)) :
    ∃ w, 32 ≤ w ∧ Widened s a w r ∧ ∀ ρ, k.denote ρ = some (.bitVec (Bits.ofInt n w) w) := by
  have wide : 32 ≤ max 32 v := Nat.le_max_left 32 v
  unfold align at h
  obtain ⟨target, higher, h⟩ := except_bind_ok.1 h
  rw [sort, higherSort_bits] at higher
  cases higher
  obtain ⟨target, higher, h⟩ := except_bind_ok.1 h
  obtain rfl : TermSort.bitVec (max (max 32 v) 32) = target := Except.ok.inj ((higherSort_bits ..).symm.trans higher)
  rw [Nat.max_eq_left wide, convert_bits sort, convert_bits (v := 32) rfl] at h
  cases h
  exact ⟨max 32 v, wide, .mk l l₁ promoted sort, fun ρ => denote_resize_ofInt int wide⟩

/-- Operators that keys are tested with. -/
def Operator.isKeyTest : Operator → Bool
  | eq | lt | gt => true
  | _ => false

theorem sort_onBits (test : op.isKeyTest = true) (l : Label) (r k : Term) (v : Nat) :
    (op.onBits l r k v).sort = .bool := by
  cases op with
  | eq =>
    show (Term.eq l r k).sort = .bool
    unfold Term.eq
    split
    · rfl
    · exact sort_fold_binary rfl BinaryOp.bool_of_eq
  | lt | gt => exact sort_fold_binary rfl (BinaryOp.bool_of_compare _)
  | _ => cases test

/-- A true comparison of a term with a number says how its value compares. -/
theorem passes_of_onBits (test : op.isKeyTest = true) {l : Label} {r k : Term} {v w : Nat} {ρ : Valuation}
    (number : k.denote ρ = some (.bitVec (Bits.ofInt n w) w))
    (h : (op.onBits l r k v).denote ρ = some (.bool true)) : ∃ x, r.denote ρ = some x ∧ op.Passes n w x := by
  cases op with
  | eq => exact ⟨_, denote_of_eq h number, rfl⟩
  | lt =>
    obtain ⟨y, v, value, less⟩ := denote_of_compare h number
    exact ⟨_, value, y, v, rfl, of_decide_eq_true less⟩
  | gt =>
    obtain ⟨y, v, value, greater⟩ := denote_of_compare h number
    exact ⟨_, value, y, v, rfl, of_decide_eq_true greater⟩
  | _ => cases test

/-- A comparison of an integral key with a number of `int` tests the key. -/
theorem testsKey_of_operate (bits : a.IsBits) (int : Bits.isInt n = true) (test : op.isKeyTest = true)
    {l l₀ : Label} {x : SymValue}
    (h : Machine.operate l op (.primitive s a) (.primitive .int (ofInt l₀ n 32)) .boolean = .ok x)
    (condition : Machine.condition x = .ok t) : TestsKey s a op n t := by
  rw [Machine.operate_eq] at h
  obtain ⟨u, applied, h⟩ := except_bind_ok.1 h
  obtain ⟨u', fitted, h⟩ := except_bind_ok.1 h
  cases h
  obtain ⟨p, promoted, applied⟩ := except_bind_ok.1 applied
  obtain ⟨k, number, applied⟩ := except_bind_ok.1 applied
  cases number
  obtain ⟨⟨r, k⟩, aligned, applied⟩ := except_bind_ok.1 applied
  obtain ⟨v, sort⟩ := promote_isBits bits promoted
  obtain ⟨w, wide, key, number⟩ := align_key int promoted sort aligned
  obtain ⟨v', sort'⟩ := key.isBits
  simp only [sort'] at applied
  cases applied
  have bool := sort_onBits test (l + 32) r k v'
  simp only [Machine.fitted, bool, Ty.sort, ne_eq, not_true_eq_false, and_false, if_false] at fitted
  cases fitted
  simp only [Machine.condition, bool, if_true] at condition
  cases condition
  intro ρ holds
  obtain ⟨x, value, passes⟩ := passes_of_onBits test (number ρ) holds
  exact ⟨w, r, x, wide, key, value, passes⟩

theorem keeps_keyTest (bits : a.IsBits) (int : Bits.isInt n = true) (test : op.isKeyTest = true) :
    (Effect.keyTest (.primitive s a) op n).Keeps F (TestsKey s a op n) := by
  refine Run.Keeps.bind (P := fun v => ∃ l, v = .primitive .int (ofInt l n 32)) ?_ fun v number => ?_
  · exact Run.Keeps.bind Run.Keeps.freshLabel fun l _ => Run.Keeps.pure ⟨l, rfl⟩
  · obtain ⟨l₀, rfl⟩ := number
    refine Run.Keeps.bind (P := fun x => ∃ l, Machine.operate l op (.primitive s a)
      (.primitive .int (ofInt l₀ n 32)) .boolean = .ok x) ?_ fun x ⟨l, result⟩ => ?_
    · exact Run.Keeps.bind Run.Keeps.freshLabel fun l _ => Run.Keeps.lift fun x result => ⟨l, result⟩
    · exact Run.Keeps.lift fun t condition => testsKey_of_operate bits int test result condition

end Keys
end SinkReach
