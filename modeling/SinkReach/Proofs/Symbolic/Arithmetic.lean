import SinkReach.Proofs.Symbolic.Integers
import SinkReach.Proofs.Typing.Machine

/-!
Operators on integers. Both operands are promoted, a `char` without a sign, and the result is that of the
operation on their numbers, reduced to the width of the promoted type; casts reduce a number to the width
of the target.
-/
namespace SinkReach

namespace Operator

def isShift : Operator → Bool
  | shl | shr | ushr => true
  | _ => false

def isDivision : Operator → Bool
  | div | rem => true
  | _ => false

/-- Type of the result for operands of a promoted type. -/
def resultTy (op : Operator) (k : IntegerTy) : Ty :=
  match op with
  | add | sub | mul | div | rem | and | or | xor | shl | shr | ushr => k.ty
  | eq | ne | lt | le | gt | ge => .boolean
  | cmp | cmpl | cmpg => .int

/-- Result on two numbers of a promoted type. Quotients are rounded toward zero and remainders have the sign
of the dividend; the distance of a shift counts modulo the width. -/
def onNumbers (op : Operator) (w : Nat) (m n : Int) : Value :=
  match op with
  | add => .ofInt (m + n) w
  | sub => .ofInt (m - n) w
  | mul => .ofInt (m * n) w
  | div => .ofInt (m.tdiv n) w
  | rem => .ofInt (m.tmod n) w
  | and => .ofVector (BitVec.ofInt w m &&& BitVec.ofInt w n)
  | or => .ofVector (BitVec.ofInt w m ||| BitVec.ofInt w n)
  | xor => .ofVector (BitVec.ofInt w m ^^^ BitVec.ofInt w n)
  | shl => .ofInt (m * 2 ^ (n % w).toNat) w
  | shr => .ofInt (m / 2 ^ (n % w).toNat) w
  | ushr => .ofInt (m % 2 ^ w / 2 ^ (n % w).toNat) w
  | eq => .bool (m = n)
  | ne => .bool (m ≠ n)
  | lt => .bool (m < n)
  | le => .bool (m ≤ n)
  | gt => .bool (m > n)
  | ge => .bool (m ≥ n)
  | cmp | cmpl | cmpg => .ofInt (m - n).sign 32

end Operator

namespace Bits

variable {w : Nat} {m n : Int}

theorem distance_toNat (wide : w = 32 ∨ w = 64) :
    (BitVec.ofInt w n &&& BitVec.ofInt w ((w : Int) - 1)).toNat = (n % w).toNat := by
  have low (k : Nat) (x : Nat) : x &&& (2 ^ k - 1) = x % 2 ^ k := Nat.and_two_pow_sub_one_eq_mod x k
  rw [BitVec.toNat_and, BitVec.toNat_ofInt, BitVec.toNat_ofInt]
  rcases wide with rfl | rfl
  · refine (low 5 _).trans ?_
    omega
  · refine (low 6 _).trans ?_
    omega

theorem shiftLeft_eq_ofInt (y : BitVec w) : BitVec.ofInt w m <<< y = BitVec.ofInt w (m * 2 ^ y.toNat) := by
  have power : BitVec.twoPow w y.toNat = BitVec.ofInt w ((2 ^ y.toNat : Nat) : Int) := by
    apply BitVec.eq_of_toNat_eq
    rw [BitVec.toNat_twoPow, BitVec.ofInt_natCast, BitVec.toNat_ofNat]
  rw [BitVec.shiftLeft_eq', BitVec.shiftLeft_eq_mul_twoPow, power, ← BitVec.ofInt_mul]
  push_cast
  rfl

theorem sshiftRight_eq_ofInt (pos : 1 ≤ w) (h : InRange true w m) (y : BitVec w) :
    (BitVec.ofInt w m).sshiftRight' y = BitVec.ofInt w (m / 2 ^ y.toNat) := by
  rw [BitVec.sshiftRight', BitVec.sshiftRight_eq, toInt_ofInt_of_inRange pos h, Int.shiftRight_eq_div_pow]
  push_cast
  rfl

theorem ushiftRight_eq_ofInt (y : BitVec w) :
    BitVec.ofInt w m >>> y = BitVec.ofInt w (m % 2 ^ w / 2 ^ y.toNat) := by
  have pos : (0 : Int) < 2 ^ w := by exact_mod_cast Nat.two_pow_pos w
  have pattern : ((BitVec.ofInt w m).toNat : Int) = m % 2 ^ w := by
    rw [BitVec.toNat_ofInt, Int.toNat_of_nonneg (Int.emod_nonneg m (by push_cast; omega))]
    push_cast
    rfl
  have quotient : m % 2 ^ w / 2 ^ y.toNat = ((BitVec.ofInt w m).toNat / 2 ^ y.toNat : Nat) := by
    rw [Int.natCast_ediv, pattern]
    push_cast
    rfl
  have small := Nat.lt_of_le_of_lt (Nat.div_le_self _ (2 ^ y.toNat)) (BitVec.ofInt w m).isLt
  apply BitVec.eq_of_toNat_eq
  rw [quotient, BitVec.ofInt_natCast, BitVec.toNat_ofNat, BitVec.ushiftRight_eq', BitVec.toNat_ushiftRight,
    Nat.shiftRight_eq_div_pow, Nat.mod_eq_of_lt small]

end Bits

namespace Operator

open Value (ofVector)

variable {ρ : Valuation} {l : Label} {a b : Term} {m n : Int}

theorem ofSort_distance {w : Nat} (hb : b.OfSort (.bitVec w)) : (distance l b w).OfSort (.bitVec w) :=
  hb.bits2 (.ofInt _ (Term.width_bounds hb.valued).1 (Term.width_bounds hb.valued).2)

theorem denote_distance {w : Nat} (hb : b.OfSort (.bitVec w)) {y : BitVec w} (value : b.denote ρ = some (ofVector y)) :
    (distance l b w).denote ρ = some (ofVector (y &&& BitVec.ofInt w ((w : Int) - 1))) := by
  obtain ⟨pos, fits⟩ := Term.width_bounds hb.valued
  have mask : (Term.ofInt (l + 1) ((w : Int) - 1) w).denote ρ = some (ofVector (BitVec.ofInt w ((w : Int) - 1))) := by
    rw [← Value.ofInt_eq_ofVector fits]
    rfl
  exact Term.denote_bits2 hb (.ofInt _ pos fits) value mask .and

theorem ofSort_threeWay (ha : a.OfSort .bool) (hb : b.OfSort .bool) : (threeWay l a b).OfSort (.bitVec 32) :=
  ha.ite (hb.ite (.ofInt 0 (by decide) (by decide)) (.ofInt (-1) (by decide) (by decide)))
    (.ofInt 1 (by decide) (by decide))

theorem denote_threeWay (first : a.denote ρ = some (.bool (m ≤ n))) (second : b.denote ρ = some (.bool (m = n))) :
    (threeWay l a b).denote ρ = some (.ofInt (m - n).sign 32) := by
  rw [threeWay, Term.denote_ite_of_condition first, Term.denote_ite_of_condition second]
  simp only [decide_eq_true_eq]
  split
  next le =>
    split
    next same =>
      rw [same, Int.sub_self, Int.sign_zero]
      rfl
    next other =>
      rw [Int.sign_eq_neg_one_of_neg (by omega)]
      rfl
  next greater =>
    rw [Int.sign_eq_one_of_pos (by omega)]
    rfl

/-- Operators on terms of a promoted type give terms of their result types. -/
theorem ofSort_onBits {k : IntegerTy} (ha : a.OfSort k.ty.sort) (hb : b.OfSort k.ty.sort) (op : Operator) :
    (op.onBits l a b k.width).OfSort (op.resultTy k).sort := by
  rw [k.sort_ty] at ha hb
  cases op with
  | add | sub | mul | div | rem | and | or | xor =>
    rw [resultTy, k.sort_ty]
    exact ha.bits2 hb
  | shl | shr | ushr =>
    rw [resultTy, k.sort_ty]
    exact ha.bits2 (ofSort_distance hb)
  | eq => exact ha.eq hb rfl
  | ne => exact (ha.eq hb rfl).not
  | lt | le | gt | ge => exact ha.compare hb
  | cmp | cmpl | cmpg => exact ofSort_threeWay (ha.compare hb) (ha.eq hb rfl)

/-- Operators on terms of a promoted type evaluate to the results on their numbers. -/
theorem denote_onBits {w : Nat} (wide : w = 32 ∨ w = 64) (ha : a.OfSort (.bitVec w)) (hb : b.OfSort (.bitVec w))
    (hm : Bits.InRange true w m) (hn : Bits.InRange true w n) (first : a.denote ρ = some (.ofInt m w))
    (second : b.denote ρ = some (.ofInt n w)) (op : Operator) (defined : op.isDivision = true → n ≠ 0) :
    (op.onBits l a b w).denote ρ = some (op.onNumbers w m n) := by
  obtain ⟨pos, fits⟩ := Term.width_bounds ha.valued
  have left := Bits.toInt_ofInt_of_inRange pos hm
  have right := Bits.toInt_ofInt_of_inRange pos hn
  rw [Value.ofInt_eq_ofVector fits] at first second
  have bits {l : Label} (op : Bits.BinaryOp) := Term.denote_bits2 (l := l) ha hb first second op
  have compare {l : Label} (op : Bits.CompareOp) := Term.denote_compare (l := l) ha hb first second op
  have equal {l : Label} := Term.denote_eq_vectors (l := l) ha hb first second
  have shift (op : Bits.BinaryOp) := Term.denote_bits2 (l := l) ha (ofSort_distance (l := l + 1) hb) first
    (denote_distance hb second) op
  simp only [left, right] at compare
  simp only [← BitVec.toInt_inj, left, right] at equal
  cases op with
  | add =>
    rw [onBits, bits, onNumbers, Value.ofInt_eq_ofVector fits, BitVec.ofInt_add]
    rfl
  | sub =>
    rw [onBits, bits, onNumbers, Value.ofInt_eq_ofVector fits, Bits.ofInt_sub]
    rfl
  | mul =>
    rw [onBits, bits, onNumbers, Value.ofInt_eq_ofVector fits, BitVec.ofInt_mul]
    rfl
  | div =>
    rw [onBits, bits, onNumbers, Value.ofInt_eq_ofVector fits, Bits.BinaryOp.onVectors, Bits.smtSDiv_eq_ofInt, left,
      right, Bits.divide, if_neg (defined rfl)]
  | rem =>
    rw [onBits, bits, onNumbers, Value.ofInt_eq_ofVector fits, Bits.BinaryOp.onVectors, Bits.srem_eq_ofInt, left, right]
  | and | or | xor => exact bits _
  | shl =>
    rw [onBits, shift, onNumbers, Value.ofInt_eq_ofVector fits, Bits.BinaryOp.onVectors, Bits.shiftLeft_eq_ofInt,
      Bits.distance_toNat wide]
  | shr =>
    rw [onBits, shift, onNumbers, Value.ofInt_eq_ofVector fits, Bits.BinaryOp.onVectors,
      Bits.sshiftRight_eq_ofInt pos hm, Bits.distance_toNat wide]
  | ushr =>
    rw [onBits, shift, onNumbers, Value.ofInt_eq_ofVector fits, Bits.BinaryOp.onVectors, Bits.ushiftRight_eq_ofInt,
      Bits.distance_toNat wide]
  | eq => exact equal
  | ne =>
    refine Term.denote_not_iff.2 (equal.trans ?_)
    rw [decide_not, Bool.not_not]
  | lt | le | gt | ge => exact compare _
  | cmp | cmpl | cmpg => exact denote_threeWay (compare .sle) equal

end Operator

namespace Machine

variable {l : Label} {s t : IntegerTy} {a b : Term}

/-- An operator on two integers gives a term of its result type for the promoted type, which evaluates to the
result on the operands' numbers. -/
theorem operate_integers (ha : a.OfSort s.ty.sort) (hb : b.OfSort t.ty.sort) (op : Operator) :
    ∃ r, operate l op (.primitive s.ty a) (.primitive t.ty b) (op.resultTy (s.promoted t)) =
        .ok (.primitive (op.resultTy (s.promoted t)) r) ∧
      r.OfSort (op.resultTy (s.promoted t)).sort ∧
      ∀ (ρ : Valuation) (m n : Int), s.Holds m → t.Holds n → a.denote ρ = some (.ofInt m s.width) →
        b.denote ρ = some (.ofInt n t.width) → (op.isDivision = true → n ≠ 0) →
        r.denote ρ = some (op.onNumbers (s.promoted t).width m n) := by
  obtain ⟨p, promoted, first⟩ := s.promote_carries (l := l + 48) ha
  obtain ⟨q, promoted', second⟩ := t.promote_carries (l := l + 80) hb
  obtain ⟨x, y, aligned, left, right⟩ := Term.align_carries (l := l) first.ofSort second.ofSort
  rw [← IntegerTy.width_promoted] at left right
  have sorted := Operator.ofSort_onBits (l := l + 32) (k := s.promoted t) ((s.promoted t).sort_ty ▸ left.ofSort)
    ((s.promoted t).sort_ty ▸ right.ofSort) op
  refine ⟨_, ?_, sorted, ?_⟩
  · have applied : applied l op (.primitive s.ty a) (.primitive t.ty b) =
        .ok (op.onBits (l + 32) x y (s.promoted t).width) := by
      refine except_bind_ok.2 ⟨p, promoted, except_bind_ok.2 ⟨q, promoted', except_bind_ok.2 ⟨_, aligned, ?_⟩⟩⟩
      simp only [left.ofSort.1]
      rfl
    rw [operate_eq]
    refine except_bind_ok.2 ⟨_, applied, except_bind_ok.2 ⟨_, ?_, rfl⟩⟩
    rw [fitted, if_neg fun differ => differ.2 sorted.1]
  · intro ρ m n hm hn va vb defined
    have wide : (s.promoted t).width = 32 ∨ (s.promoted t).width = 64 := by cases s <;> cases t <;> decide
    have wider := IntegerTy.width_promoted s t
    have numbers := (first.trans left fun n h => h.entry).value ρ m hm va
    have numbers' := (second.trans right fun n h => h.entry).value ρ n hn vb
    exact Operator.denote_onBits wide left.ofSort right.ofSort (hm.entry.mono (by omega)) (hn.entry.mono (by omega))
      numbers numbers' op defined

end Machine

/-- The type that an operation takes place at: of a shift the promoted first operand, of anything else both. -/
def Operator.operandTy (op : Operator) (s t : IntegerTy) : IntegerTy :=
  if op.isShift then s.promoted .int else s.promoted t

/-- Where an operator on numbers gives a truth value, it is a comparison. -/
theorem Operator.compares_of_onNumbers {op : Operator} {w : Nat} {m n : Int} {r : Bool}
    (h : op.onNumbers w m n = .bool r) : op.isDivision = false ∧ ∀ k, op.resultTy k = .boolean := by
  cases op with
  | eq | ne | lt | le | gt | ge => exact ⟨rfl, fun _ => rfl⟩
  | _ => cases h

theorem Operator.operandTy_eq {op : Operator} {s t : IntegerTy} (short : op.isShift = true → t ≠ .long) :
    op.operandTy s t = s.promoted t := by
  unfold operandTy
  split
  next shift =>
    have other := short shift
    cases t with
    | long => exact absurd rfl other
    | byte | short | char | int => cases s <;> rfl
  next => rfl

namespace Machine

variable {s t : IntegerTy} {a b : Term}

/-- A cast between integer types yields a term that takes the number modulo the size of the target. -/
theorem yields_cast (ha : a.OfSort s.ty.sort) (target : IntegerTy) (M : Machine) (c : Context) :
    ∃ r c', (cast (.primitive s.ty a) target.ty).Yields M c (.primitive target.ty r) M c' ∧
      Term.Carries s.Holds a s.width r target.width := by
  obtain ⟨r, result, carries⟩ := s.cast_carries (l := c.labels) target ha
  unfold cast
  by_cases same : s.ty = target.ty
  · obtain rfl := IntegerTy.ty_injective same
    obtain rfl : a = r := Except.ok.inj ((Term.cast_self ..).symm.trans result)
    refine ⟨a, c, ?_, carries⟩
    rw [SymValue.ty, if_pos rfl]
    exact Run.yields_pure.2 ⟨rfl, rfl, rfl⟩
  · have primitive : target.ty.isPrimitive = true := by cases target <;> rfl
    refine ⟨r, { c with labels := c.labels + labelBlock }, ?_, carries⟩
    rw [SymValue.ty, if_neg same]
    simp only [primitive, if_true]
    refine Run.yields_bind.2 ⟨_, M, _, Run.yields_freshLabel.2 ⟨rfl, rfl, rfl⟩, ?_⟩
    refine Run.yields_bind.2 ⟨r, M, _, Run.yields_lift.2 ⟨result, rfl, rfl⟩, ?_⟩
    exact Run.yields_pure.2 ⟨rfl, rfl, rfl⟩

/-- Operators and casts on integers are those of the machine that the program runs on: whatever the operands
are, the result evaluates to what is computed on their numbers, and a cast to the number at the target's
width. -/
theorem binary_cast_integers (ha : a.OfSort s.ty.sort) (hb : b.OfSort t.ty.sort) (M : Machine) (c : Context) :
    (∀ op : Operator, (op.isShift = true → t ≠ .long) → ∃ r c',
      (binary op (.primitive s.ty a) (.primitive t.ty b) (op.resultTy (op.operandTy s t))).Yields M c
        (.primitive (op.resultTy (op.operandTy s t)) r) M c' ∧
      ∀ env m n, s.Shows env a m → t.Shows env b n → (op.isDivision = true → n ≠ 0) →
        r.eval env = .ok (op.onNumbers (op.operandTy s t).width m n)) ∧
    (∀ target : IntegerTy, ∃ r c',
      (cast (.primitive s.ty a) target.ty).Yields M c (.primitive target.ty r) M c' ∧
      ∀ env m, s.Shows env a m → r.eval env = .ok (.ofInt m target.width)) ∧
    ∀ env : Assignment, env.WellSorted [a, b] → (∃ m, s.Shows env a m) ∧ ∃ n, t.Shows env b n := by
  refine ⟨fun op short => ?_, fun target => ?_, fun env bound => ?_⟩
  · rw [Operator.operandTy_eq short]
    obtain ⟨r, result, -, value⟩ := operate_integers (l := c.labels) ha hb op
    refine ⟨r, _, Run.yields_bind.2 ⟨_, M, _, Run.yields_freshLabel.2 ⟨rfl, rfl, rfl⟩,
      Run.yields_lift.2 ⟨result, rfl, rfl⟩⟩, fun env m n first second defined => ?_⟩
    rw [← Term.value?_eq_some, Term.value?_eq_denote]
    exact value _ m n first.holds second.holds first.denote second.denote defined
  · obtain ⟨r, c', run, carries⟩ := yields_cast ha target M c
    refine ⟨r, c', run, fun env m first => ?_⟩
    rw [← Term.value?_eq_some, Term.value?_eq_denote]
    exact carries.value _ m first.holds first.denote
  · have left : env.WellSorted [a] := fun x hx => bound x (by simp [Term.varsAll] at hx ⊢; exact .inl hx)
    have right : env.WellSorted [b] := fun x hx => bound x (by simp [Term.varsAll] at hx ⊢; exact .inr hx)
    exact ⟨IntegerTy.exists_shows ha left, IntegerTy.exists_shows hb right⟩

section Letters

def letter : Term := .var 1 "letter" (.bitVec 16)

def count : Term := .var 2 "count" (.bitVec 8)

/-- The greatest `char`, and a negative `byte`. -/
def letters : Assignment := .ofList [("letter", .bitVec 0xffff 16), ("count", .bitVec 0x81 8)]

/-- A `char` is never negative, as an operand or in a cast; shifted by -127 it moves by one. -/
theorem binary_cast_integers_letters :
    (∃ r c', (binary .div (.primitive .char letter) (.primitive .byte count) .int).Yields (start .initial) {}
      (.primitive .int r) (start .initial) c' ∧ r.eval letters = .ok (.ofInt (-516) 32)) ∧
    (∃ r c', (binary .shl (.primitive .char letter) (.primitive .byte count) .int).Yields (start .initial) {}
      (.primitive .int r) (start .initial) c' ∧ r.eval letters = .ok (.ofInt 131070 32)) ∧
    (∃ r c', (binary .gt (.primitive .char letter) (.primitive .byte count) .boolean).Yields (start .initial) {}
      (.primitive .boolean r) (start .initial) c' ∧ r.eval letters = .ok (.bool true)) ∧
    ∃ r c', (cast (.primitive .char letter) .long).Yields (start .initial) {} (.primitive .long r) (start .initial) c' ∧
      r.eval letters = .ok (.ofInt 65535 64) := by
  have first : IntegerTy.char.Shows letters letter 65535 := ⟨by decide, rfl⟩
  have second : IntegerTy.byte.Shows letters count (-127) := ⟨by decide, rfl⟩
  obtain ⟨binary, cast, -⟩ := binary_cast_integers (s := .char) (t := .byte) (.var "letter" rfl) (.var "count" rfl)
    (start .initial) {}
  obtain ⟨r₁, c₁, run₁, value₁⟩ := binary .div (by decide)
  obtain ⟨r₂, c₂, run₂, value₂⟩ := binary .shl (by decide)
  obtain ⟨r₃, c₃, run₃, value₃⟩ := binary .gt (by decide)
  obtain ⟨r₄, c₄, run₄, value₄⟩ := cast .long
  refine ⟨⟨r₁, c₁, run₁, ?_⟩, ⟨r₂, c₂, run₂, ?_⟩, ⟨r₃, c₃, run₃, ?_⟩, ⟨r₄, c₄, run₄, value₄ _ _ first⟩⟩
  · have quotient : Int.tdiv 65535 (-127) = -516 := by decide
    rw [← quotient]
    exact value₁ _ _ _ first second (by decide)
  · have moved : (65535 : Int) * 2 ^ ((-127 : Int) % (32 : Nat)).toNat = 131070 := by decide
    rw [← moved]
    exact value₂ _ _ _ first second (by decide)
  · exact value₃ _ _ _ first second (by decide)

end Letters

end Machine
end SinkReach
