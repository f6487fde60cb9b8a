import SinkReach.Proofs.Ieee.Range
import SinkReach.Proofs.Term.Bits
import SinkReach.Proofs.Term.Sorting

/-!
Values of terms where every constant has a value. A well-sorted term whose sorts have values then has a
value too, and one of its sort.
-/
namespace SinkReach

/-- Every constant of a sort with values has a value of its sort. -/
def Valuation.WellSorted (ρ : Valuation) : Prop :=
  ∀ name s, s.valued = true → ∃ v, ρ name s = some v ∧ v.hasSort s = true

namespace ArrayValue

theorem find_hasSort {i e : TermSort} (test : Value → Bool) : (a : ArrayValue) →
    a.hasSorts i e = true → (a.find test).hasSort e = true
  | .const d, h => by simpa [hasSorts, find] using h
  | .store a k v, h => by
    simp only [hasSorts, Bool.and_eq_true] at h
    rw [find]
    split
    · exact h.2
    · exact find_hasSort test a h.1.1

theorem remove_hasSorts {i e : TermSort} (test : Value → Bool) : (a : ArrayValue) →
    a.hasSorts i e = true → (a.remove test).hasSorts i e = true
  | .const d, h => by simpa [remove] using h
  | .store a k v, h => by
    simp only [hasSorts, Bool.and_eq_true] at h
    rw [remove]
    split
    · exact remove_hasSorts test a h.1.1
    · simp [hasSorts, remove_hasSorts test a h.1.1, h]

theorem set_hasSorts {i e : TermSort} {a : ArrayValue} (ha : a.hasSorts i e = true) {k v : Value}
    (hk : k.hasSort i = true) (hv : v.hasSort e = true) : (a.set k v).hasSorts i e = true := by
  simp [set, hasSorts, remove_hasSorts _ a ha, hk, hv]

end ArrayValue

namespace Value

theorem ofInt_hasSort (n : Int) {w : Nat} (h : w ≤ 64) : (ofInt n w).hasSort (.bitVec w) = true :=
  hasSort_bitVec (Bits.ofInt_lt n h)

theorem toDouble_hasSort {p : Precision} {bits : Nat} (h : bits < 2 ^ p.format.width) :
    ∃ x, (float p bits).toDouble? = some x ∧ x < 2 ^ Precision.double.format.width := by
  cases p with
  | single => exact ⟨_, rfl, Precision.convert_lt h⟩
  | double => exact ⟨_, rfl, h⟩

end Value

theorem FloatFormat.precision_format {f : FloatFormat} {p : Precision} (h : f.precision? = some p) :
    p.format = f := by
  unfold precision? at h
  split at h
  next single =>
    cases h
    exact single.symm
  next =>
    split at h
    next double =>
      cases h
      exact double.symm
    next => cases h

namespace Bits

theorem UnaryOp.apply_lt (op : UnaryOp) (x : Nat) {w : Nat} (h : w ≤ 64) : op.apply x w < 2 ^ w := by
  cases op <;> exact ofInt_lt _ h

theorem BinaryOp.apply_lt (op : BinaryOp) (x y : Nat) {w : Nat} (h : w ≤ 64) :
    op.apply x y w < 2 ^ w := by
  have pos := Nat.two_pow_pos w
  cases op with
  | add | mul | and | or | xor => exact mask_lt _ h
  | sub | sdiv | ashr => exact ofInt_lt _ h
  | srem =>
    simp only [apply]
    split
    · exact mask_lt _ h
    · exact ofInt_lt _ h
  | shl | lshr =>
    simp only [apply]
    split
    · exact pos
    · exact mask_lt _ h

end Bits

namespace Term

open Value

theorem width_bounds {w : Nat} (h : (TermSort.bitVec w).valued = true) : 1 ≤ w ∧ w ≤ 64 :=
  of_decide_eq_true h

theorem width_le {w : Nat} (h : (TermSort.bitVec w).valued = true) : w ≤ 64 := (width_bounds h).2

theorem precision_of_valued {f : FloatFormat} (h : (TermSort.float f).valued = true) :
    ∃ p : Precision, f.precision? = some p ∧ p.format = f := by
  obtain ⟨p, hp⟩ := Option.isSome_iff_exists.1 h
  exact ⟨p, hp, FloatFormat.precision_format hp⟩

theorem UnaryOp.denote_hasSort (op : UnaryOp) {v : Value} {s : TermSort} (hv : v.hasSort s = true)
    (accepts : op.accepts s = true) (valued : (op.result s).valued = true) :
    ∃ r, op.denote v = some r ∧ r.hasSort (op.result s) = true := by
  cases s with
  | bool =>
    obtain ⟨b, rfl⟩ := bool_of_hasSort hv
    cases op <;> cases accepts
    exact ⟨_, rfl, rfl⟩
  | bitVec w =>
    obtain ⟨x, rfl, lt⟩ := bitVec_of_hasSort hv
    cases op with
    | not | fpNeg | fpIsNaN | fpToFp | fpToSbv => cases accepts
    | bits op => exact ⟨_, rfl, hasSort_bitVec (op.apply_lt x (width_le valued))⟩
    | signExtend extra => exact ⟨_, rfl, ofInt_hasSort _ (width_le valued)⟩
    | zeroExtend extra =>
      have wider : 2 ^ w ≤ 2 ^ (w + extra) := Nat.pow_le_pow_right (by decide) (by omega)
      exact ⟨_, rfl, hasSort_bitVec (Nat.lt_of_lt_of_le lt wider)⟩
    | extract high low => exact ⟨_, rfl, hasSort_bitVec (Bits.mask_lt _ (width_le valued))⟩
    | bvToFp f =>
      obtain ⟨p, hp, rfl⟩ := precision_of_valued valued
      exact ⟨_, by rw [denote_bvToFp, hp, Option.map_some], hasSort_float (Precision.ofInt_lt _)⟩
  | float f =>
    obtain ⟨p, x, rfl, rfl, lt⟩ := float_of_hasSort hv
    obtain ⟨y, hy, lt'⟩ := toDouble_hasSort lt
    cases op with
    | not | bits | signExtend | zeroExtend | extract | bvToFp => cases accepts
    | fpNeg => exact ⟨_, rfl, hasSort_float (Precision.neg_lt lt)⟩
    | fpIsNaN => exact ⟨_, rfl, rfl⟩
    | fpToFp f =>
      obtain ⟨q, hq, rfl⟩ := precision_of_valued valued
      exact ⟨_, by rw [denote_fpToFp, hy, hq]; rfl, hasSort_float (Precision.convert_lt lt')⟩
    | fpToSbv w => exact ⟨_, by rw [denote_fpToSbv, hy]; rfl, ofInt_hasSort _ (width_le valued)⟩
  | array i e => cases op <;> cases accepts

theorem BinaryOp.denote_hasSort (op : BinaryOp) {v w : Value} {s t : TermSort}
    (hv : v.hasSort s = true) (hw : w.hasSort t = true) (accepts : op.accepts s t = true)
    (valued : (op.result s).valued = true) :
    ∃ r, op.denote v w = some r ∧ r.hasSort (op.result s) = true := by
  cases op with
  | xor =>
    simp only [BinaryOp.accepts, Bool.and_eq_true, beq_iff_eq] at accepts
    obtain ⟨rfl, rfl⟩ := accepts
    obtain ⟨a, rfl⟩ := bool_of_hasSort hv
    obtain ⟨b, rfl⟩ := bool_of_hasSort hw
    exact ⟨_, rfl, rfl⟩
  | eq => exact ⟨_, rfl, rfl⟩
  | bits op | compare op =>
    simp only [BinaryOp.accepts, Bool.and_eq_true, beq_iff_eq] at accepts
    obtain ⟨isBits, rfl⟩ := accepts
    cases s <;> cases isBits
    obtain ⟨x, rfl, -⟩ := bitVec_of_hasSort hv
    obtain ⟨y, rfl, -⟩ := bitVec_of_hasSort hw
    first
      | exact ⟨_, by rw [denote_bits, if_pos rfl], hasSort_bitVec (op.apply_lt x y (width_le valued))⟩
      | exact ⟨_, rfl, rfl⟩
  | fp op | fpCompare op =>
    simp only [BinaryOp.accepts, Bool.and_eq_true, beq_iff_eq] at accepts
    obtain ⟨isFloat, rfl⟩ := accepts
    cases s <;> cases isFloat
    obtain ⟨p, x, rfl, rfl, hx⟩ := float_of_hasSort hv
    obtain ⟨q, y, rfl, same, hy⟩ := float_of_hasSort hw
    have eq : q = p := by cases p <;> cases q <;> first | rfl | cases same
    subst eq
    first
      | exact ⟨_, by rw [denote_fp, if_pos rfl], hasSort_float (op.apply_lt hx hy)⟩
      | exact ⟨_, by rw [denote_fpCompare, if_pos rfl], rfl⟩
  | select =>
    simp only [BinaryOp.accepts, beq_iff_eq] at accepts
    rw [accepts] at hv
    obtain ⟨a, rfl, ha⟩ := array_of_hasSort hv
    exact ⟨_, rfl, a.find_hasSort _ ha⟩

theorem denoteStore_hasSort {v k e : Value} {s t u : TermSort} (hv : v.hasSort s = true)
    (hk : k.hasSort t = true) (he : e.hasSort u = true)
    (accepts : TernaryOp.store.accepts s t u = true) :
    ∃ r, denoteStore v k e = some r ∧ r.hasSort s = true := by
  simp only [TernaryOp.accepts, beq_iff_eq] at accepts
  subst accepts
  obtain ⟨a, rfl, ha⟩ := array_of_hasSort hv
  exact ⟨_, rfl, by simpa [Value.hasSort] using ArrayValue.set_hasSorts ha hk he⟩

theorem denoteItems_of_bools {ρ : Valuation} {absorbing : Bool} {items : List Term}
    (h : ∀ t ∈ items, ∃ b, t.denote ρ = some (.bool b)) :
    ∃ b, denoteItems ρ absorbing items = some b := by
  induction items with
  | nil => exact ⟨_, by rw [denoteItems]⟩
  | cons t ts ih =>
    obtain ⟨⟨b, hb⟩, hts⟩ := List.forall_mem_cons.1 h
    obtain ⟨r, hr⟩ := ih hts
    rw [denoteItems, hb]
    change ∃ r, (if b = absorbing then some absorbing else denoteItems ρ absorbing ts) = some r
    split
    · exact ⟨_, rfl⟩
    · exact ⟨r, hr⟩

/-- A well-sorted term has a value of its sort. -/
theorem denote_hasSort {ρ : Valuation} (hρ : ρ.WellSorted) {t : Term}
    (h : t.wellSorted TermSort.valued = true) :
    ∃ v, t.denote ρ = some v ∧ v.hasSort t.sort = true := by
  induction t with
  | leaf l a =>
    simp only [wellSorted, Bool.and_eq_true] at h
    obtain ⟨valued, range⟩ := h
    cases a with
    | bool b => exact ⟨_, rfl, rfl⟩
    | bitVec bits w => exact ⟨_, rfl, hasSort_bitVec (of_decide_eq_true range)⟩
    | float bits f =>
      obtain ⟨p, hp, rfl⟩ := precision_of_valued valued
      exact ⟨.float p bits, by rw [denote, Atom.denote, hp]; rfl,
        hasSort_float (of_decide_eq_true range)⟩
    | var name s => exact hρ name s valued
  | unary l op a iha =>
    simp only [wellSorted, Bool.and_eq_true, sort_unary] at h
    obtain ⟨v, hv, sv⟩ := iha h.2
    obtain ⟨r, hr, sr⟩ := op.denote_hasSort sv h.1.2 h.1.1
    exact ⟨r, by rw [denote, hv]; exact hr, by rwa [sort_unary]⟩
  | binary l op a b iha ihb =>
    simp only [wellSorted, Bool.and_eq_true, sort_binary] at h
    obtain ⟨v, hv, sv⟩ := iha h.1.2
    obtain ⟨w, hw, sw⟩ := ihb h.2
    obtain ⟨r, hr, sr⟩ := op.denote_hasSort sv sw h.1.1.2 h.1.1.1
    exact ⟨r, by rw [denote, hv, hw]; exact hr, by rwa [sort_binary]⟩
  | ternary l op a b c iha ihb ihc =>
    simp only [wellSorted, Bool.and_eq_true] at h
    obtain ⟨v, hv, sv⟩ := iha h.1.1.2
    obtain ⟨w, hw, sw⟩ := ihb h.1.2
    obtain ⟨u, hu, su⟩ := ihc h.2
    cases op with
    | ite =>
      have accepts := h.1.1.1.2
      simp only [TernaryOp.accepts, Bool.and_eq_true, beq_iff_eq] at accepts
      rw [accepts.1] at sv
      obtain ⟨condition, rfl⟩ := bool_of_hasSort sv
      rw [denote, hv]
      cases condition with
      | true => exact ⟨w, hw, sw⟩
      | false => exact ⟨u, hu, by rw [← accepts.2] at su; exact su⟩
    | store =>
      obtain ⟨r, hr, sr⟩ := denoteStore_hasSort sv sw su h.1.1.1.2
      exact ⟨r, by rw [denote, hv, hw, hu]; exact hr, sr⟩
  | junction l op items ih =>
    have bools : ∀ t ∈ items, ∃ b, t.denote ρ = some (.bool b) := by
      intro t ht
      obtain ⟨sort, sorted⟩ := wellSortedBools_iff.1 h t ht
      obtain ⟨v, hv, sv⟩ := ih t ht sorted
      rw [sort] at sv
      obtain ⟨b, rfl⟩ := bool_of_hasSort sv
      exact ⟨b, hv⟩
    obtain ⟨b, hb⟩ := denoteItems_of_bools bools
    exact ⟨.bool b, by rw [denote, hb]; rfl, rfl⟩

end Term
end SinkReach
