import SinkReach.Proofs.Term.Truth
import SinkReach.Symbolic.Operation

/-!
Terms that are bit vectors, whatever their width. Conversions to a width give such terms from operands of
any sort, and arithmetic keeps them; only their sorts matter for that, not whether they are well sorted.
-/
namespace SinkReach.Term

variable {l l' : Label} {a b c t : Term} {w : Nat}

/-- The term is of a bit-vector sort. -/
def IsBits (t : Term) : Prop := ∃ w, t.sort = .bitVec w

theorem isBits_ofInt (l : Label) (n : Int) (w : Nat) : (ofInt l n w).IsBits := ⟨w, rfl⟩

/-- Computing an operation on literals at once keeps bit vectors. -/
theorem fold_isBits (h : t.IsBits) (bits : ∀ v, t.eval {} = .ok v → ∃ x w, v = .bitVec x w) :
    (fold t).IsBits := by
  unfold fold
  split
  · exact h
  · split
    next v value =>
      obtain ⟨x, w, rfl⟩ := bits v value
      exact ⟨w, rfl⟩
    next => exact h

/-- Operations of one operand whose results are bit vectors. -/
def UnaryOp.givesBits : UnaryOp → Bool
  | bits _ | signExtend _ | zeroExtend _ | extract _ _ | fpToSbv _ => true
  | _ => false

theorem UnaryOp.bits_of_denote {op : UnaryOp} (gives : op.givesBits = true) {v r : Value}
    (h : op.denote v = some r) : ∃ x w, r = .bitVec x w := by
  cases op with
  | bits op =>
    cases v with
    | bitVec x w =>
      cases h
      exact ⟨_, _, rfl⟩
    | bool | float | array => cases h
  | signExtend | zeroExtend | extract =>
    cases v with
    | bitVec x w =>
      cases h
      exact ⟨_, _, rfl⟩
    | bool | float | array => cases h
  | fpToSbv w =>
    rw [denote_fpToSbv] at h
    obtain ⟨x, -, rfl⟩ := Option.map_eq_some_iff.1 h
    exact ⟨_, _, rfl⟩
  | not | fpNeg | fpIsNaN | fpToFp | bvToFp => cases gives

theorem foldUnary_isBits {op : UnaryOp} (gives : op.givesBits = true) (h : (unary l op a).IsBits) :
    (fold (unary l op a)).IsBits := by
  refine fold_isBits h fun v value => ?_
  rw [← value?_eq_some, value?_unary] at value
  obtain ⟨u, -, value⟩ := Option.bind_eq_some_iff.1 value
  exact UnaryOp.bits_of_denote gives value

theorem resize_isBits {source target : Nat} {signed : Bool} (h : a.IsBits) :
    (resize l a source target signed).IsBits := by
  unfold resize
  split
  · exact h
  · split
    · split
      · unfold signExtend
        split
        · exact h
        · exact foldUnary_isBits rfl ⟨_, rfl⟩
      · unfold zeroExtend
        split
        · exact h
        · exact foldUnary_isBits rfl ⟨_, rfl⟩
    · unfold extract
      split
      · exact h
      · exact foldUnary_isBits rfl ⟨_, rfl⟩

theorem not_isBits_of_bool? {r : Bool} (h : t.bool? = some r) : ¬ t.IsBits := by
  obtain ⟨l, rfl⟩ := bool?_leaf h
  rintro ⟨w, sort⟩
  cases sort

theorem ite_isBits (ha : a.IsBits) (hb : b.IsBits) : (ite l c a b).IsBits := by
  unfold ite
  split
  · exact ha
  · exact hb
  · split
    · exact ha
    · split
      next yes _ => exact absurd ha (not_isBits_of_bool? yes)
      next no _ => exact absurd ha (not_isBits_of_bool? no)
      next => exact ha

theorem boolToBits_isBits : (boolToBits l a w).IsBits := ite_isBits (isBits_ofInt ..) (isBits_ofInt ..)

theorem clampToInt_isBits {f : FloatFormat} : (clampToInt l a f w).IsBits := by
  have truncated : (fpToSbv (l + 4) w a).IsBits := foldUnary_isBits rfl ⟨w, rfl⟩
  exact ite_isBits (isBits_ofInt ..)
    (ite_isBits (isBits_ofInt ..) (ite_isBits (isBits_ofInt ..) truncated))

theorem floatToBits_isBits {f : FloatFormat} : (floatToBits l a f w).IsBits := by
  unfold floatToBits
  split
  · exact clampToInt_isBits
  · exact resize_isBits clampToInt_isBits

/-- Whatever is converted to a width is a bit vector. -/
theorem convert_isBits (h : convert l a (.bitVec w) = .ok t) : t.IsBits := by
  unfold convert at h
  split at h
  next sort =>
    cases h
    exact ⟨w, sort⟩
  next =>
    cases sort : a.sort with
    | bool =>
      rw [sort] at h
      cases h
      exact boolToBits_isBits
    | bitVec v =>
      rw [sort] at h
      cases h
      exact resize_isBits ⟨v, sort⟩
    | float f =>
      rw [sort] at h
      cases h
      exact floatToBits_isBits
    | array i e =>
      rw [sort] at h
      cases h

/-- A cast to another type of a width gives a bit vector. -/
theorem cast_isBits {source target : Ty} (other : source ≠ target) (width : target.sort = .bitVec w)
    (h : cast l a source target = .ok t) : t.IsBits := by
  unfold cast at h
  rw [if_neg other] at h
  generalize target.sort = sort at h width
  split at h
  next v u _ =>
    split at h
    · exact convert_isBits h
    · exact convert_isBits h
  next =>
    subst width
    exact convert_isBits h
  next =>
    subst width
    exact convert_isBits h

theorem negate_isBits (ha : a.IsBits) (h : Operator.negate l a = .ok t) : t.IsBits := by
  obtain ⟨w, sort⟩ := ha
  unfold Operator.negate at h
  rw [sort] at h
  cases h
  exact foldUnary_isBits rfl ⟨w, sort⟩

end SinkReach.Term
