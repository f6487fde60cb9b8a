import SinkReach.Proofs.Simulation.Twin
import SinkReach.Proofs.Stateful

/-!
Conversions, casts and operators take twins to twins: they branch on sorts alone, which twins share.
-/
namespace SinkReach

open Term

variable {S : Scene} {κ : Links} {a a' b b' c c' t t' : Term} {l d : Label}

namespace Plain

variable {s u : TermSort} {w v : Nat} {f : FloatFormat}

theorem valued (h : Plain S κ s a a') : s.valued = true := h.2 ▸ admissible_sort rfl h.1.sorted

theorem sort' (h : Plain S κ s a a') : a'.sort = s := h.1.sort.symm.trans h.2

theorem mono {κ' : Links} (h : Plain S κ s a a') (le : κ ≤ κ') : Plain S κ' s a a' := ⟨h.1.mono le, h.2⟩

/-- A folded unary operation. -/
theorem foldUnary {o : UnaryOp} (h : Plain S κ s a a') (accepts : o.accepts s = true)
    (valued : (o.result s).valued = true) :
    Plain S κ (o.result s) (Term.unary l o a).fold (Term.unary d o a').fold := by
  obtain ⟨twin, rfl⟩ := h
  have raw := twin.unary (l := l) (d := d) accepts valued
  exact ⟨raw.fold, (fold_stands raw.sorted).sort.trans (sort_unary ..)⟩

/-- A folded binary operation. -/
theorem foldBinary {o : BinaryOp} (ha : Plain S κ s a a') (hb : Plain S κ u b b')
    (accepts : o.accepts s u = true) (valued : (o.result s).valued = true) :
    Plain S κ (o.result s) (Term.binary l o a b).fold (Term.binary d o a' b').fold := by
  obtain ⟨twin, rfl⟩ := ha
  obtain ⟨twin', rfl⟩ := hb
  have raw := twin.binary (l := l) (d := d) twin' accepts valued
  exact ⟨raw.fold, (fold_stands raw.sorted).sort.trans (sort_binary ..)⟩

theorem ofInt (n : Int) (low : 1 ≤ w) (high : w ≤ 64) :
    Plain S κ (.bitVec w) (Term.ofInt l n w) (Term.ofInt d n w) := ⟨.ofInt n low high, rfl⟩

theorem ite (hc : Plain S κ .bool c c') (ha : Plain S κ s a a') (hb : Plain S κ s b b') :
    Plain S κ s (Term.ite l c a b) (Term.ite d c' a' b') := by
  obtain ⟨twin, sort⟩ := hc.1.ite (l := l) (d := d) ha.1 hb.1 hc.2 (ha.2.trans hb.2.symm)
  exact ⟨twin, sort.trans ha.2⟩

theorem not (h : Plain S κ .bool a a') : Plain S κ .bool (Term.not l a) (Term.not d a') := by
  have raw := h.1.unary (l := l) (d := d) (o := .not) (by simp [UnaryOp.accepts, h.2]) rfl
  exact ⟨raw.of_stands (not_stands raw.sorted) (not_stands raw.sorted'), (not_stands raw.sorted).sort⟩

theorem and (ha : Plain S κ .bool a a') (hb : Plain S κ .bool b b') :
    Plain S κ .bool (Term.and l a b) (Term.and d a' b') := Twin.join (.cons ha (.cons hb .nil))

theorem or (ha : Plain S κ .bool a a') (hb : Plain S κ .bool b b') :
    Plain S κ .bool (Term.or l a b) (Term.or d a' b') := Twin.join (.cons ha (.cons hb .nil))

theorem eq (ha : Plain S κ s a a') (hb : Plain S κ s b b') (scalar : s.isArray = false) :
    Plain S κ .bool (Term.eq l a b) (Term.eq d a' b') :=
  ha.1.eq rfl hb.1 (ha.2.trans hb.2.symm) (ha.2 ▸ scalar)

theorem xor (ha : Plain S κ .bool a a') (hb : Plain S κ .bool b b') :
    Plain S κ .bool (Term.xor l a b) (Term.xor d a' b') := ha.foldBinary (o := .xor) hb rfl rfl

theorem bits1 {o : Bits.UnaryOp} (h : Plain S κ (.bitVec w) a a') :
    Plain S κ (.bitVec w) (Term.bits1 l o a) (Term.bits1 d o a') :=
  h.foldUnary (o := .bits o) rfl h.valued

theorem bits2 {o : Bits.BinaryOp} (ha : Plain S κ (.bitVec w) a a')
    (hb : Plain S κ (.bitVec w) b b') :
    Plain S κ (.bitVec w) (Term.bits2 l o a b) (Term.bits2 d o a' b') :=
  ha.foldBinary (o := .bits o) hb (by simp [BinaryOp.accepts, TermSort.width?]) ha.valued

theorem compare {o : Bits.CompareOp} (ha : Plain S κ (.bitVec w) a a')
    (hb : Plain S κ (.bitVec w) b b') :
    Plain S κ .bool (Term.compare l o a b) (Term.compare d o a' b') :=
  ha.foldBinary (o := .compare o) hb (by simp [BinaryOp.accepts, TermSort.width?]) rfl

theorem fp {o : FloatOp} (ha : Plain S κ (.float f) a a') (hb : Plain S κ (.float f) b b') :
    Plain S κ (.float f) (Term.fp l o a b) (Term.fp d o a' b') :=
  ha.foldBinary (o := .fp o) hb (by simp [BinaryOp.accepts, TermSort.format?]) ha.valued

theorem fpCompare {o : FloatCompareOp} (ha : Plain S κ (.float f) a a')
    (hb : Plain S κ (.float f) b b') :
    Plain S κ .bool (Term.fpCompare l o a b) (Term.fpCompare d o a' b') :=
  ha.foldBinary (o := .fpCompare o) hb (by simp [BinaryOp.accepts, TermSort.format?]) rfl

theorem fpNeg (h : Plain S κ (.float f) a a') :
    Plain S κ (.float f) (Term.fpNeg l a) (Term.fpNeg d a') := h.foldUnary (o := .fpNeg) rfl h.valued

theorem fpIsNaN (h : Plain S κ (.float f) a a') :
    Plain S κ .bool (Term.fpIsNaN l a) (Term.fpIsNaN d a') := h.foldUnary (o := .fpIsNaN) rfl rfl

theorem bvToFp (h : Plain S κ (.bitVec w) a a') (valued : (TermSort.float f).valued = true) :
    Plain S κ (.float f) (Term.bvToFp l f a) (Term.bvToFp d f a') :=
  h.foldUnary (o := .bvToFp f) rfl valued

theorem fpToSbv (h : Plain S κ (.float f) a a') (low : 1 ≤ w) (high : w ≤ 64) :
    Plain S κ (.bitVec w) (Term.fpToSbv l w a) (Term.fpToSbv d w a') :=
  h.foldUnary (o := .fpToSbv w) rfl (decide_eq_true ⟨low, high⟩)

theorem fpToFp {g : FloatFormat} (h : Plain S κ (.float g) a a')
    (valued : (TermSort.float f).valued = true) (other : g ≠ f) :
    Plain S κ (.float f) (Term.fpToFp l f a) (Term.fpToFp d f a') := by
  have differ : ∀ {t : Term}, t.sort = .float g → t.sort ≠ .float f := by
    intro t sort same
    rw [sort] at same
    cases same
    exact other rfl
  rw [Term.fpToFp, Term.fpToFp, if_neg (differ h.2), if_neg (differ h.sort')]
  exact h.foldUnary (o := .fpToFp f) rfl valued

theorem signExtend {e : Nat} (h : Plain S κ (.bitVec w) a a') (le : w + e ≤ 64) :
    Plain S κ (.bitVec (w + e)) (Term.signExtend l e a) (Term.signExtend d e a') := by
  have low := h.valued
  simp only [TermSort.valued, decide_eq_true_eq] at low
  have raw := h.1.unary (l := l) (d := d) (o := .signExtend e)
    (by rw [h.2]; rfl) (by rw [h.2]; exact decide_eq_true ⟨by simp [TermSort.width?]; omega, le⟩)
  have stands := signExtend_stands raw.sorted
  exact ⟨raw.of_stands stands (signExtend_stands raw.sorted'), by rw [stands.sort, sort_unary, h.2]; rfl⟩

theorem zeroExtend {e : Nat} (h : Plain S κ (.bitVec w) a a') (le : w + e ≤ 64) :
    Plain S κ (.bitVec (w + e)) (Term.zeroExtend l e a) (Term.zeroExtend d e a') := by
  have low := h.valued
  simp only [TermSort.valued, decide_eq_true_eq] at low
  have raw := h.1.unary (l := l) (d := d) (o := .zeroExtend e)
    (by rw [h.2]; rfl) (by rw [h.2]; exact decide_eq_true ⟨by simp [TermSort.width?]; omega, le⟩)
  have stands := zeroExtend_stands raw.sorted
  exact ⟨raw.of_stands stands (zeroExtend_stands raw.sorted'), by rw [stands.sort, sort_unary, h.2]; rfl⟩

/-- The lowest bits. -/
theorem extractLow (h : Plain S κ (.bitVec w) a a') (low : 1 ≤ v) (le : v ≤ w) :
    Plain S κ (.bitVec v) (Term.extract l (v - 1) 0 a) (Term.extract d (v - 1) 0 a') := by
  have high := h.valued
  simp only [TermSort.valued, decide_eq_true_eq] at high
  have width : v - 1 - 0 + 1 = v := by omega
  have raw := h.1.unary (l := l) (d := d) (o := .extract (v - 1) 0)
    (by rw [h.2]; simp [UnaryOp.accepts, TermSort.width?]; omega)
    (by simp only [UnaryOp.result, width]; exact decide_eq_true ⟨low, by omega⟩)
  have stands := extract_stands raw.sorted
  refine ⟨raw.of_stands stands (extract_stands raw.sorted'), ?_⟩
  rw [stands.sort, sort_unary, UnaryOp.result, width]

theorem resize {target : Nat} {signed : Bool} (h : Plain S κ (.bitVec w) a a') (low : 1 ≤ target)
    (high : target ≤ 64) : Plain S κ (.bitVec target) (Term.resize l a w target signed)
      (Term.resize d a' w target signed) := by
  unfold Term.resize
  split
  next same => exact same ▸ h
  next =>
    split
    next wider =>
      have width : w + (target - w) = target := by omega
      split
      · have extended := h.signExtend (l := l) (d := d) (e := target - w) (by omega)
        rwa [width] at extended
      · have extended := h.zeroExtend (l := l) (d := d) (e := target - w) (by omega)
        rwa [width] at extended
    next => exact h.extractLow low (by omega)

theorem ofFloatBits (bits : Nat) (valued : (TermSort.float f).valued = true) :
    Plain S κ (.float f) (Term.ofFloatBits l bits f) (Term.ofFloatBits d bits f) := by
  refine ⟨Twin.literal (by simp) ?_, rfl⟩
  obtain ⟨p, -, rfl⟩ := precision_of_valued valued
  have width : p.format.width ≤ 64 := by cases p <;> decide
  rw [wellSorted, Bool.and_eq_true]
  exact ⟨valued, decide_eq_true (Bits.mask_lt bits width)⟩

theorem ofDouble (bits : Nat) (valued : (TermSort.float f).valued = true) :
    Plain S κ (.float f) (Term.ofDouble l bits f) (Term.ofDouble d bits f) := by
  unfold Term.ofDouble
  split
  next single =>
    subst single
    exact ofFloatBits _ valued
  next => exact ofFloatBits _ valued

theorem clampToInt (h : Plain S κ (.float f) a a') (low : 1 ≤ w) (high : w ≤ 64) :
    Plain S κ (.bitVec w) (Term.clampToInt l a f w) (Term.clampToInt d a' f w) := by
  unfold Term.clampToInt
  have overflow := (h.fpCompare (l := l + 1) (d := d + 1) (o := .ge)
    (ofDouble (l := l + 2) (d := d + 2) (bound false w) h.valued)).ite (l := l) (d := d)
    (ofInt (l := l + 3) (d := d + 3) ((Nat.pow 2 (w - 1) : Int) - 1) low high)
    (h.fpToSbv (l := l + 4) (d := d + 4) low high)
  have underflow := (h.fpCompare (l := l + 6) (d := d + 6) (o := .lt)
    (ofDouble (l := l + 7) (d := d + 7) (bound true w) h.valued)).ite (l := l + 5) (d := d + 5)
    (ofInt (l := l + 8) (d := d + 8) (-(Nat.pow 2 (w - 1) : Int)) low high) overflow
  exact h.fpIsNaN.ite (ofInt 0 low high) underflow

theorem floatToBits (h : Plain S κ (.float f) a a') (low : 1 ≤ w) (high : w ≤ 64) :
    Plain S κ (.bitVec w) (Term.floatToBits l a f w) (Term.floatToBits d a' f w) := by
  unfold Term.floatToBits
  split
  next long =>
    subst long
    exact h.clampToInt low high
  next => exact (h.clampToInt (by decide) (by decide)).resize low high

theorem nonzero (h : Plain S κ (.bitVec w) a a') :
    Plain S κ .bool (Term.nonzero l a w) (Term.nonzero d a' w) := by
  have width := h.valued
  simp only [TermSort.valued, decide_eq_true_eq] at width
  exact (h.eq (ofInt 0 width.1 width.2) rfl).not

theorem boolToBits (h : Plain S κ .bool a a') (low : 1 ≤ w) (high : w ≤ 64) :
    Plain S κ (.bitVec w) (Term.boolToBits l a w) (Term.boolToBits d a' w) :=
  h.ite (ofInt 1 low high) (ofInt 0 low high)

theorem convert (h : Plain S κ s a a') (valued : u.valued = true) (ht : Term.convert l a u = .ok t)
    (ht' : Term.convert d a' u = .ok t') : Plain S κ u t t' := by
  unfold Term.convert at ht ht'
  rw [h.2] at ht
  rw [h.sort'] at ht'
  by_cases same : s = u
  · rw [if_pos same] at ht ht'
    cases ht
    cases ht'
    exact same ▸ h
  · rw [if_neg same] at ht ht'
    cases s with
    | bool =>
      cases u with
      | bitVec w =>
        cases ht
        cases ht'
        exact h.boolToBits (width_bounds valued).1 (width_bounds valued).2
      | float f =>
        cases ht
        cases ht'
        exact (h.boolToBits (by decide) (by decide)).bvToFp valued
      | bool | array => cases ht
    | bitVec v =>
      cases u with
      | bool =>
        cases ht
        cases ht'
        exact h.nonzero
      | bitVec w =>
        cases ht
        cases ht'
        exact h.resize (width_bounds valued).1 (width_bounds valued).2
      | float f =>
        cases ht
        cases ht'
        exact h.bvToFp valued
      | array => cases ht
    | float g =>
      cases u with
      | bool =>
        cases ht
        cases ht'
        exact (h.floatToBits (by decide) (by decide)).nonzero
      | bitVec w =>
        cases ht
        cases ht'
        exact h.floatToBits (width_bounds valued).1 (width_bounds valued).2
      | float f =>
        cases ht
        cases ht'
        exact h.fpToFp valued fun eq => same (by rw [eq])
      | array => cases ht
    | array => cases u <;> cases ht

end Plain

theorem Ty.sort_valued (ty : Ty) : ty.sort.valued = true := by cases ty <;> rfl

namespace Term

theorem cast_self (l : Label) (a : Term) (ty : Ty) : Term.cast l a ty ty = .ok a := by
  unfold Term.cast
  exact if_pos rfl

/-- A cast between other types than `char` converts by sort. -/
theorem cast_of_ne_char {source target : Ty} (other : source ≠ target) (notChar : source ≠ .char)
    (l : Label) (a : Term) : Term.cast l a source target = Term.convert l a target.sort := by
  unfold Term.cast
  rw [if_neg other]
  split
  · exact absurd rfl notChar
  · exact absurd rfl notChar
  · rfl

/-- A cast from `char` to a wider type extends by zeros first. -/
theorem cast_char {target : Ty} (other : .char ≠ target) (l : Label) {a : Term} {w : Nat}
    (sort : a.sort = .bitVec w) : Term.cast l a .char target =
      if (target.sort.width?.any fun v => v ≤ w) then Term.convert l a target.sort
      else Term.convert l (Term.resize (l + 16) a w 32 false) target.sort := by
  unfold Term.cast
  rw [if_neg other, sort]
  cases target.sort with
  | bitVec v =>
    simp only [TermSort.width?, Option.any_some, decide_eq_true_eq]
  | bool | float | array => rfl

end Term

namespace Plain

theorem cast {source target : Ty} (h : Plain S κ source.sort a a')
    (ht : Term.cast l a source target = .ok t) (ht' : Term.cast d a' source target = .ok t') :
    Plain S κ target.sort t t' := by
  have valued := target.sort_valued
  by_cases same : source = target
  · subst same
    rw [cast_self] at ht ht'
    cases ht
    cases ht'
    exact h
  · by_cases char : source = .char
    · subst char
      have wide : Plain S κ (.bitVec 32) (Term.resize (l + 16) a _ 32 false)
          (Term.resize (d + 16) a' _ 32 false) := h.resize (by decide) (by decide)
      rw [cast_char same l h.2] at ht
      rw [cast_char same d h.sort'] at ht'
      split at ht
      next narrow =>
        rw [if_pos narrow] at ht'
        exact h.convert valued ht ht'
      next narrow =>
        rw [if_neg narrow] at ht'
        exact wide.convert valued ht ht'
    · rw [cast_of_ne_char same char] at ht ht'
      exact h.convert valued ht ht'

theorem of_twin (h : Twin S κ .plain a a') : Plain S κ a.sort a a' := ⟨h, rfl⟩

/-- The common sort of two operands is one of theirs, or that of an `int`. -/
theorem higherSort_cases {s u target : TermSort} (h : Term.higherSort s u = .ok target) :
    target = s ∨ target = u := by
  obtain ⟨m, -, h⟩ := except_bind_ok.1 h
  obtain ⟨n, -, h⟩ := except_bind_ok.1 h
  cases h
  split
  · exact .inr rfl
  · exact .inl rfl

theorem align {s u : TermSort} (ha : Plain S κ s a a') (hb : Plain S κ u b b') {x x' : Term × Term}
    (hx : Term.align l a b = .ok x) (hx' : Term.align d a' b' = .ok x') :
    ∃ target, Plain S κ target x.1 x'.1 ∧ Plain S κ target x.2 x'.2 := by
  unfold Term.align at hx hx'
  rw [ha.2, hb.2] at hx
  rw [ha.sort', hb.sort'] at hx'
  obtain ⟨first, hfirst, hx⟩ := except_bind_ok.1 hx
  obtain ⟨target, htarget, hx⟩ := except_bind_ok.1 hx
  obtain ⟨t, ht, hx⟩ := except_bind_ok.1 hx
  obtain ⟨t₂, ht₂, hx⟩ := except_bind_ok.1 hx
  obtain ⟨first', hfirst', hx'⟩ := except_bind_ok.1 hx'
  cases hfirst.symm.trans hfirst'
  obtain ⟨target', htarget', hx'⟩ := except_bind_ok.1 hx'
  cases htarget.symm.trans htarget'
  obtain ⟨t', ht', hx'⟩ := except_bind_ok.1 hx'
  obtain ⟨t₂', ht₂', hx'⟩ := except_bind_ok.1 hx'
  cases hx
  cases hx'
  have valued : target.valued = true := by
    rcases higherSort_cases htarget with rfl | rfl
    · rcases higherSort_cases hfirst with rfl | rfl
      · rfl
      · exact ha.valued
    · exact hb.valued
  exact ⟨target, ha.convert valued ht ht', hb.convert valued ht₂ ht₂'⟩

theorem threeWay (ha : Plain S κ .bool a a') (hb : Plain S κ .bool b b') :
    Plain S κ (.bitVec 32) (Operator.threeWay l a b) (Operator.threeWay d a' b') :=
  ha.ite (hb.ite (ofInt 0 (by decide) (by decide)) (ofInt (-1) (by decide) (by decide)))
    (ofInt 1 (by decide) (by decide))

theorem distance {w : Nat} (h : Plain S κ (.bitVec w) b b') :
    Plain S κ (.bitVec w) (Operator.distance l b w) (Operator.distance d b' w) :=
  h.bits2 (ofInt _ (width_bounds h.valued).1 (width_bounds h.valued).2)

theorem onBits {w : Nat} (ha : Plain S κ (.bitVec w) a a') (hb : Plain S κ (.bitVec w) b b')
    (o : Operator) :
    Twin S κ .plain (Operator.onBits l a b w o) (Operator.onBits d a' b' w o) := by
  cases o with
  | add | sub | mul | div | rem | and | or | xor => exact (ha.bits2 hb).1
  | shl | shr | ushr => exact (ha.bits2 hb.distance).1
  | eq => exact (ha.eq hb rfl).1
  | ne => exact (ha.eq hb rfl).not.1
  | lt | le | gt | ge => exact (ha.compare hb).1
  | cmp | cmpl | cmpg => exact ((ha.compare hb).threeWay (ha.eq hb rfl)).1

theorem floatThreeWay {f : FloatFormat} (ha : Plain S κ (.float f) a a')
    (hb : Plain S κ (.float f) b b') (unordered : Option Int) :
    Plain S κ (.bitVec 32) (Operator.floatThreeWay l a b unordered)
      (Operator.floatThreeWay d a' b' unordered) := by
  have ordered := (ha.fpCompare (l := l + 5) (d := d + 5) (o := .le) hb).threeWay (l := l) (d := d)
    (ha.fpCompare (l := l + 6) (d := d + 6) (o := .eq) hb)
  cases unordered with
  | none => exact ordered
  | some n => exact (ha.fpIsNaN.or hb.fpIsNaN).ite (ofInt n (by decide) (by decide)) ordered

theorem onFloats {f : FloatFormat} (ha : Plain S κ (.float f) a a') (hb : Plain S κ (.float f) b b')
    {o : Operator} (ht : Operator.onFloats l a b o = .ok t)
    (ht' : Operator.onFloats d a' b' o = .ok t') : Twin S κ .plain t t' := by
  cases o <;> cases ht <;> cases ht'
  case add | sub | mul | div | rem => exact (ha.fp hb).1
  case eq | lt | le | gt | ge => exact (ha.fpCompare hb).1
  case ne => exact (ha.fpCompare hb).not.1
  case cmp | cmpl | cmpg => exact (ha.floatThreeWay hb _).1

theorem onBools (ha : Plain S κ .bool a a') (hb : Plain S κ .bool b b') {o : Operator}
    (ht : Operator.onBools l a b o = .ok t) (ht' : Operator.onBools d a' b' o = .ok t') :
    Twin S κ .plain t t' := by
  cases o <;> cases ht <;> cases ht'
  case eq => exact (ha.eq hb rfl).1
  case ne | xor => exact (ha.xor hb).1
  case and => exact (ha.and hb).1
  case or => exact (ha.or hb).1

theorem operator {s u : TermSort} (ha : Plain S κ s a a') (hb : Plain S κ u b b') {o : Operator}
    (ht : o.apply l a b = .ok t) (ht' : o.apply d a' b' = .ok t') : Twin S κ .plain t t' := by
  obtain ⟨x, hx, ht⟩ := except_bind_ok.1 ht
  obtain ⟨x', hx', ht'⟩ := except_bind_ok.1 ht'
  obtain ⟨target, h₁, h₂⟩ := ha.align hb hx hx'
  simp only [h₁.2] at ht
  simp only [h₁.sort'] at ht'
  cases target with
  | bool => exact h₁.onBools h₂ ht ht'
  | bitVec w =>
    cases ht
    cases ht'
    exact h₁.onBits h₂ o
  | float f => exact h₁.onFloats h₂ ht ht'
  | array => cases ht

theorem negate {s : TermSort} (h : Plain S κ s a a') (ht : Operator.negate l a = .ok t)
    (ht' : Operator.negate d a' = .ok t') : Plain S κ s t t' := by
  unfold Operator.negate at ht ht'
  rw [h.2] at ht
  rw [h.sort'] at ht'
  cases s <;> cases ht <;> cases ht'
  case bool => exact h.not
  case bitVec => exact h.bits1
  case float => exact h.fpNeg

end Plain
end SinkReach
