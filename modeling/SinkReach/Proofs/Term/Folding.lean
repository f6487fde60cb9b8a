import SinkReach.Proofs.Term.Sameness
import SinkReach.Proofs.Term.Traversal
import SinkReach.Proofs.Term.Valuation

/-!
Constructors that simplify build terms that stand for the nodes that were asked for: of the same sort,
with no new constants, and of the same value under every well-sorted valuation.
-/
namespace SinkReach

/-- Some value of a sort that has one. -/
def TermSort.sampleValue : TermSort → Value
  | bool => .bool false
  | bitVec w => .bitVec 0 w
  | float f => .float (f.precision?.getD .double) 0
  | array _ e => .array (.const e.sampleValue)

theorem TermSort.sampleValue_hasSort {s : TermSort} (h : s.valued = true) :
    s.sampleValue.hasSort s = true := by
  induction s with
  | bool => rfl
  | bitVec w => exact Value.hasSort_bitVec (Nat.two_pow_pos w)
  | float f =>
    obtain ⟨p, hp, rfl⟩ := Term.precision_of_valued h
    rw [sampleValue, hp]
    exact Value.hasSort_float (Nat.two_pow_pos _)
  | array i e _ ihe =>
    simp only [valued, Bool.and_eq_true] at h
    simpa [sampleValue, Value.hasSort, ArrayValue.hasSorts] using ihe h.2

/-- The valuation of sample values. -/
def sampleValuation : Valuation := fun _ s => some s.sampleValue

theorem sampleValuation_wellSorted : sampleValuation.WellSorted :=
  fun _ _ h => ⟨_, rfl, TermSort.sampleValue_hasSort h⟩

namespace Term

open Value

/-- A term may be put in place of another one. -/
structure Stands (t raw : Term) : Prop where
  sorted : t.wellSorted TermSort.valued = true
  sort : t.sort = raw.sort
  vars : t.vars ⊆ raw.vars
  denote : ∀ ρ : Valuation, ρ.WellSorted → t.denote ρ = raw.denote ρ

theorem Stands.refl {t : Term} (h : t.wellSorted TermSort.valued = true) : Stands t t :=
  ⟨h, rfl, fun _ hx => hx, fun _ _ => rfl⟩

/-- A value that is no array has a literal. -/
theorem toLiteral?_of_hasSort {v : Value} {s : TermSort} (h : v.hasSort s = true)
    (valued : s.valued = true) (scalar : s.isArray = false) (l : Label) :
    ∃ lit, v.toLiteral? l = some lit ∧ lit.wellSorted TermSort.valued = true ∧ lit.sort = s ∧
      lit.vars = [] ∧ ∀ ρ, lit.denote ρ = some v := by
  cases s with
  | bool =>
    obtain ⟨b, rfl⟩ := bool_of_hasSort h
    exact ⟨_, rfl, rfl, rfl, rfl, fun _ => rfl⟩
  | bitVec w =>
    obtain ⟨bits, rfl, lt⟩ := bitVec_of_hasSort h
    refine ⟨leaf l (.bitVec bits w), ?_, ?_, rfl, rfl, fun _ => rfl⟩
    · rw [toLiteral?, Bits.mask_of_lt (width_le valued) lt]
    · rw [wellSorted, Bool.and_eq_true]
      exact ⟨valued, decide_eq_true lt⟩
  | float f =>
    obtain ⟨p, bits, rfl, rfl, lt⟩ := float_of_hasSort h
    have width : p.format.width ≤ 64 := by cases p <;> decide
    have precision : p.format.precision? = some p := by cases p <;> rfl
    refine ⟨leaf l (.float bits p.format), ?_, ?_, rfl, rfl, fun ρ => ?_⟩
    · rw [toLiteral?, Bits.mask_of_lt width lt]
    · rw [wellSorted, Bool.and_eq_true]
      exact ⟨valued, decide_eq_true lt⟩
    · rw [denote, Atom.denote, precision, Option.map_some]
  | array i e => cases scalar

/-- A term over literals that has a value without an assignment has no constants. -/
theorem vars_of_literals {t : Term} (literals : t.children.all isLiteral = true) {v : Value}
    (h : t.eval {} = .ok v) : t.vars = [] := by
  have none : ∀ {a : Term}, a.isLiteral = true → a.vars = [] := by
    intro a ha
    unfold isLiteral at ha
    split at ha
    · cases ha
    next l a notVar => cases a <;> simp_all [vars]
    · cases ha
  cases t with
  | leaf l a =>
    cases a with
    | bool | bitVec | float => rfl
    | var name s => simp [eval, Atom.eval] at h
  | unary l op a => simp_all [vars, children]
  | binary l op a b => simp_all [vars, children]
  | ternary l op a b c => simp_all [vars, children]
  | junction l op items =>
    refine List.eq_nil_iff_forall_not_mem.2 fun x hx => ?_
    obtain ⟨t, ht, hx⟩ := mem_varsAll.1 hx
    rw [none (List.all_eq_true.1 literals t ht)] at hx
    cases hx

theorem fold_stands {t : Term} (h : t.wellSorted TermSort.valued = true) : Stands (fold t) t := by
  unfold fold
  split
  next => exact .refl h
  next scalar =>
    simp only [Bool.or_eq_true, Bool.not_eq_true', not_or, Bool.not_eq_false, Bool.not_eq_true] at scalar
    split
    next v value =>
      have closed := vars_of_literals scalar.1 value
      have denotes : ∀ ρ, t.denote ρ = some v := by
        intro ρ
        rw [← value?_eq_some, value?_eq_denote] at value
        rw [← value]
        exact denote_congr fun x hx => by rw [closed] at hx; cases hx
      obtain ⟨w, hw, sort⟩ := denote_hasSort sampleValuation_wellSorted h
      cases (denotes _).symm.trans hw
      obtain ⟨lit, literal, sorted, same, noVars, denotes'⟩ :=
        toLiteral?_of_hasSort sort (admissible_sort rfl h) scalar.2 t.label
      rw [literal]
      exact ⟨sorted, same, by simp [noVars], fun ρ _ => (denotes' ρ).trans (denotes ρ).symm⟩
    next => exact .refl h

/-- A well-sorted boolean term is true or false. -/
theorem denote_bool {ρ : Valuation} (hρ : ρ.WellSorted) {t : Term}
    (h : t.wellSorted TermSort.valued = true) (sort : t.sort = .bool) :
    ∃ b, t.denote ρ = some (.bool b) := by
  obtain ⟨v, hv, sv⟩ := denote_hasSort hρ h
  rw [sort] at sv
  obtain ⟨b, rfl⟩ := bool_of_hasSort sv
  exact ⟨b, hv⟩

theorem width_of_isSome {s : TermSort} (h : s.width?.isSome = true) : ∃ w, s = .bitVec w := by
  cases s with
  | bitVec w => exact ⟨w, rfl⟩
  | bool | float | array => cases h

/-- A well-sorted bit-vector term has bits. -/
theorem denote_bits {ρ : Valuation} (hρ : ρ.WellSorted) {t : Term}
    (h : t.wellSorted TermSort.valued = true) {w : Nat} (sort : t.sort = .bitVec w) :
    ∃ x, t.denote ρ = some (.bitVec x w) ∧ x < 2 ^ w := by
  obtain ⟨v, hv, sv⟩ := denote_hasSort hρ h
  rw [sort] at sv
  obtain ⟨x, rfl, lt⟩ := bitVec_of_hasSort sv
  exact ⟨x, hv, lt⟩

theorem not_stands {l : Label} {a : Term} (h : (unary l .not a).wellSorted TermSort.valued = true) :
    Stands (not l a) (unary l .not a) := by
  unfold not
  split
  next l' b =>
    simp only [wellSorted, Bool.and_eq_true, UnaryOp.accepts, beq_iff_eq] at h
    obtain ⟨⟨-, -⟩, ⟨-, accepts⟩, sorted⟩ := h
    refine ⟨sorted, accepts, fun _ hx => hx, fun ρ hρ => ?_⟩
    obtain ⟨r, hr⟩ := denote_bool hρ sorted accepts
    rw [denote, denote, hr]
    change some (Value.bool r) = some (Value.bool (!!r))
    rw [Bool.not_not]
  next => exact fold_stands h

theorem bool?_leaf {t : Term} {b : Bool} (h : t.bool? = some b) : ∃ l, t = leaf l (.bool b) := by
  unfold bool? at h
  split at h
  next l b' =>
    cases h
    exact ⟨l, rfl⟩
  · cases h

theorem denoteItems_cons {ρ : Valuation} {absorbing b : Bool} {t : Term} {ts : List Term}
    (h : t.denote ρ = some (.bool b)) : denoteItems ρ absorbing (t :: ts) =
      if b = absorbing then some absorbing else denoteItems ρ absorbing ts := by
  rw [denoteItems, h]
  rfl

/-- An item that is literally absorbing decides. -/
theorem denoteItems_of_essential?_none {ρ : Valuation} {op : Junction} {items : List Term}
    (bools : ∀ t ∈ items, ∃ b, t.denote ρ = some (.bool b)) (h : essential? op items = none) :
    denoteItems ρ op.absorbing items = some op.absorbing := by
  induction items with
  | nil => cases h
  | cons t ts ih =>
    obtain ⟨⟨b, hb⟩, rest⟩ := List.forall_mem_cons.1 bools
    rw [denoteItems_cons hb]
    split
    next => rfl
    next other =>
      rw [essential?] at h
      split at h
      next b' literal =>
        obtain ⟨l, rfl⟩ := bool?_leaf literal
        cases hb
        rw [if_neg other] at h
        exact ih rest h
      next => exact ih rest (by simpa using h)

/-- Items that are literally neutral do not count. -/
theorem denoteItems_of_essential?_some {ρ : Valuation} {op : Junction} {items ts : List Term}
    (bools : ∀ t ∈ items, ∃ b, t.denote ρ = some (.bool b)) (h : essential? op items = some ts) :
    denoteItems ρ op.absorbing items = denoteItems ρ op.absorbing ts := by
  induction items generalizing ts with
  | nil =>
    cases h
    rfl
  | cons t items ih =>
    obtain ⟨⟨b, hb⟩, rest⟩ := List.forall_mem_cons.1 bools
    rw [essential?] at h
    split at h
    next b' literal =>
      obtain ⟨l, rfl⟩ := bool?_leaf literal
      cases hb
      split at h
      next => cases h
      next other => rw [denoteItems_cons rfl, if_neg other, ih rest h]
    next =>
      obtain ⟨ts', known, rfl⟩ := Option.map_eq_some_iff.1 h
      rw [denoteItems_cons hb, denoteItems_cons hb, ih rest known]

theorem essential?_sublist {op : Junction} {items ts : List Term} (h : essential? op items = some ts) :
    ts.Sublist items := by
  induction items generalizing ts with
  | nil =>
    cases h
    exact .slnil
  | cons t items ih =>
    rw [essential?] at h
    split at h
    next =>
      split at h
      next => cases h
      next => exact (ih h).cons t
    next =>
      obtain ⟨ts', known, rfl⟩ := Option.map_eq_some_iff.1 h
      exact (ih known).cons_cons t

/-- A junction of truth values has the value that its items decide. -/
theorem denote_join {ρ : Valuation} {l : Label} {op : Junction} {items : List Term}
    (bools : ∀ t ∈ items, ∃ b, t.denote ρ = some (.bool b)) :
    (join l op items).denote ρ = (denoteItems ρ op.absorbing items).map Value.bool := by
  unfold join
  split
  next none =>
    rw [denoteItems_of_essential?_none bools none]
    rfl
  next none =>
    rw [denoteItems_of_essential?_some bools none, denoteItems]
    rfl
  next t single =>
    obtain ⟨b, hb⟩ := bools t ((essential?_sublist single).subset List.mem_cons_self)
    rw [denoteItems_of_essential?_some bools single, denoteItems_cons hb, denoteItems, hb]
    cases op <;> cases b <;> rfl
  next several => rw [denoteItems_of_essential?_some bools several, denote]

theorem join_stands {l : Label} {op : Junction} {items : List Term}
    (h : (junction l op items).wellSorted TermSort.valued = true) :
    Stands (join l op items) (junction l op items) := by
  have each := wellSortedBools_iff.1 h
  have denote (ρ : Valuation) (hρ : ρ.WellSorted) :
      (join l op items).denote ρ = (junction l op items).denote ρ := by
    rw [denote_join fun t ht => denote_bool hρ (each t ht).2 (each t ht).1, Term.denote]
  suffices shape : (join l op items).wellSorted TermSort.valued = true ∧ (join l op items).sort = .bool ∧
      (join l op items).vars ⊆ varsAll items from ⟨shape.1, shape.2.1, shape.2.2, denote⟩
  unfold join
  split
  next => exact ⟨rfl, rfl, by simp [ofBool, vars]⟩
  next => exact ⟨rfl, rfl, by simp [ofBool, vars]⟩
  next t single =>
    have mem : t ∈ items := (essential?_sublist single).subset List.mem_cons_self
    exact ⟨(each t mem).2, (each t mem).1, fun x hx => mem_varsAll.2 ⟨t, mem, hx⟩⟩
  next ts _ _ several =>
    have sub := (essential?_sublist several).subset
    refine ⟨wellSortedBools_iff.2 fun t ht => each t (sub ht), rfl, fun x hx => ?_⟩
    obtain ⟨t, ht, hx⟩ := mem_varsAll.1 hx
    exact mem_varsAll.2 ⟨t, sub ht, hx⟩

theorem same_denote {a b : Term} (h : a.same b = true) (ρ : Valuation) : a.denote ρ = b.denote ρ :=
  denote_of_alike ρ ((same_eq_alike a b).symm.trans h)

theorem isScalar_of_hasSort {v : Value} {s : TermSort} (h : v.hasSort s = true)
    (scalar : s.isArray = false) : v.isScalar = true := by
  cases v with
  | bool | bitVec | float => rfl
  | array a => cases s <;> simp_all [hasSort, TermSort.isArray, TermSort.element?]

theorem eq_stands {l : Label} {a b : Term} (h : (binary l .eq a b).wellSorted TermSort.valued = true)
    (scalar : a.sort.isArray = false) : Stands (eq l a b) (binary l .eq a b) := by
  unfold eq
  split
  next same =>
    refine ⟨rfl, rfl, by simp [ofBool, vars], fun ρ hρ => ?_⟩
    simp only [wellSorted, Bool.and_eq_true] at h
    obtain ⟨v, hv, sv⟩ := denote_hasSort hρ h.1.2
    have alike := Value.Alike.of_isScalar (isScalar_of_hasSort sv scalar)
    have equal := (Value.same_iff_alike (.inl alike.scalar.1)).2 alike
    rw [denote, ← same_denote same ρ, hv]
    change some (Value.bool true) = some (Value.bool (v.same v))
    rw [equal]
  next => exact fold_stands h

theorem ite_stands {l : Label} {c a b : Term}
    (h : (ternary l .ite c a b).wellSorted TermSort.valued = true) :
    Stands (ite l c a b) (ternary l .ite c a b) := by
  have raw := h
  simp only [wellSorted, Bool.and_eq_true, TernaryOp.accepts, beq_iff_eq] at h
  obtain ⟨⟨⟨⟨-, isBool, sorts⟩, hc⟩, ha⟩, hb⟩ := h
  have chooses {ρ : Valuation} {r : Bool} (hr : c.denote ρ = some (.bool r)) :
      (ternary l .ite c a b).denote ρ = if r then a.denote ρ else b.denote ρ := by
    rw [denote, hr]
    rfl
  unfold ite
  split
  next literal =>
    obtain ⟨l', rfl⟩ := bool?_leaf literal
    exact ⟨ha, rfl, fun x hx => by simp [vars, hx], fun ρ _ => (chooses rfl).symm⟩
  next literal =>
    obtain ⟨l', rfl⟩ := bool?_leaf literal
    exact ⟨hb, sorts.symm, fun x hx => by simp [vars, hx], fun ρ _ => (chooses rfl).symm⟩
  next =>
    split
    next same =>
      refine ⟨ha, rfl, fun x hx => by simp [vars, hx], fun ρ hρ => ?_⟩
      obtain ⟨r, hr⟩ := denote_bool hρ hc isBool
      rw [chooses hr, same_denote same ρ]
      split <;> rfl
    next =>
      split
      next isTrue isFalse =>
        obtain ⟨la, rfl⟩ := bool?_leaf isTrue
        obtain ⟨lb, rfl⟩ := bool?_leaf isFalse
        refine ⟨hc, isBool, fun x hx => by simp [vars, hx], fun ρ hρ => ?_⟩
        obtain ⟨r, hr⟩ := denote_bool hρ hc isBool
        rw [chooses hr, hr]
        cases r <;> rfl
      next isFalse isTrue =>
        obtain ⟨la, rfl⟩ := bool?_leaf isFalse
        obtain ⟨lb, rfl⟩ := bool?_leaf isTrue
        have negation : (unary l .not c).wellSorted TermSort.valued = true := by
          simp [wellSorted, isBool, hc, UnaryOp.accepts, sort, TermSort.valued]
        have stands := not_stands negation
        refine ⟨stands.sorted, stands.sort, fun x hx => ?_, fun ρ hρ => ?_⟩
        · have := stands.vars hx
          simp_all [vars]
        · obtain ⟨r, hr⟩ := denote_bool hρ hc isBool
          have negated : (unary l .not c).denote ρ = some (.bool !r) := by
            rw [denote, hr]
            rfl
          rw [stands.denote ρ hρ, chooses hr, negated]
          cases r <;> rfl
      next => exact .refl raw

theorem signExtend_stands {l : Label} {extra : Nat} {a : Term}
    (h : (unary l (.signExtend extra) a).wellSorted TermSort.valued = true) :
    Stands (signExtend l extra a) (unary l (.signExtend extra) a) := by
  unfold signExtend
  split
  next zero =>
    subst zero
    simp only [wellSorted, Bool.and_eq_true, UnaryOp.accepts] at h
    obtain ⟨w, hw⟩ := width_of_isSome h.1.2
    refine ⟨h.2, by rw [sort_unary, hw]; rfl, fun _ hx => hx, fun ρ hρ => ?_⟩
    obtain ⟨x, hx, lt⟩ := denote_bits hρ h.2 hw
    rw [denote, hx]
    change _ = some (Value.ofInt (Bits.toInt x w) w)
    rw [Value.ofInt, Bits.ofInt_toInt (width_le (hw ▸ admissible_sort rfl h.2)) lt]
  next => exact fold_stands h

theorem zeroExtend_stands {l : Label} {extra : Nat} {a : Term}
    (h : (unary l (.zeroExtend extra) a).wellSorted TermSort.valued = true) :
    Stands (zeroExtend l extra a) (unary l (.zeroExtend extra) a) := by
  unfold zeroExtend
  split
  next zero =>
    subst zero
    simp only [wellSorted, Bool.and_eq_true, UnaryOp.accepts] at h
    obtain ⟨w, hw⟩ := width_of_isSome h.1.2
    refine ⟨h.2, by rw [sort_unary, hw]; rfl, fun _ hx => hx, fun ρ hρ => ?_⟩
    obtain ⟨x, hx, -⟩ := denote_bits hρ h.2 hw
    rw [denote, hx]
    rfl
  next => exact fold_stands h

theorem extract_stands {l : Label} {high low : Nat} {a : Term}
    (h : (unary l (.extract high low) a).wellSorted TermSort.valued = true) :
    Stands (extract l high low a) (unary l (.extract high low) a) := by
  unfold extract
  split
  next whole =>
    obtain ⟨rfl, width⟩ := whole
    simp only [wellSorted, Bool.and_eq_true] at h
    obtain ⟨w, hw⟩ := width_of_isSome (Option.isSome_of_eq_some width)
    rw [hw] at width
    cases width
    refine ⟨h.2, by rw [sort_unary, hw]; rfl, fun _ hx => hx, fun ρ hρ => ?_⟩
    obtain ⟨x, hx, lt⟩ := denote_bits hρ h.2 hw
    rw [denote, hx]
    change _ = some (Value.bitVec (Bits.mask (x >>> 0) (high + 1)) (high + 1))
    rw [Nat.shiftRight_zero, Bits.mask_of_lt (width_le (hw ▸ admissible_sort rfl h.2)) lt]
  next => exact fold_stands h

end Term
end SinkReach
