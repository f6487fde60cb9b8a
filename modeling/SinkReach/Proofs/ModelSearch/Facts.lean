import SinkReach.Proofs.Table
import SinkReach.Proofs.Term.Bits
import SinkReach.Proofs.Term.Sameness
import SinkReach.Proofs.Term.Sorting

/-!
Facts learned from conjuncts hold in every model of the conjuncts. Each fact is about one constant, so a
model satisfies the facts if its value of every constant does; values count up to sameness.
-/
namespace SinkReach

namespace Value

/-- An index takes the place of another that is the same. -/
theorem Alike.same_right {v w : Value} (h : v.Alike w) (u : Value) : u.same v = u.same w := by
  rw [Bool.eq_iff_iff, same_iff_alike (.inr h.scalar.1), same_iff_alike (.inr h.scalar.2)]
  exact ⟨fun hu => hu.trans h, fun hu => hu.trans h.symm⟩

end Value

theorem ArrayValue.get_congr {v w : Value} (h : v.Alike w) (a : ArrayValue) : a.get v = a.get w := by
  simp only [get, h.same_right]

namespace ModelSearch

open Term

theorem leaf_of_isLiteral {t : Term} (h : t.isLiteral = true) :
    ∃ l a, t = leaf l a ∧ ∀ name s, a ≠ .var name s := by
  unfold isLiteral at h
  split at h
  · cases h
  next l a notVar => exact ⟨l, a, rfl, notVar⟩
  · cases h

/-- The value of a literal does not depend on the assignment. -/
theorem literal?_eq_value? {t : Term} (h : t.isLiteral = true) (env : Assignment) :
    literal? t = t.value? env := by
  obtain ⟨l, a, rfl, notVar⟩ := leaf_of_isLiteral h
  rw [literal?, if_pos h]
  change (leaf l a).value? {} = _
  rw [value?_leaf, value?_leaf]
  cases a with
  | bool | bitVec | float => rfl
  | var name s => exact absurd rfl (notVar name s)

theorem isScalar_of_isLiteral {t : Term} (h : t.isLiteral = true) {env : Assignment} {v : Value}
    (value : t.value? env = some v) : v.isScalar = true := by
  obtain ⟨l, a, rfl, notVar⟩ := leaf_of_isLiteral h
  rw [value?_leaf] at value
  cases a with
  | bool | bitVec =>
    cases value
    rfl
  | float bits f =>
    simp only [Atom.eval] at value
    cases hp : f.precision? with
    | none => simp [hp, Except.toOption] at value
    | some p =>
      simp only [hp] at value
      cases value
      rfl
  | var name s => exact absurd rfl (notVar name s)

theorem literal?_eq_some {t : Term} {v : Value} (h : literal? t = some v) (env : Assignment) :
    t.value? env = some v ∧ v.isScalar = true := by
  have lit : t.isLiteral = true := by
    unfold literal? at h
    split at h
    next lit => exact lit
    next => cases h
  rw [literal?_eq_value? lit env] at h
  exact ⟨h, isScalar_of_isLiteral lit h⟩

theorem var?_eq_some {t : Term} {name : String} (h : t.var? = some name) :
    ∃ l s, t = leaf l (.var name s) := by
  unfold Term.var? at h
  split at h
  next l n s =>
    cases h
    exact ⟨l, s, rfl⟩
  · cases h

theorem int?_eq_some {t : Term} {n : Int} (h : t.int? = some n) :
    ∃ l bits w, t = leaf l (.bitVec bits w) ∧ n = Bits.toInt bits w := by
  unfold Term.int? at h
  split at h
  next l bits w =>
    cases h
    exact ⟨l, bits, w, rfl, rfl⟩
  · cases h

/-- The facts hold of the values of the constants. -/
structure Facts.Sound (f : Facts) (env : Assignment) : Prop where
  intervals : ∀ e ∈ f.intervals.entries, ∃ bits w, env.get? e.1 = some (.bitVec bits w) ∧
    e.2.1 ≤ Bits.toInt bits w ∧ Bits.toInt bits w ≤ e.2.2
  pins : ∀ e ∈ f.pins.entries, ∃ v, env.get? e.1 = some v ∧ v.Alike e.2
  excluded : ∀ e ∈ f.excluded.entries, ∀ w ∈ e.2, ∃ v, env.get? e.1 = some v ∧ ¬ v.Alike w
  elements : ∀ e ∈ f.elements.entries, ∀ kw ∈ e.2, ∃ a, env.get? e.1 = some (.array a) ∧
    (a.get kw.1).Alike kw.2
  consistent : f.contradiction = false

namespace Facts

variable {f : Facts} {env : Assignment} {name : String}

theorem Sound.pin (h : f.Sound env) {v w : Value} (bound : env.get? name = some v)
    (alike : v.Alike w) : (f.pin name w).Sound env := by
  unfold Facts.pin
  split
  next u known =>
    obtain ⟨v', bound', alike'⟩ := h.pins _ (Table.mem_of_get? known)
    cases bound.symm.trans bound'
    rw [if_pos ((Value.same_iff_alike (.inl alike'.scalar.2)).2 (alike'.symm.trans alike))]
    exact h
  next =>
    refine { h with pins := fun e he => ?_ }
    rcases Table.mem_insert he with rfl | old
    · exact ⟨v, bound, alike⟩
    · exact h.pins e old

theorem Sound.exclude (h : f.Sound env) {v w : Value} (bound : env.get? name = some v)
    (other : ¬ v.Alike w) : (f.exclude name w).Sound env := by
  refine { h with excluded := fun e he u hu => ?_ }
  rcases Table.mem_insert he with rfl | old
  · rcases List.mem_append.1 hu with hu | hu
    · cases known : f.excluded.get? name with
      | none => simp [known] at hu
      | some us => exact h.excluded _ (Table.mem_of_get? known) u (by simpa [known] using hu)
    · cases List.mem_singleton.1 hu
      exact ⟨v, bound, other⟩
  · exact h.excluded e old u hu

theorem Sound.atLeast (h : f.Sound env) {bits w : Nat} (bound : env.get? name = some (.bitVec bits w))
    {n : Int} (le : n ≤ Bits.toInt bits w) : (f.atLeast name n).Sound env := by
  unfold Facts.atLeast
  split
  next lo hi known =>
    obtain ⟨bits', w', bound', low, high⟩ := h.intervals _ (Table.mem_of_get? known)
    cases bound.symm.trans bound'
    refine { h with intervals := fun e he => ?_ }
    rcases Table.mem_insert he with rfl | old
    · exact ⟨bits, w, bound, Int.max_le.2 ⟨low, le⟩, high⟩
    · exact h.intervals e old
  next => exact h

theorem Sound.atMost (h : f.Sound env) {bits w : Nat} (bound : env.get? name = some (.bitVec bits w))
    {n : Int} (le : Bits.toInt bits w ≤ n) : (f.atMost name n).Sound env := by
  unfold Facts.atMost
  split
  next lo hi known =>
    obtain ⟨bits', w', bound', low, high⟩ := h.intervals _ (Table.mem_of_get? known)
    cases bound.symm.trans bound'
    refine { h with intervals := fun e he => ?_ }
    rcases Table.mem_insert he with rfl | old
    · exact ⟨bits, w, bound, low, Int.le_min.2 ⟨high, le⟩⟩
    · exact h.intervals e old
  next => exact h

theorem Sound.element (h : f.Sound env) {a : ArrayValue} (bound : env.get? name = some (.array a))
    {index v : Value} (scalar : index.isScalar = true) (alike : (a.get index).Alike v) :
    (f.element name index v).Sound env := by
  have earlier : ∀ kw ∈ (f.elements.get? name).getD [], (a.get kw.1).Alike kw.2 := by
    intro kw hkw
    cases known : f.elements.get? name with
    | none => simp [known] at hkw
    | some kws =>
      obtain ⟨a', bound', alike'⟩ :=
        h.elements _ (Table.mem_of_get? known) kw (by simpa [known] using hkw)
      cases bound.symm.trans bound'
      exact alike'
  unfold Facts.element
  dsimp only
  split
  next k w found =>
    have hit : k.same index = true := List.find?_some (p := fun e : Value × Value => e.1.same index) found
    have same := (Value.same_iff_alike (.inr scalar)).1 hit
    have stored := earlier _ (List.mem_of_find?_eq_some found)
    rw [ArrayValue.get_congr same] at stored
    rw [if_pos ((Value.same_iff_alike (.inl stored.scalar.2)).2 (stored.symm.trans alike))]
    exact h
  next =>
    refine { h with elements := fun e he kw hkw => ?_ }
    rcases Table.mem_insert he with rfl | old
    · rcases List.mem_append.1 hkw with hkw | hkw
      · exact ⟨a, bound, earlier kw hkw⟩
      · cases List.mem_singleton.1 hkw
        exact ⟨a, bound, alike⟩
    · exact h.elements e old kw hkw

/-- A constant that is the same as a literal, or not, as the flag says. -/
theorem Sound.learnEq (h : f.Sound env) {v w : Value} (bound : env.get? name = some v) {lit : Term}
    (value : lit.value? env = some w) {positive : Bool} (agree : v.Alike w ↔ positive = true) :
    (f.learnEq name lit positive).Sound env := by
  unfold Facts.learnEq
  split
  next => exact h
  next u known =>
    cases value.symm.trans (literal?_eq_some known env).1
    cases positive with
    | false => exact h.exclude bound (by simpa using agree)
    | true =>
      have alike := agree.2 rfl
      simp only [if_true]
      refine Sound.pin ?_ bound alike
      split
      next bits width =>
        cases alike
        exact (h.atLeast bound (Int.le_refl _)).atMost bound (Int.le_refl _)
      next => exact h

theorem Sound.learnElement (h : f.Sound env) {array index lit : Term} {a : ArrayValue} {i v : Value}
    (ha : array.value? env = some (.array a)) (hi : index.value? env = some i)
    (hv : lit.value? env = some v) (same : (a.get i).same v = true) :
    (f.learnElement array index lit).Sound env := by
  unfold Facts.learnElement
  split
  next name i' v' isVar index' lit' =>
    obtain ⟨l, s, rfl⟩ := var?_eq_some isVar
    cases hi.symm.trans (literal?_eq_some index' env).1
    cases hv.symm.trans (literal?_eq_some lit' env).1
    have scalar := (literal?_eq_some lit' env).2
    have bound : env.get? name = some (.array a) := by
      rw [value?_leaf] at ha
      simp only [Atom.eval] at ha
      split at ha
      next found =>
        cases ha
        exact found
      next => cases ha
    exact h.element bound (literal?_eq_some index' env).2 ((Value.same_iff_alike (.inr scalar)).1 same)
  next => exact h

theorem flip_holds (op : Bits.CompareOp) (x y : Int) : (flip op).holds x y = op.holds y x := by
  cases op <;> rfl

theorem negate_holds (op : Bits.CompareOp) (x y : Int) : (negate op).holds x y = !op.holds x y := by
  cases op <;> simp only [negate, Bits.CompareOp.holds] <;> grind

theorem Sound.learnBound (h : f.Sound env) {bits w : Nat}
    (bound : env.get? name = some (.bitVec bits w)) {op : Bits.CompareOp} {n : Int}
    (holds : op.holds (Bits.toInt bits w) n = true) : (f.learnBound name op n).Sound env := by
  cases op <;> simp only [Bits.CompareOp.holds, decide_eq_true_eq] at holds
  · exact h.atMost bound (by omega)
  · exact h.atMost bound holds
  · exact h.atLeast bound (by omega)
  · exact h.atLeast bound holds

/-- Values of the sides of an equation. -/
theorem value?_eq_eq_some {l : Label} {a b : Term} {r : Bool}
    (h : (binary l .eq a b).value? env = some (.bool r)) :
    ∃ v w, a.value? env = some v ∧ b.value? env = some w ∧ v.same w = r := by
  rw [value?_binary] at h
  obtain ⟨v, hv, h⟩ := Option.bind_eq_some_iff.1 h
  obtain ⟨w, hw, h⟩ := Option.bind_eq_some_iff.1 h
  cases h
  exact ⟨v, w, hv, hw, rfl⟩

theorem get?_of_value? {l : Label} {s : TermSort} {v : Value}
    (h : (leaf l (.var name s)).value? env = some v) : env.get? name = some v := by
  rw [value?_leaf] at h
  simp only [Atom.eval] at h
  split at h
  next found =>
    cases h
    exact found
  next => cases h

/-- Values of the sides of an equation with a selected element. -/
theorem value?_select_eq_some {l : Label} {array index : Term} {v : Value}
    (h : (binary l .select array index).value? env = some v) :
    ∃ a i, array.value? env = some (.array a) ∧ index.value? env = some i ∧ a.get i = v := by
  rw [value?_binary] at h
  obtain ⟨a, ha, h⟩ := Option.bind_eq_some_iff.1 h
  obtain ⟨i, hi, h⟩ := Option.bind_eq_some_iff.1 h
  cases a <;> cases h
  exact ⟨_, i, ha, hi, rfl⟩

theorem Sound.learnEquation (h : f.Sound env) {l : Label} {a b : Term} {positive : Bool}
    (holds : (binary l .eq a b).value? env = some (.bool positive)) :
    (f.learnEquation a b positive).Sound env := by
  obtain ⟨v, w, hv, hw, same⟩ := value?_eq_eq_some holds
  unfold Facts.learnEquation
  split
  next isVar lit =>
    obtain ⟨l', s, rfl⟩ := var?_eq_some isVar
    have alike := Value.same_iff_alike (v := v) (.inr (isScalar_of_isLiteral lit hw))
    exact h.learnEq (get?_of_value? hv) hw (by rw [← alike, same])
  next isVar lit _ =>
    obtain ⟨l', s, rfl⟩ := var?_eq_some isVar
    have alike := Value.same_iff_alike (w := w) (.inl (isScalar_of_isLiteral lit hv))
    refine h.learnEq (get?_of_value? hw) hv ?_
    rw [← same, alike]
    exact ⟨Value.Alike.symm, Value.Alike.symm⟩
  next =>
    cases positive with
    | false => exact h
    | true =>
      simp only [if_true]
      split
      next array index _ =>
        split
        next lit =>
          obtain ⟨x, i, hx, hi, rfl⟩ := value?_select_eq_some hv
          exact h.learnElement hx hi hw same
        next => exact h
      next array index _ _ =>
        split
        next lit =>
          obtain ⟨x, i, hx, hi, rfl⟩ := value?_select_eq_some hw
          have alike := (Value.same_iff_alike (.inl (isScalar_of_isLiteral lit hv))).1 same
          exact h.learnElement hx hi hv ((Value.same_iff_alike (.inl alike.scalar.2)).2 alike.symm)
        next => exact h
      next => exact h

/-- A constant and a literal of the width that both sides of a comparison have. -/
theorem value?_compare_eq_some {l : Label} {op : Bits.CompareOp} {a b : Term} {r : Bool}
    (h : (binary l (.compare op) a b).value? env = some (.bool r)) :
    ∃ x w y w', a.value? env = some (.bitVec x w) ∧ b.value? env = some (.bitVec y w') ∧
      op.holds (Bits.toInt x w) (Bits.toInt y w) = r := by
  rw [value?_binary] at h
  obtain ⟨v, hv, h⟩ := Option.bind_eq_some_iff.1 h
  obtain ⟨v', hv', h⟩ := Option.bind_eq_some_iff.1 h
  cases v <;> cases v' <;> cases h
  exact ⟨_, _, _, _, hv, hv', rfl⟩

/-- The assignment binds the constants of a term to values of their sorts. -/
abbrev Bound (env : Assignment) (t : Term) : Prop :=
  ∀ x ∈ t.vars, ∃ v, env.get? x.1 = some v ∧ v.hasSort x.2

/-- The assignment binds those constants of a term whose sort has values. Constants of other floating-point
formats may be without a value. -/
abbrev Assigned (env : Assignment) (t : Term) : Prop :=
  ∀ x ∈ t.vars, x.2.valued = true → ∃ v, env.get? x.1 = some v ∧ v.hasSort x.2

theorem Bound.assigned {t : Term} (bound : Bound env t) : Assigned env t := fun x hx _ => bound x hx

/-- Every admissible width has values. -/
theorem width_of_assigned {l : Label} {w : Nat}
    (sorted : (leaf l (.var name (.bitVec w))).wellSorted TermSort.supported = true)
    (bound : Assigned env (leaf l (.var name (.bitVec w))))
    {x w' : Nat} (value : (leaf l (.var name (.bitVec w))).value? env = some (.bitVec x w')) :
    w' = w := by
  have valued : (TermSort.bitVec w).valued = true := admissible_sort rfl sorted
  obtain ⟨v, hv, sort⟩ := bound (name, .bitVec w) (by simp [vars]) valued
  obtain ⟨bits, rfl, -⟩ := Value.bitVec_of_hasSort sort
  cases hv.symm.trans (get?_of_value? value)
  rfl

theorem Sound.learnCompare (h : f.Sound env) {l : Label} {op : Bits.CompareOp} {a b : Term}
    {positive : Bool} (sorted : (binary l (.compare op) a b).wellSorted TermSort.supported = true)
    (bound : Assigned env (binary l (.compare op) a b))
    (holds : (binary l (.compare op) a b).value? env = some (.bool positive)) :
    (f.learnCompare op a b positive).Sound env := by
  simp only [wellSorted, BinaryOp.accepts, Bool.and_eq_true, beq_iff_eq] at sorted
  obtain ⟨⟨⟨-, -, sorts⟩, left⟩, right⟩ := sorted
  have side : ∀ (op' : Bits.CompareOp) (x y : Int), op'.holds x y = positive →
      (if positive then op' else negate op').holds x y = true := by
    intro op' x y h
    cases positive <;> simp [negate_holds, h]
  obtain ⟨x, w, y, w', ha, hb, result⟩ := value?_compare_eq_some holds
  unfold Facts.learnCompare
  dsimp only
  split
  next isVar isInt =>
    obtain ⟨l', s, rfl⟩ := var?_eq_some isVar
    obtain ⟨l'', bits, v, rfl, rfl⟩ := int?_eq_some isInt
    cases sorts
    cases hb
    cases width_of_assigned left (fun x hx => bound x (List.mem_append_left _ hx)) ha
    exact h.learnBound (get?_of_value? ha) (side op _ _ result)
  next isVar isInt _ =>
    obtain ⟨l', s, rfl⟩ := var?_eq_some isVar
    obtain ⟨l'', bits, v, rfl, rfl⟩ := int?_eq_some isInt
    cases sorts
    cases ha
    cases width_of_assigned right (fun x hx => bound x (List.mem_append_right _ hx)) hb
    exact h.learnBound (get?_of_value? hb) (side _ _ _ (by rw [flip_holds, result]))
  next => exact h

/-- What a conjunct says if it is true, or false, holds in a model in which it is. -/
theorem Sound.learn (h : f.Sound env) {t : Term} {positive : Bool}
    (sorted : t.wellSorted TermSort.supported = true) (bound : Assigned env t)
    (holds : t.value? env = some (.bool positive)) : (f.learn positive t).Sound env := by
  unfold Facts.learn
  split
  next l a =>
    rw [value?_unary] at holds
    obtain ⟨v, hv, result⟩ := Option.bind_eq_some_iff.1 holds
    simp only [wellSorted, Bool.and_eq_true] at sorted
    cases v <;> cases result
    exact h.learn sorted.2 bound (by simpa using hv)
  next l name => exact h.pin (get?_of_value? holds) (.bool positive)
  next l a b => exact h.learnEquation holds
  next l op a b => exact h.learnCompare sorted bound holds
  next => exact h

theorem sound_initial {vars : Table String TermSort}
    (bound : ∀ e ∈ vars.entries, e.2.valued = true → ∃ v, env.get? e.1 = some v ∧ v.hasSort e.2)
    (supported : ∀ e ∈ vars.entries, e.2.supported = true) : (initial vars).Sound env where
  intervals := by
    rintro ⟨name, lo, hi⟩ he
    simp only [initial, List.mem_filterMap, Option.map_eq_some_iff] at he
    obtain ⟨⟨name', sort⟩, mem, w, hw, eq⟩ := he
    cases sort <;> cases hw
    cases eq
    have width := supported _ mem
    obtain ⟨v, hv, hs⟩ := bound _ mem width
    obtain ⟨bits, rfl, lt⟩ := Value.bitVec_of_hasSort hs
    simp only [TermSort.supported, decide_eq_true_eq] at width
    exact ⟨bits, w, hv, Bits.toInt_mem_signedRange width.1 width.2 lt⟩
  pins := fun _ he => nomatch he
  excluded := fun _ he => nomatch he
  elements := fun _ he => nomatch he
  consistent := rfl

/-- A value that is the same as a constant's is not excluded for it. -/
theorem Sound.not_excluded (h : f.Sound env) {v w : Value} (bound : env.get? name = some v)
    (alike : v.Alike w) : f.isExcluded name w = false := by
  rw [isExcluded, List.any_eq_false]
  intro u hu same
  cases known : f.excluded.get? name with
  | none => simp [known] at hu
  | some us =>
    obtain ⟨v', bound', other⟩ :=
      h.excluded _ (Table.mem_of_get? known) u (by simpa [known] using hu)
    cases bound.symm.trans bound'
    have alike' := (Value.same_iff_alike (.inr alike.scalar.2)).1 same
    exact other (alike.trans alike'.symm)

theorem Sound.not_refuted (h : f.Sound env) : f.refuted = false := by
  simp only [refuted, h.consistent, Bool.false_or, Bool.or_eq_false_iff, List.any_eq_false,
    decide_eq_true_eq, Bool.not_eq_true]
  constructor
  · rintro ⟨name, lo, hi⟩ he
    obtain ⟨bits, w, -, low, high⟩ := h.intervals _ he
    exact Int.not_lt.2 (Int.le_trans low high)
  · intro e he
    obtain ⟨v, bound, alike⟩ := h.pins e he
    exact h.not_excluded bound alike

end Facts
end ModelSearch
end SinkReach
