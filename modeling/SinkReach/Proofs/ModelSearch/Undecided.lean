import SinkReach.Proofs.ModelSearch.Facts

/-!
Facts under an assignment that leaves some conjuncts without a truth value. Only conjuncts that have one teach
anything, so the facts hold wherever no conjunct is false.
-/
namespace SinkReach.ModelSearch

open Term

/-- A literal that has a value is of a sort with values. -/
theorem valued_of_literal? {t : Term} {v : Value} (h : literal? t = some v)
    (sorted : t.wellSorted TermSort.supported = true) : t.sort.valued = true := by
  have lit : t.isLiteral = true := by
    unfold literal? at h
    split at h
    next lit => exact lit
    next => cases h
  have supported := admissible_sort rfl sorted
  have value := (literal?_eq_some h {}).1
  obtain ⟨l, a, rfl, notVar⟩ := leaf_of_isLiteral lit
  rw [value?_leaf] at value
  cases a with
  | bool => rfl
  | bitVec => exact supported
  | float bits f =>
    simp only [Atom.eval] at value
    cases precision : f.precision? with
    | none => simp [precision, Except.toOption] at value
    | some p => simp [sort, Atom.sort, TermSort.valued, precision]
  | var name s => exact absurd rfl (notVar name s)

namespace Facts

variable {f : Facts} {env : Assignment} {l : Label} {a b : Term} {positive : Bool}

/-- A constant of a sort with values has one. -/
theorem Assigned.value? {name : String} {s : TermSort} (bound : Assigned env (leaf l (.var name s)))
    (valued : s.valued = true) :
    ∃ v, (leaf l (.var name s)).value? env = some v ∧ v.hasSort s = true := by
  obtain ⟨v, found, hs⟩ := bound (name, s) (by simp [vars]) valued
  exact ⟨v, by rw [value?_leaf]; simp [Atom.eval, found, Except.toOption], hs⟩

theorem decided_eq {v w : Value} (ha : a.value? env = some v) (hb : b.value? env = some w) :
    ∃ r, (binary l .eq a b).value? env = some (.bool r) :=
  ⟨v.same w, by rw [value?_binary, ha, hb]; rfl⟩

/-- An equation of a constant and a literal is decided, unless the literal has no value. -/
theorem learnEq_idle_or_value? {name : String} {s : TermSort} {lit : Term}
    (sorted : lit.wellSorted TermSort.supported = true) (sorts : s = lit.sort)
    (bound : Assigned env (leaf l (.var name s))) :
    f.learnEq name lit positive = f ∨
      ∃ v w, (leaf l (.var name s)).value? env = some v ∧ lit.value? env = some w := by
  unfold Facts.learnEq
  split
  next => exact .inl rfl
  next w value =>
    obtain ⟨v, hv, -⟩ := bound.value? (sorts ▸ valued_of_literal? value sorted)
    exact .inr ⟨v, w, hv, (literal?_eq_some value env).1⟩

/-- An element of an array constant at a literal index is decided against a literal, unless one of them has
no value. -/
theorem learnElement_idle_or_value? {array index lit : Term}
    (sorted : (binary l .select array index).wellSorted TermSort.supported = true)
    (lits : lit.wellSorted TermSort.supported = true)
    (sorts : (binary l .select array index).sort = lit.sort)
    (bound : Assigned env (binary l .select array index)) :
    f.learnElement array index lit = f ∨
      ∃ v w, (binary l .select array index).value? env = some v ∧ lit.value? env = some w := by
  unfold Facts.learnElement
  split
  next name i w isVar hi hw =>
    obtain ⟨l', s, rfl⟩ := var?_eq_some isVar
    simp only [wellSorted, BinaryOp.accepts, Bool.and_eq_true, sort, Atom.sort, beq_iff_eq] at sorted sorts
    obtain ⟨⟨⟨-, shape⟩, -⟩, indexSorted⟩ := sorted
    have valued : s.valued = true := by
      rw [shape, TermSort.valued, Bool.and_eq_true, sorts]
      exact ⟨valued_of_literal? hi indexSorted, valued_of_literal? hw lits⟩
    obtain ⟨v, hv, hs⟩ := Assigned.value? (fun x hx => bound x (List.mem_append_left _ hx)) valued
    rw [shape] at hs
    cases v with
    | array x =>
      refine .inr ⟨x.get i, w, ?_, (literal?_eq_some hw env).1⟩
      rw [value?_binary, hv, (literal?_eq_some hi env).1]
      rfl
    | bool | bitVec | float => simp [Value.hasSort] at hs
  next => exact .inl rfl

/-- An equation that teaches something is decided. -/
theorem learnEquation_idle_or_decided
    (sorted : (binary l .eq a b).wellSorted TermSort.supported = true) (bound : Assigned env (binary l .eq a b)) :
    f.learnEquation a b positive = f ∨ ∃ r, (binary l .eq a b).value? env = some (.bool r) := by
  simp only [wellSorted, BinaryOp.accepts, Bool.and_eq_true, beq_iff_eq] at sorted
  obtain ⟨⟨⟨-, sorts⟩, ha⟩, hb⟩ := sorted
  have left : Assigned env a := fun x hx => bound x (List.mem_append_left _ hx)
  have right : Assigned env b := fun x hx => bound x (List.mem_append_right _ hx)
  unfold Facts.learnEquation
  split
  next isVar _ =>
    obtain ⟨l', s, rfl⟩ := var?_eq_some isVar
    refine (learnEq_idle_or_value? hb sorts left).imp_right ?_
    rintro ⟨_, _, hv, hw⟩
    exact decided_eq hv hw
  next isVar _ _ =>
    obtain ⟨l', s, rfl⟩ := var?_eq_some isVar
    refine (learnEq_idle_or_value? ha sorts.symm right).imp_right ?_
    rintro ⟨_, _, hv, hw⟩
    exact decided_eq hw hv
  next =>
    split
    next =>
      split
      next =>
        split
        next =>
          refine (learnElement_idle_or_value? ha hb sorts left).imp_right ?_
          rintro ⟨_, _, hv, hw⟩
          exact decided_eq hv hw
        next => exact .inl rfl
      next =>
        split
        next =>
          refine (learnElement_idle_or_value? hb ha sorts.symm right).imp_right ?_
          rintro ⟨_, _, hv, hw⟩
          exact decided_eq hw hv
        next => exact .inl rfl
      next => exact .inl rfl
    next => exact .inl rfl

theorem decided_compare {op : Bits.CompareOp} {x w y w' : Nat} (ha : a.value? env = some (.bitVec x w))
    (hb : b.value? env = some (.bitVec y w')) :
    ∃ r, (binary l (.compare op) a b).value? env = some (.bool r) :=
  ⟨op.holds (Bits.toInt x w) (Bits.toInt y w), by rw [value?_binary, ha, hb]; rfl⟩

/-- A comparison that teaches something is decided. -/
theorem learnCompare_idle_or_decided {op : Bits.CompareOp}
    (sorted : (binary l (.compare op) a b).wellSorted TermSort.supported = true)
    (bound : Assigned env (binary l (.compare op) a b)) :
    f.learnCompare op a b positive = f ∨ ∃ r, (binary l (.compare op) a b).value? env = some (.bool r) := by
  simp only [wellSorted, BinaryOp.accepts, Bool.and_eq_true, beq_iff_eq] at sorted
  obtain ⟨⟨⟨-, -, sorts⟩, ha⟩, hb⟩ := sorted
  -- The side that is a constant has the width of the literal, and all widths have values.
  have constant : ∀ {l' : Label} {name : String} {s : TermSort} {w : Nat},
      (leaf l' (.var name s)).wellSorted TermSort.supported = true → s = .bitVec w →
      Assigned env (leaf l' (.var name s)) →
      ∃ x, (leaf l' (.var name s)).value? env = some (.bitVec x w) := by
    rintro l' name s w sorted rfl bound
    have valued : (TermSort.bitVec w).valued = true := admissible_sort rfl sorted
    obtain ⟨v, hv, hs⟩ := bound.value? valued
    obtain ⟨x, rfl, -⟩ := Value.bitVec_of_hasSort hs
    exact ⟨x, hv⟩
  unfold Facts.learnCompare
  dsimp only
  split
  next isVar isInt =>
    obtain ⟨l', s, rfl⟩ := var?_eq_some isVar
    obtain ⟨l'', bits, v, rfl, -⟩ := int?_eq_some isInt
    obtain ⟨x, hx⟩ := constant ha sorts fun y hy => bound y (List.mem_append_left _ hy)
    exact .inr (decided_compare hx (value?_leaf ..))
  next isVar isInt _ =>
    obtain ⟨l', s, rfl⟩ := var?_eq_some isVar
    obtain ⟨l'', bits, v, rfl, -⟩ := int?_eq_some isInt
    obtain ⟨x, hx⟩ := constant hb sorts.symm fun y hy => bound y (List.mem_append_right _ hy)
    exact .inr (decided_compare (value?_leaf ..) hx)
  next => exact .inl rfl

/-- A conjunct that teaches something has a truth value. -/
theorem learn_idle_or_decided {t : Term} {positive : Bool}
    (sorted : t.wellSorted TermSort.supported = true) (bound : Assigned env t) :
    f.learn positive t = f ∨ ∃ r, t.value? env = some (.bool r) := by
  unfold Facts.learn
  split
  next l a =>
    simp only [wellSorted, Bool.and_eq_true] at sorted
    refine (learn_idle_or_decided sorted.2 bound).imp_right ?_
    rintro ⟨r, hr⟩
    refine ⟨!r, ?_⟩
    rw [value?_unary, hr]
    rfl
  next l name =>
    obtain ⟨v, hv, hs⟩ := bound.value? rfl
    obtain ⟨r, rfl⟩ := Value.bool_of_hasSort hs
    exact .inr ⟨r, hv⟩
  next => exact learnEquation_idle_or_decided sorted bound
  next => exact learnCompare_idle_or_decided sorted bound
  next => exact .inl rfl

/-- What a conjunct teaches holds unless the conjunct is false. -/
theorem Sound.learn_unrefuted {t : Term} (h : f.Sound env) (sorted : t.wellSorted TermSort.supported = true)
    (bound : Assigned env t) (unrefuted : t.value? env ≠ some (.bool false)) : (f.learn true t).Sound env := by
  have either : f.learn true t = f ∨ ∃ r, t.value? env = some (.bool r) := learn_idle_or_decided sorted bound
  rcases either with idle | ⟨r, value⟩
  · rw [idle]
    exact h
  · cases r with
    | false => exact absurd value unrefuted
    | true => exact h.learn sorted bound value

end Facts

/-- The assignment binds what has values, and makes no conjunct false. -/
structure Spares (env : Assignment) (vars : Table String TermSort) (conjuncts : List Term) : Prop where
  unrefuted : ∀ t ∈ conjuncts, t.value? env ≠ some (.bool false)
  sorted : ∀ t ∈ conjuncts, t.wellSorted TermSort.supported = true
  bound : ∀ t ∈ conjuncts, Facts.Assigned env t
  entries : ∀ e ∈ vars.entries, e.2.valued = true → ∃ v, env.get? e.1 = some v ∧ v.hasSort e.2
  supported : ∀ e ∈ vars.entries, e.2.supported = true
  named : ∀ t ∈ conjuncts, ∀ x ∈ t.vars, x.1 ∈ vars.keys

theorem Spares.sound_facts {env : Assignment} {vars : Table String TermSort} {conjuncts : List Term}
    (h : Spares env vars conjuncts) : (Facts.ofConjuncts vars conjuncts).Sound env := by
  obtain ⟨unrefuted, sorted, bound, entries, supported, -⟩ := h
  have start := Facts.sound_initial entries supported
  unfold Facts.ofConjuncts
  generalize Facts.initial vars = f at start
  induction conjuncts generalizing f with
  | nil => exact start
  | cons t ts ih =>
    obtain ⟨ht, hts⟩ := List.forall_mem_cons.1 unrefuted
    obtain ⟨st, sts⟩ := List.forall_mem_cons.1 sorted
    obtain ⟨bt, bts⟩ := List.forall_mem_cons.1 bound
    exact ih hts sts bts _ (start.learn_unrefuted st bt ht)

end SinkReach.ModelSearch
