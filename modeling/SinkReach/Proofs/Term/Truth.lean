import SinkReach.Proofs.Term.Models

/-!
Truth values of negations, junctions and conditionals as they are evaluated: an item that decides hides
those after it, and a branch that is not chosen need not have a value. Nothing here depends on sorts.
-/
namespace SinkReach.Term

variable {ρ : Valuation} {l : Label} {a b c t : Term} {ts : List Term}

/-- Computing an operation on literals at once does not change a truth value. -/
theorem denote_fold_of_bools (bools : ∀ v, t.eval {} = .ok v → ∃ r, v = .bool r) :
    (fold t).denote ρ = t.denote ρ := by
  unfold fold
  split
  next => rfl
  next literals =>
    simp only [Bool.or_eq_true, Bool.not_eq_true', not_or, Bool.not_eq_false, Bool.not_eq_true] at literals
    split
    next v value =>
      obtain ⟨r, rfl⟩ := bools v value
      have closed := vars_of_literals literals.1 value
      rw [← value?_eq_some, value?_eq_denote] at value
      calc (leaf t.label (.bool r)).denote ρ = t.denote (Assignment.valuation {}) := value.symm
        _ = t.denote ρ := denote_congr fun x hx => by rw [closed] at hx; cases hx
    next => rfl

theorem denote_unary_not : (unary l .not a).denote ρ =
    ((a.denote ρ).bind Value.bool?).map fun r => .bool !r := by
  rw [denote]
  cases a.denote ρ with
  | none => rfl
  | some v => cases v <;> rfl

/-- A negation is true where the negated term is false. -/
theorem denote_not_iff {r : Bool} :
    (not l a).denote ρ = some (.bool r) ↔ a.denote ρ = some (.bool !r) := by
  have negation : ∀ {t : Term}, (unary l .not t).denote ρ = some (.bool r) ↔
      t.denote ρ = some (.bool !r) := by
    intro t
    rw [denote_unary_not]
    cases t.denote ρ with
    | none => simp
    | some v => cases v <;> cases r <;> simp [Value.bool?]
  unfold not
  split
  next l' b =>
    rw [denote_unary_not]
    cases b.denote ρ with
    | none => simp
    | some v => cases v <;> cases r <;> simp [Value.bool?]
  next =>
    rw [denote_fold_of_bools, negation]
    intro v value
    rw [← value?_eq_some, value?_eq_denote, denote_unary_not] at value
    obtain ⟨r, -, rfl⟩ := Option.map_eq_some_iff.1 value
    exact ⟨_, rfl⟩

/-- A conjunction is true if and only if all its items are. -/
theorem denoteItems_and_iff : denoteItems ρ false ts = some true ↔ ρ.Models ts := by
  induction ts with
  | nil => exact iff_of_true rfl Valuation.models_nil
  | cons t ts ih =>
    rw [denoteItems, Valuation.models_cons, ← ih]
    cases t.denote ρ with
    | none => simp
    | some v =>
      cases v with
      | bool r => cases r <;> simp [Value.bool?]
      | bitVec | float | array => simp [Value.bool?]

theorem not_models_of_essential?_none (h : essential? .and ts = none) : ¬ ρ.Models ts := by
  induction ts with
  | nil => cases h
  | cons t ts ih =>
    rw [essential?] at h
    rw [Valuation.models_cons]
    split at h
    next r literal =>
      obtain ⟨l, rfl⟩ := bool?_leaf literal
      split at h
      next absorbing =>
        subst absorbing
        rintro ⟨falsity, -⟩
        cases falsity
      next => exact fun models => ih h models.2
    next => exact fun models => ih (by simpa using h) models.2

theorem models_of_essential? {us : List Term} (h : essential? .and ts = some us) : ρ.Models us ↔ ρ.Models ts := by
  induction ts generalizing us with
  | nil =>
    cases h
    rfl
  | cons t ts ih =>
    rw [essential?] at h
    rw [Valuation.models_cons]
    split at h
    next r literal =>
      obtain ⟨l, rfl⟩ := bool?_leaf literal
      split at h
      next => cases h
      next neutral =>
        rw [ih h]
        cases r with
        | true => exact ⟨fun models => ⟨rfl, models⟩, And.right⟩
        | false => exact absurd rfl neutral
    next =>
      obtain ⟨us', known, rfl⟩ := Option.map_eq_some_iff.1 h
      rw [Valuation.models_cons, ih known]

/-- The conjunction of any terms is true if and only if all of them are. -/
theorem denote_andAll_iff : (andAll l ts).denote ρ = some (.bool true) ↔ ρ.Models ts := by
  unfold andAll join
  split
  next none =>
    have different : (ofBool l Junction.and.absorbing).denote ρ ≠ some (.bool true) := fun h => nomatch h
    exact iff_of_false different (not_models_of_essential?_none none)
  next empty =>
    rw [← models_of_essential? empty]
    exact iff_of_true rfl Valuation.models_nil
  next t single =>
    rw [← models_of_essential? single]
    exact ⟨fun h => Valuation.models_cons.2 ⟨h, Valuation.models_nil⟩, fun h => (Valuation.models_cons.1 h).1⟩
  next us _ _ several =>
    rw [← models_of_essential? several, ← denoteItems_and_iff, denote]
    simp [Junction.absorbing]

/-- A conjunction of truth values is false unless all are true. -/
theorem denote_andAll_eq_false (bools : ∀ t ∈ ts, ∃ r, t.denote ρ = some (.bool r)) (h : ¬ ρ.Models ts) :
    (andAll l ts).denote ρ = some (.bool false) := by
  rw [andAll, denote_join bools]
  obtain ⟨r, hr⟩ : ∃ r, denoteItems ρ Junction.and.absorbing ts = some r := denoteItems_of_bools bools
  cases r with
  | true => exact absurd (denoteItems_and_iff.1 hr) h
  | false => exact congrArg (Option.map Value.bool) hr

theorem denote_or_of_bools {p q : Bool} (ha : a.denote ρ = some (.bool p)) (hb : b.denote ρ = some (.bool q)) :
    (or l a b).denote ρ = some (.bool (p || q)) := by
  have bools : ∀ t ∈ [a, b], ∃ r, t.denote ρ = some (.bool r) :=
    List.forall_mem_cons.2 ⟨⟨p, ha⟩, List.forall_mem_singleton.2 ⟨q, hb⟩⟩
  rw [or, orAll, denote_join bools, denoteItems_cons ha, denoteItems_cons hb, denoteItems]
  cases p <;> cases q <;> rfl

theorem denote_and_of_bools {p q : Bool} (ha : a.denote ρ = some (.bool p)) (hb : b.denote ρ = some (.bool q)) :
    (and l a b).denote ρ = some (.bool (p && q)) := by
  have bools : ∀ t ∈ [a, b], ∃ r, t.denote ρ = some (.bool r) :=
    List.forall_mem_cons.2 ⟨⟨p, ha⟩, List.forall_mem_singleton.2 ⟨q, hb⟩⟩
  rw [and, andAll, denote_join bools, denoteItems_cons ha, denoteItems_cons hb, denoteItems]
  cases p <;> cases q <;> rfl

theorem exists_of_denoteItems_or (h : denoteItems ρ true ts = some true) :
    ∃ t ∈ ts, t.denote ρ = some (.bool true) := by
  induction ts with
  | nil => cases h
  | cons t ts ih =>
    rw [denoteItems] at h
    obtain ⟨r, hr, h⟩ := Option.bind_eq_some_iff.1 h
    obtain ⟨v, hv, hr⟩ := Option.bind_eq_some_iff.1 hr
    rw [Value.bool?_eq_some] at hr
    subst hr
    cases r with
    | true => exact ⟨t, List.mem_cons_self, hv⟩
    | false =>
      obtain ⟨t', mem, holds⟩ := ih (by simpa using h)
      exact ⟨t', List.mem_cons_of_mem _ mem, holds⟩

theorem exists_of_essential?_none (h : essential? .or ts = none) :
    ∃ t ∈ ts, t.denote ρ = some (.bool true) := by
  induction ts with
  | nil => cases h
  | cons t ts ih =>
    rw [essential?] at h
    have later : essential? .or ts = none → ∃ t' ∈ t :: ts, t'.denote ρ = some (.bool true) := by
      intro none
      obtain ⟨t', mem, holds⟩ := ih none
      exact ⟨t', List.mem_cons_of_mem _ mem, holds⟩
    split at h
    next r literal =>
      obtain ⟨l, rfl⟩ := bool?_leaf literal
      split at h
      next absorbing =>
        subst absorbing
        exact ⟨_, List.mem_cons_self, rfl⟩
      next => exact later h
    next => exact later (by simpa using h)

/-- Of a disjunction that is true one item is true. -/
theorem exists_of_denote_orAll (h : (orAll l ts).denote ρ = some (.bool true)) :
    ∃ t ∈ ts, t.denote ρ = some (.bool true) := by
  unfold orAll join at h
  split at h
  next none => exact exists_of_essential?_none none
  next => cases h
  next t single => exact ⟨t, (essential?_sublist single).subset List.mem_cons_self, h⟩
  next us _ _ several =>
    rw [denote] at h
    obtain ⟨t, mem, holds⟩ := exists_of_denoteItems_or (by simpa [Junction.absorbing] using h)
    exact ⟨t, (essential?_sublist several).subset mem, holds⟩

/-- A conditional has the value of the branch that is chosen; the other one may have none. -/
theorem denote_ite_of_condition {r : Bool} (hc : c.denote ρ = some (.bool r)) :
    (ite l c a b).denote ρ = if r then a.denote ρ else b.denote ρ := by
  unfold ite
  split
  next literal =>
    obtain ⟨l, rfl⟩ := bool?_leaf literal
    cases hc
    rfl
  next literal =>
    obtain ⟨l, rfl⟩ := bool?_leaf literal
    cases hc
    rfl
  next =>
    split
    next same =>
      rw [same_denote same]
      exact (ite_self _).symm
    next =>
      split
      next yes no =>
        obtain ⟨l₁, rfl⟩ := bool?_leaf yes
        obtain ⟨l₂, rfl⟩ := bool?_leaf no
        rw [hc]
        cases r <;> rfl
      next no yes =>
        obtain ⟨l₁, rfl⟩ := bool?_leaf no
        obtain ⟨l₂, rfl⟩ := bool?_leaf yes
        have negated : (not l c).denote ρ = some (.bool !r) := denote_not_iff.2 (by rwa [Bool.not_not])
        rw [negated]
        cases r <;> rfl
      next =>
        rw [denote, hc]
        rfl

end SinkReach.Term
