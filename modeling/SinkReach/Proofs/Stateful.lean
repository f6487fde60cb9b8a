/-!
Laws of computations that change a state and may fail, what they changed until then being kept. They
are run one operation at a time.
-/
namespace SinkReach

theorem except_bind_ok {ε α β : Type} {x : Except ε α} {f : α → Except ε β} {b : β} :
    (x >>= f) = .ok b ↔ ∃ a, x = .ok a ∧ f a = .ok b := by
  constructor
  · intro h
    cases x with
    | error e => cases h
    | ok a => exact ⟨a, rfl, h⟩
  · rintro ⟨a, rfl, h⟩
    exact h

theorem run_bind {ε σ α β : Type} (x : ExceptT ε (StateM σ) α) (f : α → ExceptT ε (StateM σ) β)
    (s : σ) : (x >>= f).run.run s =
      match x.run.run s with
      | (.ok a, s') => (f a).run.run s'
      | (.error e, s') => (.error e, s') := by
  change (StateT.bind x.run (ExceptT.bindCont f)) s = _
  simp only [StateT.bind, StateT.run]
  change (match x.run s with | (a, s') => ExceptT.bindCont f a s') = _
  rcases x.run s with ⟨_ | _, _⟩ <;> rfl

/-- A sequence that succeeds is one whose parts succeed one after the other. -/
theorem run_bind_ok {ε σ α β : Type} {x : ExceptT ε (StateM σ) α}
    {f : α → ExceptT ε (StateM σ) β} {s s' : σ} {b : β} :
    (x >>= f).run.run s = (.ok b, s') ↔
      ∃ a s'', x.run.run s = (.ok a, s'') ∧ (f a).run.run s'' = (.ok b, s') := by
  rw [run_bind]
  rcases x.run.run s with ⟨e | a, s''⟩
  · constructor
    · intro h
      cases h
    · rintro ⟨_, _, h, _⟩
      cases h
  · constructor
    · intro h
      exact ⟨a, s'', rfl, h⟩
    · rintro ⟨_, _, h, h'⟩
      cases h
      exact h'

/-- A sequence succeeds with a result of a kind if its first part succeeds and the rest does so. -/
theorem run_bind_exists {ε σ α β : Type} {x : ExceptT ε (StateM σ) α} {f : α → ExceptT ε (StateM σ) β}
    {s s'' : σ} {a : α} {P : β → σ → Prop} (first : x.run.run s = (.ok a, s''))
    (rest : ∃ b s', (f a).run.run s'' = (.ok b, s') ∧ P b s') :
    ∃ b s', (x >>= f).run.run s = (.ok b, s') ∧ P b s' := by
  obtain ⟨b, s', run, result⟩ := rest
  exact ⟨b, s', run_bind_ok.2 ⟨a, s'', first, run⟩, result⟩

section Basics

variable {ε σ α : Type} {s s' : σ} {a : α}

theorem run_pure_ok {b : α} :
    (pure b : ExceptT ε (StateM σ) α).run.run s = (.ok a, s') ↔ a = b ∧ s' = s := by
  constructor
  · intro h
    cases h
    exact ⟨rfl, rfl⟩
  · rintro ⟨rfl, rfl⟩
    rfl

theorem run_lift_ok {x : Except ε α} :
    (liftExcept x : ExceptT ε (StateM σ) α).run.run s = (.ok a, s') ↔ x = .ok a ∧ s' = s := by
  cases x with
  | error e =>
    constructor
    · intro h
      cases h
    · rintro ⟨h, _⟩
      cases h
  | ok b =>
    refine run_pure_ok.trans (and_congr_left' ?_)
    rw [Except.ok.injEq]
    exact eq_comm

theorem run_throw_ne_ok {e : ε} : (throw e : ExceptT ε (StateM σ) α).run.run s ≠ (.ok a, s') := by
  intro h
  cases h

end Basics
end SinkReach
