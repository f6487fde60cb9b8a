import SinkReach.Proofs.Stateful
import SinkReach.Symbolic.Machine

/-!
Runs of the machine that succeed, taken apart one operation at a time.
-/
namespace SinkReach

/-- The operation succeeds with a result, and leaves a machine and a context. -/
def Run.Yields {α : Type} (x : Run α) (M : Machine) (c : Context) (a : α) (M' : Machine)
    (c' : Context) : Prop := (x.run.run M).run c = ((.ok a, M'), c')

namespace Run

variable {α β : Type} {M M' : Machine} {c c' : Context}

/-- A run has one outcome. -/
theorem Yields.unique {x : Run α} {a b : α} {M₁ M₂ : Machine} {c₁ c₂ : Context} (h : x.Yields M c a M₁ c₁)
    (h' : x.Yields M c b M₂ c₂) : a = b ∧ M₁ = M₂ ∧ c₁ = c₂ := by
  cases h.symm.trans h'
  exact ⟨rfl, rfl, rfl⟩

theorem yields_pure {a b : α} : (pure a : Run α).Yields M c b M' c' ↔ b = a ∧ M' = M ∧ c' = c := by
  constructor
  · intro h
    cases h
    exact ⟨rfl, rfl, rfl⟩
  · rintro ⟨rfl, rfl, rfl⟩
    rfl

theorem run_bind_eq (x : Run α) (f : α → Run β) (M : Machine) (c : Context) :
    ((x >>= f).run.run M).run c =
      match (x.run.run M).run c with
      | ((.ok a, M₁), c₁) => ((f a).run.run M₁).run c₁
      | ((.error e, M₁), c₁) => ((.error e, M₁), c₁) := by
  change (StateT.bind (StateT.run x.run M) fun p => (ExceptT.bindCont f p.1).run p.2) c = _
  simp only [StateT.bind, StateT.run]
  change (match x.run M c with | (p, c₁) => (ExceptT.bindCont f p.1).run p.2 c₁) = _
  rcases x.run M c with ⟨⟨_ | _, _⟩, _⟩ <;> rfl

/-- A sequence succeeds if its parts succeed one after the other. -/
theorem yields_bind {x : Run α} {f : α → Run β} {b : β} :
    (x >>= f).Yields M c b M' c' ↔
      ∃ a M₁ c₁, x.Yields M c a M₁ c₁ ∧ (f a).Yields M₁ c₁ b M' c' := by
  unfold Yields
  rw [run_bind_eq]
  rcases (x.run.run M).run c with ⟨⟨e | a, M₁⟩, c₁⟩
  · constructor
    · intro h
      cases h
    · rintro ⟨_, _, _, h, _⟩
      cases h
  · constructor
    · intro h
      exact ⟨a, M₁, c₁, rfl, h⟩
    · rintro ⟨_, _, _, h, h'⟩
      cases h
      exact h'

theorem not_yields_throw {e : Fault} {a : α} : ¬ (throw e : Run α).Yields M c a M' c' := by
  intro h
  cases h

theorem yields_lift {x : Except Fault α} {a : α} :
    (liftExcept x : Run α).Yields M c a M' c' ↔ x = .ok a ∧ M' = M ∧ c' = c := by
  cases x with
  | error e =>
    constructor
    · intro h
      cases h
    · rintro ⟨h, _⟩
      cases h
  | ok b =>
    refine yields_pure.trans ⟨?_, ?_⟩
    · rintro ⟨rfl, rfl, rfl⟩
      exact ⟨rfl, rfl, rfl⟩
    · rintro ⟨h, rfl, rfl⟩
      cases h
      exact ⟨rfl, rfl, rfl⟩

/-- An operation on the context alone. -/
theorem yields_context {f : Context → α × Context} {a : α} :
    (modifyGetThe Context f : Run α).Yields M c a M' c' ↔ a = (f c).1 ∧ M' = M ∧ c' = (f c).2 := by
  constructor
  · intro h
    cases h
    exact ⟨rfl, rfl, rfl⟩
  · rintro ⟨rfl, rfl, rfl⟩
    rfl

/-- An operation on the machine alone. -/
theorem yields_machine {f : Machine → α × Machine} {a : α} :
    (modifyGetThe Machine f : Run α).Yields M c a M' c' ↔ a = (f M).1 ∧ M' = (f M).2 ∧ c' = c := by
  constructor
  · intro h
    cases h
    exact ⟨rfl, rfl, rfl⟩
  · rintro ⟨rfl, rfl, rfl⟩
    rfl

theorem yields_get {N : Machine} :
    (getThe Machine : Run Machine).Yields M c N M' c' ↔ N = M ∧ M' = M ∧ c' = c := by
  constructor
  · intro h
    cases h
    exact ⟨rfl, rfl, rfl⟩
  · rintro ⟨rfl, rfl, rfl⟩
    rfl

theorem yields_modify {f : Machine → Machine} {u : Unit} :
    (modifyThe Machine f : Run Unit).Yields M c u M' c' ↔ M' = f M ∧ c' = c := by
  constructor
  · intro h
    cases h
    exact ⟨rfl, rfl⟩
  · rintro ⟨rfl, rfl⟩
    rfl

theorem yields_freshLabel {l : Label} : (freshLabel : Run Label).Yields M c l M' c' ↔
    l = c.labels ∧ M' = M ∧ c' = { c with labels := c.labels + labelBlock } := yields_context

end Run

/-- Operations run on a state succeed if the machine does. -/
theorem Machine.on_ok {α : Type} {s : SymState} {x : Run α} {c c' : Context} {a : α} :
    (Machine.on s x).run.run c = (.ok a, c') ↔ ∃ M, x.Yields (Machine.start s) c a M c' := by
  unfold Run.Yields
  change (((x.run.run (start s)).run c).1.1, ((x.run.run (start s)).run c).2) = _ ↔ _
  rcases (x.run.run (start s)).run c with ⟨⟨r, M⟩, c₁⟩
  constructor
  · intro h
    cases h
    exact ⟨M, rfl⟩
  · rintro ⟨_, h⟩
    cases h
    rfl

namespace Machine

/-- A result in the sort of its type, if that is primitive. -/
def fitted (l : Label) (t : Term) (ty : Ty) : Except Fault Term :=
  if ty.isPrimitive ∧ t.sort ≠ ty.sort then t.convert l ty.sort else .ok t

/-- The operator on the terms of two values of one kind. -/
def applied (l : Label) (op : Operator) : SymValue → SymValue → Except Fault Term
  | .reference _ a, .reference _ b => op.apply l a b
  | .primitive s a, .primitive t b => do
    let a ← promote (l + 48) s a
    let b ← promote (l + 80) t b
    op.apply l a b
  | v, w => .error (.operatorBetween op v w)

theorem operate_eq (l : Label) (op : Operator) (v w : SymValue) (ty : Ty) :
    operate l op v w ty = do
      let t ← applied l op v w
      let r ← fitted (l + 112) t ty
      return .primitive ty r := by
  have tail : ∀ t : Term, (if ty.isPrimitive ∧ t.sort ≠ ty.sort then
        t.convert (l + 112) ty.sort >>= fun r => pure (SymValue.primitive ty r)
      else Except.ok t >>= fun r => pure (SymValue.primitive ty r)) =
      fitted (l + 112) t ty >>= fun r => pure (SymValue.primitive ty r) := by
    intro t
    unfold fitted
    split <;> rfl
  unfold operate applied
  cases v <;> cases w <;> simp only [tail, bind_assoc]

end Machine
end SinkReach
