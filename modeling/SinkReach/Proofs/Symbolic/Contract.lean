import Mathlib.Data.List.Forall2
import SinkReach.Proofs.Symbolic.Run

/-!
Contracts of runs of the machine. A run keeps an invariant of the machine, its result has a property, and
if it fails, then with one of the faults that are allowed. Where no fault is allowed, it succeeds.
-/
namespace SinkReach

/-- From a machine with the invariant the operation leads to a machine with the invariant and a result
with the property, or to a fault that is allowed. -/
def Run.Ensures {α : Type} (I : Machine → Prop) (E : Fault → Prop) (x : Run α) (P : α → Prop) : Prop :=
  ∀ M c, I M → match (x.run.run M).run c with
    | ((.ok a, M'), _) => I M' ∧ P a
    | ((.error e, _), _) => E e

namespace Run.Ensures

variable {α β : Type} {I : Machine → Prop} {E : Fault → Prop} {P Q : α → Prop} {x : Run α}

theorem pure {a : α} (h : P a) : Ensures I E (Pure.pure a : Run α) P := fun _ _ holds => ⟨holds, h⟩

theorem bind {f : α → Run β} {R : β → Prop} (hx : Ensures I E x P) (hf : ∀ a, P a → Ensures I E (f a) R) :
    Ensures I E (x >>= f) R := by
  intro M c holds
  rw [Run.run_bind_eq]
  have first := hx M c holds
  revert first
  rcases (x.run.run M).run c with ⟨⟨e | a, M₁⟩, c₁⟩
  · exact fun fault => fault
  · exact fun ⟨holds₁, ha⟩ => hf a ha M₁ c₁ holds₁

theorem mono (hx : Ensures I E x P) (imp : ∀ a, P a → Q a) : Ensures I E x Q := by
  intro M c holds
  have result := hx M c holds
  revert result
  rcases (x.run.run M).run c with ⟨⟨e | a, M₁⟩, c₁⟩
  · exact fun fault => fault
  · exact fun ⟨holds₁, ha⟩ => ⟨holds₁, imp a ha⟩

theorem throw {e : Fault} (h : E e) : Ensures I E (MonadExcept.throw e : Run α) P := fun _ _ _ => h

theorem lift {y : Except Fault α} (ok : ∀ a, y = .ok a → P a) (error : ∀ e, y = .error e → E e) :
    Ensures I E (liftExcept y : Run α) P := by
  cases y with
  | ok a => exact pure (ok a rfl)
  | error e => exact throw (error e rfl)

/-- A computation that has a result. -/
theorem of_ok {y : Except Fault α} (h : ∃ a, y = .ok a ∧ P a) : Ensures I E (liftExcept y : Run α) P := by
  obtain ⟨a, rfl, ha⟩ := h
  exact pure ha

/-- An operation on the context alone. -/
theorem context {f : Context → α × Context} (h : ∀ c, P (f c).1) :
    Ensures I E (modifyGetThe Context f : Run α) P := fun _ c holds => ⟨holds, h c⟩

theorem freshLabel : Ensures I E (SinkReach.freshLabel : Run Label) fun _ => True :=
  context fun _ => trivial

theorem get : Ensures I E (getThe Machine : Run Machine) I := fun _ _ holds => ⟨holds, holds⟩

theorem modify {f : Machine → Machine} (h : ∀ M, I M → I (f M)) :
    Ensures I E (modifyThe Machine f : Run Unit) fun _ => True := fun M _ holds => ⟨h M holds, trivial⟩

theorem mapM_forall₂ {f : α → Run β} {R : α → β → Prop} {as : List α} (h : ∀ a ∈ as, Ensures I E (f a) (R a)) :
    Ensures I E (as.mapM f) (List.Forall₂ R as) := by
  induction as with
  | nil =>
    rw [List.mapM_nil]
    exact pure .nil
  | cons a as ih =>
    rw [List.mapM_cons]
    refine bind (h a List.mem_cons_self) fun b hb => ?_
    refine bind (ih fun a' mem => h a' (List.mem_cons_of_mem _ mem)) fun bs hbs => ?_
    exact pure (.cons hb hbs)

theorem mapM {f : α → Run β} {R : β → Prop} {as : List α} (h : ∀ a ∈ as, Ensures I E (f a) R) :
    Ensures I E (as.mapM f) fun bs => ∀ b ∈ bs, R b := by
  refine (mapM_forall₂ h).mono fun bs related => ?_
  induction related with
  | nil => exact List.forall_mem_nil _
  | cons head _ ih => exact List.forall_mem_cons.2 ⟨head, ih fun a mem => h a (List.mem_cons_of_mem _ mem)⟩

variable {M M' : Machine} {c c' : Context} {a : α}

/-- What a run that succeeds leaves. -/
theorem of_yields (h : Ensures I E x P) (holds : I M) (run : x.Yields M c a M' c') : I M' ∧ P a := by
  have result := h M c holds
  rw [run] at result
  exact result

/-- Where no fault is allowed, the run succeeds. -/
theorem exists_yields (h : Ensures I (fun _ => False) x P) (holds : I M) (c : Context) :
    ∃ a M' c', x.Yields M c a M' c' ∧ I M' ∧ P a := by
  have result := h M c holds
  unfold Yields
  revert result
  rcases (x.run.run M).run c with ⟨⟨e | a, M₁⟩, c₁⟩
  · exact fun never => never.elim
  · exact fun result => ⟨a, M₁, c₁, rfl, result⟩

end Run.Ensures
end SinkReach
