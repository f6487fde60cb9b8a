import SinkReach.Proofs.Symbolic.Names
import SinkReach.Proofs.Symbolic.Registry

/-!
What a context has given out: names of unknowns and numbers of types. It only ever gives out more.
-/
namespace SinkReach

/-- The name was given to an unknown. -/
def Context.Issued (c : Context) (name : String) : Prop :=
  (∃ n < c.locals, name = localName n) ∨ ∃ n < c.unbounded, name = unboundedName n

/-- Contexts that have issued and registered all that another one has. -/
structure Context.Before (c c' : Context) : Prop where
  locals : c.locals ≤ c'.locals
  unbounded : c.unbounded ≤ c'.unbounded
  registry : c.registry ≤ c'.registry

theorem Context.Before.refl (c : Context) : c.Before c :=
  ⟨Nat.le_refl _, Nat.le_refl _, Registry.le_refl _⟩

theorem Context.Before.relabel (c : Context) (x : Nat) : c.Before { c with labels := x } :=
  ⟨Nat.le_refl _, Nat.le_refl _, Registry.le_refl _⟩

theorem Context.Before.trans {c c' c'' : Context} (h : c.Before c') (h' : c'.Before c'') :
    c.Before c'' :=
  ⟨Nat.le_trans h.locals h'.locals, Nat.le_trans h.unbounded h'.unbounded,
    Registry.le_trans h.registry h'.registry⟩

theorem Context.Issued.mono {c c' : Context} {name : String} (h : c.Issued name) (le : c.Before c') :
    c'.Issued name :=
  h.imp (fun ⟨n, lt, eq⟩ => ⟨n, Nat.lt_of_lt_of_le lt le.locals, eq⟩)
    (fun ⟨n, lt, eq⟩ => ⟨n, Nat.lt_of_lt_of_le lt le.unbounded, eq⟩)

theorem Context.Issued.initialOf {c : Context} {name : String} (h : c.Issued name) :
    initialOf name = some 'l' ∨ initialOf name = some 'u' := by
  rcases h with ⟨n, -, rfl⟩ | ⟨n, -, rfl⟩
  · exact .inl (initialOf_localName n)
  · exact .inr (initialOf_unboundedName n)

/-- Unknowns are not called like the array of a field. -/
theorem Context.Issued.ne_id {c : Context} {name : String} (h : c.Issued name) (k : Chunk) :
    k.id ≠ name :=
  h.initialOf.elim (fun initial => Chunk.id_ne_of_initial initial rfl)
    fun initial => Chunk.id_ne_of_initial initial rfl

theorem Context.Issued.ne_arrayName {c : Context} {name : String} (h : c.Issued name) :
    name ≠ Registry.arrayName := by
  rintro rfl
  have initial := h.initialOf
  rw [Registry.initialOf_arrayName] at initial
  rcases initial with h | h <;> cases h

theorem Chunk.id_ne_arrayName (k : Chunk) : k.id ≠ Registry.arrayName :=
  Chunk.id_ne_of_initial Registry.initialOf_arrayName rfl

namespace Context

variable (c : Context)

theorem not_issued_local : ¬ c.Issued (localName c.locals) := by
  rintro (⟨n, lt, eq⟩ | ⟨n, -, eq⟩)
  · exact Nat.lt_irrefl _ (localName_injective eq ▸ lt)
  · exact localName_ne_unboundedName _ _ eq

theorem not_issued_unbounded : ¬ c.Issued (unboundedName c.unbounded) := by
  rintro (⟨n, -, eq⟩ | ⟨n, lt, eq⟩)
  · exact localName_ne_unboundedName _ _ eq.symm
  · exact Nat.lt_irrefl _ (unboundedName_injective eq ▸ lt)

/-- The context after one more local unknown. -/
def nextLocal : Context := { c with locals := c.locals + 1 }

/-- The context after one more literal of unknown content. -/
def nextUnbounded : Context := { c with unbounded := c.unbounded + 1 }

theorem before_nextLocal : c.Before c.nextLocal := ⟨Nat.le_succ _, Nat.le_refl _, Registry.le_refl _⟩

theorem before_nextUnbounded : c.Before c.nextUnbounded :=
  ⟨Nat.le_refl _, Nat.le_succ _, Registry.le_refl _⟩

theorem issued_nextLocal : c.nextLocal.Issued (localName c.locals) := .inl ⟨_, Nat.lt_succ_self _, rfl⟩

theorem issued_nextUnbounded : c.nextUnbounded.Issued (unboundedName c.unbounded) :=
  .inr ⟨_, Nat.lt_succ_self _, rfl⟩

end Context

end SinkReach
