import SinkReach.Proofs.Simulation.Next

/-!
Well-typed states. In a scene without bridges nothing has to carry over, and twins are merely well-sorted
terms whose constants are known; a run that is compared with itself there keeps its states well-typed.
-/
namespace SinkReach

/-- The scene has no bridges. -/
def Scene.Still (S : Scene) : Prop := ∀ E, ¬ S.bridges E

variable {S : Scene} {κ κ' : Links} {r : Role} {a a' : Term} {c c' : Context} {s t : SymState}

theorem Twin.still (still : S.Still) (sorted : a.wellSorted TermSort.valued = true)
    (named : ∀ x ∈ a.vars, S.Names κ x) : Twin S κ r a a where
  sorted := sorted
  sorted' := sorted
  sort := rfl
  named := named
  carries := fun E hE => absurd hE (still E)

/-- Known constants stay known under more links. -/
theorem Scene.Names.of_consts {x : String × TermSort} (h : S.Names κ x)
    (sub : κ.consts ⊆ κ'.consts) : S.Names κ' x := by
  cases h with
  | linked hk => exact .linked (sub hk)
  | field hf => exact .field hf
  | tags => exact .tags

/-- Without bridges only the constants matter. -/
theorem Twin.of_consts (still : S.Still) (h : Twin S κ r a a') (sub : κ.consts ⊆ κ'.consts) :
    Twin S κ' r a a' :=
  { h with
    named := fun x hx => (h.named x hx).of_consts sub
    carries := fun E hE => absurd hE (still E) }

theorem TwinValue.of_consts {v v' : SymValue} (still : S.Still) (h : TwinValue S κ v v')
    (sub : κ.consts ⊆ κ'.consts) : TwinValue S κ' v v' := by
  cases h with
  | primitive kind fits => exact .primitive kind ⟨fits.1.of_consts still sub, fits.2⟩
  | reference kind fits => exact .reference kind ⟨fits.1.of_consts still sub, fits.2⟩

theorem TwinMemory.of_consts {m m' : Memory} (still : S.Still) (h : TwinMemory S κ m m')
    (sub : κ.consts ⊆ κ'.consts) : TwinMemory S κ' m m' where
  locals := fun hv hv' => (h.locals hv hv').imp id fun twin => twin.of_consts still sub
  bound := h.bound
  arrays := fun f hf l l' => (h.arrays f hf l l').imp (fun twin => twin.of_consts still sub) id
  chunks := h.chunks

/-- The state has well-sorted conditions and contents, made of known constants. -/
structure Typed (S : Scene) (κ : Links) (s : SymState) : Prop where
  memory : TwinMemory S κ s.memory s.memory
  conditions : ∀ t ∈ s.constraints, Plain S κ .bool t t
  positive : 1 ≤ s.nextAddress

/-- The links account for the constants of a context, and for no objects. -/
structure Accounts (S : Scene) (κ : Links) (c : Context) : Prop where
  objects : κ.objects = []
  tidy : Tidy S κ c c 1 1

namespace Typed

theorem mono (still : S.Still) (h : Typed S κ s) (sub : κ.consts ⊆ κ'.consts) : Typed S κ' s where
  memory := h.memory.of_consts still sub
  conditions := fun t ht => (h.conditions t ht).imp (fun twin => twin.of_consts still sub) id
  positive := h.positive

theorem initial (S : Scene) (κ : Links) : Typed S κ .initial where
  memory := .empty S κ
  conditions := fun _ h => nomatch h
  positive := Nat.le_refl 1

end Typed

namespace Accounts

/-- Links without their objects. -/
def forget (κ : Links) : Links := { κ with objects := [] }

theorem empty (S : Scene) : Accounts S .empty {} where
  objects := rfl
  tidy := {
    issued := fun _ h => nomatch h
    distinct := .nil
    sound := fun _ h => nomatch h
    sources := fun _ => ⟨(fun _ h => nomatch h), .nil⟩
    objects := fun _ h => nomatch h
    objects_left := .nil
    objects_right := .nil
    positive := ⟨Nat.le_refl 1, Nat.le_refl 1⟩
    behind := Nat.le_refl 1
    unrepeated := .nil
    types := fun _ h => nomatch h
    registered := fun _ _ h => nomatch h }

theorem of_tidy {n n' : Nat} (h : Tidy S κ c c n n') : Accounts S (forget κ) c where
  objects := rfl
  tidy := {
    issued := h.issued
    distinct := h.distinct
    sound := h.sound
    sources := h.sources
    objects := fun _ h => nomatch h
    objects_left := .nil
    objects_right := .nil
    positive := ⟨Nat.le_refl 1, Nat.le_refl 1⟩
    behind := Nat.le_refl 1
    unrepeated := h.unrepeated
    types := h.types
    registered := h.registered }

theorem tidyAt (h : Accounts S κ c) {n : Nat} (positive : 1 ≤ n) : Tidy S κ c c n n :=
  h.tidy.raise positive positive (Nat.le_refl n)

end Accounts

/-- What follows a well-typed state is well-typed. -/
theorem Follows.typed (h : Follows S κ' c c' s s t t) (still : S.Still) (typed : Typed S κ s)
    (sub : κ.consts ⊆ κ'.consts) : Typed S κ' t where
  memory := h.memory
  conditions := by
    obtain ⟨_, ts, -, eq, known, -⟩ := h.conditions
    rw [eq]
    refine List.forall_mem_append.2 ⟨(typed.mono still sub).conditions, fun t ht => ?_⟩
    obtain ⟨condition, names⟩ := known t ht
    exact ⟨.still still condition.2 names, condition.1⟩
  positive := h.tidy.positive.1

section Steps

variable {q : Query} {m : Method} {limit : Nat} {b : Body} {w w₁ : World} {x : ExecState}
  {fs : List ExecState}

/-- A local is never bound on one side only. -/
theorem catchesUp_self (s : SymState) (id : LocalId) : CatchesUp S κ c c' s s id :=
  fun _ unmatched => nomatch unmatched.1.symm.trans unmatched.2

/-- A step from a well-typed state leads to well-typed states. -/
theorem next_typed (still : S.Still) (inMethod : ∀ e ∈ q.path.entries, e.method = m)
    (body : q.body m = .ok b) (regular : ∀ i ∈ b.instructions, i.Regular S) (within : x.Within m)
    (uniform : w.calls.Uniform q m) (accounts : Accounts S κ w.context) (typed : Typed S κ x.symbolic)
    (h : (x.next q limit).run.run w = (.ok fs, w₁)) :
    ∃ κ₁, κ.consts ⊆ κ₁.consts ∧ Accounts S κ₁ w₁.context ∧ w.context.Before w₁.context ∧
      w₁.calls.Uniform q m ∧ ∀ f ∈ fs, f.Within m ∧ Typed S κ₁ f.symbolic ∧
        ∃ ts, f.symbolic.constraints = x.symbolic.constraints ++ ts := by
  obtain ⟨κ₁, le, before, arrives⟩ := next_twin inMethod body regular within within rfl uniform uniform
    typed.memory (accounts.tidyAt typed.positive) (catchesUp_self x.symbolic) h h
  obtain ⟨n, n', tidy⟩ := arrives.tidy
  refine ⟨Accounts.forget κ₁, le.1, .of_tidy tidy, before, arrives.uniform, fun f hf => ?_⟩
  have successor := List.forall₂_same.1 arrives.twins f hf
  obtain ⟨ts, -, more, -⟩ := successor.follows.conditions
  exact ⟨successor.within, (successor.follows.typed still typed le.1).mono still fun _ hk => hk, ts, more⟩

end Steps
end SinkReach
