import SinkReach.Proofs.Program.Discipline
import SinkReach.Proofs.Symbolic.Names
import SinkReach.Proofs.Symbolic.Run

/-!
Unknown values: a fresh constant of the sort of its type, for a class or array type with the assumption
that it is null or has the tag of the type. Values of type `void` and `null` are never unknown.
-/
namespace SinkReach

/-- The address is null or carries a tag. -/
def Registry.objectOrNull (l : Label) (address : Term) (id : Nat) : Term :=
  .or (l + 8) (hasTag l address id) (isNull (l + 9) address)

/-- The machine after it has gathered an effect. -/
def Machine.gathered (M : Machine) (u : Update) : Machine := { M with pending := M.pending ++ [u] }

/-- How an unknown value of a type is made. -/
inductive Machine.Unknown (M : Machine) (c : Context) : Ty → SymValue → Machine → Context → Prop
  | void : Unknown M c .void (.void c.labels) M { c with labels := c.labels + labelBlock }
  | null : Unknown M c .null (.null c.labels) M { c with labels := c.labels + labelBlock }
  | object {ty : Ty} : ty.isObject = true →
    Unknown M c ty (.reference ty (.var c.labels (localName c.locals) Address.sort))
      (M.gathered (.constraint (Registry.objectOrNull (c.labels + 1)
        (.var c.labels (localName c.locals) Address.sort) (c.registry.tagOf ty).1)))
      { c with
        labels := c.labels + labelBlock
        locals := c.locals + 1
        registry := (c.registry.tagOf ty).2 }
  | primitive {ty : Ty} : ty.isPrimitive = true →
    Unknown M c ty (.primitive ty (.var c.labels (localName c.locals) ty.sort)) M
      { c with labels := c.labels + labelBlock, locals := c.locals + 1 }

theorem Machine.yields_unknown {M M' : Machine} {c c' : Context} {ty : Ty} {v : SymValue}
    (h : (Machine.unknown ty).Yields M c v M' c') : Unknown M c ty v M' c' := by
  unfold Machine.unknown at h
  obtain ⟨l, _, _, label, h⟩ := Run.yields_bind.1 h
  obtain ⟨rfl, rfl, rfl⟩ := Run.yields_freshLabel.1 label
  cases ty with
  | void =>
    obtain ⟨rfl, rfl, rfl⟩ := Run.yields_pure.1 h
    exact .void
  | null =>
    obtain ⟨rfl, rfl, rfl⟩ := Run.yields_pure.1 h
    exact .null
  | ref | array =>
    obtain ⟨_, _, _, fresh, h⟩ := Run.yields_bind.1 h
    obtain ⟨rfl, rfl, rfl⟩ := Run.yields_context.1 fresh
    obtain ⟨_, _, _, typed, h⟩ := Run.yields_bind.1 h
    obtain ⟨rfl, rfl, rfl⟩ := Run.yields_context.1 typed
    obtain ⟨_, _, _, emit, h⟩ := Run.yields_bind.1 h
    obtain ⟨rfl, rfl⟩ := Run.yields_modify.1 emit
    obtain ⟨rfl, rfl, rfl⟩ := Run.yields_pure.1 h
    exact .object rfl
  | boolean | byte | short | char | int | long | float | double =>
    obtain ⟨_, _, _, fresh, h⟩ := Run.yields_bind.1 h
    obtain ⟨rfl, rfl, rfl⟩ := Run.yields_context.1 fresh
    obtain ⟨rfl, rfl, rfl⟩ := Run.yields_pure.1 h
    exact .primitive rfl

theorem Machine.yields_declare {M M' : Machine} {c c' : Context} {id : LocalId} {v : SymValue}
    (h : (Machine.declare id).Yields M c v M' c') :
    ∃ M₁, Unknown M c id.ty v M₁ c' ∧ M' = M₁.gathered (.bind id v) := by
  obtain ⟨_, M₁, _, unknown, h⟩ := Run.yields_bind.1 h
  obtain ⟨_, _, _, emit, h⟩ := Run.yields_bind.1 h
  obtain ⟨rfl, rfl⟩ := Run.yields_modify.1 emit
  obtain ⟨rfl, rfl, rfl⟩ := Run.yields_pure.1 h
  exact ⟨M₁, yields_unknown unknown, rfl⟩

end SinkReach
