import SinkReach.Proofs.Simulation.Operation
import SinkReach.Proofs.Symbolic.State

/-!
States of two runs that correspond: locals bound in both have twin values, the arrays of all fields are
twins, and what the right run has bound, the left one has bound too. Twin updates keep states so.
-/
namespace SinkReach

variable {S : Scene} {κ κ' : Links} {ty : Ty} {a a' : Term} {l d : Label}

theorem Ty.sort_of_reference (reference : ty.isReference = true) : ty.sort = Address.sort := by
  cases ty with
  | null | ref | array => rfl
  | boolean | byte | short | char | int | long | float | double | void => cases reference

theorem Ty.isReference_of_isPrimitive (primitive : ty.isPrimitive = true) : ty.isReference = false := by
  cases ty with
  | null | ref | array | void => cases primitive
  | boolean | byte | short | char | int | long | float | double => rfl

/-- Twins that are contents of a location of a type. -/
def Fits (S : Scene) (κ : Links) (ty : Ty) (a a' : Term) : Prop :=
  Twin S κ ty.role a a' ∧ a.sort = ty.sort

/-- Twins that are addresses. -/
def Pointer (S : Scene) (κ : Links) (a a' : Term) : Prop :=
  Twin S κ .address a a' ∧ a.sort = Address.sort

theorem Pointer.mono (h : Pointer S κ a a') (le : κ ≤ κ') : Pointer S κ' a a' := ⟨h.1.mono le, h.2⟩

theorem Pointer.null : Pointer S κ (Address.null l) (Address.null d) := ⟨.null, rfl⟩

/-- The arrays of tags of two runs are twins. -/
theorem Twin.tags : Twin S κ (.array .tag) Registry.tags Registry.tags where
  sorted := rfl
  sorted' := rfl
  sort := rfl
  named := fun x hx => by
    cases List.mem_singleton.1 hx
    exact .tags
  carries := fun E hE _ => S.tags_carry E hE

/-- Numbers of linked types are twins. -/
theorem Twin.typeNumber {i : Nat × Nat} (h : i ∈ κ.types) :
    Twin S κ .tag (Term.ofInt l i.1 32) (Term.ofInt d i.2 32) where
  sorted := (Twin.ofInt (S := S) (κ := κ) (d := l) i.1 (by decide) (by decide)).sorted
  sorted' := (Twin.ofInt (S := S) (κ := κ) (l := l) i.2 (by decide) (by decide)).sorted'
  sort := rfl
  named := fun _ hx => nomatch hx
  carries := fun E _ respects => by
    refine ⟨_, _, rfl, rfl, i.1 % 2 ^ 32, ?_, ?_⟩
    · rw [← Twin.ofInt_natCast]
    · rw [respects.types i h, ← Twin.ofInt_natCast]

namespace Pointer

theorem isNull (h : Pointer S κ a a') :
    Plain S κ .bool (Registry.isNull l a) (Registry.isNull d a') := by
  have scalar : a.sort.isArray = false := by rw [h.2]; rfl
  exact h.1.eq rfl .null h.2 scalar

theorem isNotNull (h : Pointer S κ a a') :
    Plain S κ .bool (Registry.isNotNull l a) (Registry.isNotNull d a') := h.isNull.not

theorem hasTag (h : Pointer S κ a a') {i : Nat × Nat} (linked : i ∈ κ.types) :
    Plain S κ .bool (Registry.hasTag l a i.1) (Registry.hasTag d a' i.2) := by
  have tag := Twin.tags.select (l := l + 2) (d := d + 2) rfl h.1 h.2
  exact (tag.eq rfl (.typeNumber linked) rfl rfl).and h.isNotNull

end Pointer

namespace Fits

theorem mono (h : Fits S κ ty a a') (le : κ ≤ κ') : Fits S κ' ty a a' := ⟨h.1.mono le, h.2⟩

theorem iff_plain (primitive : ty.isReference = false) :
    Fits S κ ty a a' ↔ Plain S κ ty.sort a a' := by
  simp [Fits, Plain, Ty.role, primitive]

theorem iff_pointer (reference : ty.isReference = true) : Fits S κ ty a a' ↔ Pointer S κ a a' := by
  simp [Fits, Pointer, Ty.role, reference, Ty.sort_of_reference reference]

end Fits

/-- Values of one type whose terms are twins. -/
inductive TwinValue (S : Scene) (κ : Links) : SymValue → SymValue → Prop
  | primitive {ty : Ty} {a a' : Term} : ty.isReference = false → Fits S κ ty a a' →
    TwinValue S κ (.primitive ty a) (.primitive ty a')
  | reference {ty : Ty} {a a' : Term} : ty.isReference = true → Fits S κ ty a a' →
    TwinValue S κ (.reference ty a) (.reference ty a')

namespace TwinValue

variable {v v' : SymValue}

theorem mono (h : TwinValue S κ v v') (le : κ ≤ κ') : TwinValue S κ' v v' := by
  cases h with
  | primitive kind fits => exact .primitive kind (fits.mono le)
  | reference kind fits => exact .reference kind (fits.mono le)

theorem fits (h : TwinValue S κ v v') : Fits S κ v.ty v.term v'.term := by
  cases h with
  | primitive _ fits => exact fits
  | reference _ fits => exact fits

theorem ty_eq (h : TwinValue S κ v v') : v'.ty = v.ty := by
  cases h with
  | primitive => rfl
  | reference => rfl

theorem wrap {ty : Ty} (h : Fits S κ ty a a') : TwinValue S κ (.wrap ty a) (.wrap ty a') := by
  unfold SymValue.wrap
  split
  next kind => exact .reference kind h
  next kind => exact .primitive (eq_false_of_ne_true kind) h

theorem ofPlain {ty : Ty} (kind : ty.isReference = false) (h : Plain S κ ty.sort a a') :
    TwinValue S κ (.primitive ty a) (.primitive ty a') := .primitive kind ((Fits.iff_plain kind).2 h)

theorem ofPointer {ty : Ty} (kind : ty.isReference = true) (h : Pointer S κ a a') :
    TwinValue S κ (.reference ty a) (.reference ty a') :=
  .reference kind ((Fits.iff_pointer kind).2 h)

theorem null : TwinValue S κ (.null l) (.null d) := .ofPointer rfl .null

theorem void : TwinValue S κ (.void l) (.void d) :=
  .ofPlain rfl (.ofInt 0 (by decide) (by decide))

end TwinValue

/-- Twin values of a given type. -/
def TwinOf (S : Scene) (ty : Ty) (κ : Links) (v v' : SymValue) : Prop :=
  v.ty = ty ∧ TwinValue S κ v v'

/-- Effects of two runs that correspond. Addresses that are reserved need not be linked. -/
inductive TwinUpdate (S : Scene) (κ : Links) : Update → Update → Prop
  | constraint {a a' : Term} : Plain S κ .bool a a' → TwinUpdate S κ (.constraint a) (.constraint a')
  | allocate {n n' : Nat} : n' ≤ n → TwinUpdate S κ (.allocate n) (.allocate n')
  | bind {id : LocalId} {v v' : SymValue} : v.ty = id.ty → TwinValue S κ v v' →
    TwinUpdate S κ (.bind id v) (.bind id v')
  | store {f : Field} {i i' e e' : Term} : S.fields f → Pointer S κ i i' → Fits S κ f.ty e e' →
    TwinUpdate S κ (.store (.ofField f) i e) (.store (.ofField f) i' e')

theorem TwinUpdate.mono {u u' : Update} (h : TwinUpdate S κ u u') (le : κ ≤ κ') :
    TwinUpdate S κ' u u' := by
  cases h with
  | constraint h => exact .constraint (h.mono le)
  | allocate le' => exact .allocate le'
  | bind ty h => exact .bind ty (h.mono le)
  | store hf hi he => exact .store hf (hi.mono le) (he.mono le)

/-- Twins that hold the contents of locations of a type at all addresses. -/
def TwinArrays (S : Scene) (κ : Links) (ty : Ty) (a a' : Term) : Prop :=
  Twin S κ (.array ty.role) a a' ∧ a.sort = .array Address.sort ty.sort

/-- Memories of two runs that correspond. -/
structure TwinMemory (S : Scene) (κ : Links) (m m' : Memory) : Prop where
  locals : ∀ {id v v'}, m.local? id = some v → m'.local? id = some v' →
    v.ty = id.ty ∧ TwinValue S κ v v'
  bound : ∀ {id}, m.local? id = none → m'.local? id = none
  arrays : ∀ f, S.fields f → ∀ l d,
    TwinArrays S κ f.ty (m.array l (.ofField f)) (m'.array d (.ofField f))
  chunks : ∀ k ∈ m.fields.keys, ∃ f, S.fields f ∧ k = .ofField f

namespace TwinMemory

variable {m m' : Memory}

theorem mono (h : TwinMemory S κ m m') (le : κ ≤ κ') : TwinMemory S κ' m m' where
  locals := fun hv hv' => (h.locals hv hv').imp id fun twin => twin.mono le
  bound := h.bound
  arrays := fun f hf l d => (h.arrays f hf l d).imp (fun twin => twin.mono le) id
  chunks := h.chunks

/-- Locals that the left memory alone has bound. -/
def Unmatched (m m' : Memory) (id : LocalId) (v : SymValue) : Prop :=
  m.local? id = some v ∧ m'.local? id = none

theorem bind {id : LocalId} {v v' : SymValue} (h : TwinMemory S κ m m') (ty : v.ty = id.ty)
    (twin : TwinValue S κ v v') : TwinMemory S κ (m.bind id v) (m'.bind id v') where
  locals := fun {id₁ w w'} hw hw' => by
    rw [Memory.local?_bind] at hw hw'
    by_cases hit : id = id₁
    · rw [if_pos hit] at hw hw'
      cases hw
      cases hw'
      exact hit ▸ ⟨ty, twin⟩
    · rw [if_neg hit] at hw hw'
      exact h.locals hw hw'
  bound := fun {id₁} none => by
    rw [Memory.local?_bind] at none ⊢
    split at none
    · cases none
    next miss =>
      rw [if_neg miss]
      exact h.bound none
  arrays := h.arrays
  chunks := h.chunks

theorem store {f : Field} {i i' e e' : Term} (h : TwinMemory S κ m m') (hf : S.fields f)
    (hi : Pointer S κ i i') (he : Fits S κ f.ty e e') :
    TwinMemory S κ (m.store l (.ofField f) i e) (m'.store d (.ofField f) i' e') where
  locals := h.locals
  bound := h.bound
  arrays := fun g hg l₁ l₁' => by
    rw [Memory.array_store, Memory.array_store]
    split
    next same =>
      obtain ⟨twin, sort⟩ := h.arrays f hf (l + 1) (d + 1)
      rw [← S.coherent f g hf hg same]
      exact ⟨twin.store sort hi.1 hi.2 he.1 he.2, sort⟩
    next => exact h.arrays g hg l₁ l₁'
  chunks := fun k hk => by
    obtain ⟨e, he, rfl⟩ := List.mem_map.1 hk
    rcases Table.mem_insert he with rfl | he
    · exact ⟨f, hf, rfl⟩
    · exact h.chunks e.1 (List.mem_map.2 ⟨e, he, rfl⟩)

theorem empty (S : Scene) (κ : Links) : TwinMemory S κ .empty .empty where
  locals := fun h => nomatch h
  bound := fun h => h
  arrays := fun f hf l d => by
    have sorted : ∀ l, ((Chunk.ofField f).initial l).wellSorted TermSort.valued = true := by
      intro l
      rw [Chunk.initial, Term.var, Term.wellSorted, Bool.and_eq_true]
      exact ⟨f.ty.sort_valued, rfl⟩
    refine ⟨⟨sorted l, sorted d, rfl, fun x hx => ?_, fun E hE _ => ?_⟩, rfl⟩
    · cases List.mem_singleton.1 hx
      exact .field hf
    · exact S.field_carries E hE f hf
  chunks := fun _ h => nomatch h

theorem withoutLocalsOf (h : TwinMemory S κ m m') (method : Method) :
    TwinMemory S κ (m.withoutLocalsOf method) (m'.withoutLocalsOf method) where
  locals := fun {id v v'} hv hv' => by
    rw [Memory.local?_withoutLocalsOf] at hv hv'
    split at hv
    · cases hv
    next other =>
      rw [if_neg other] at hv'
      exact h.locals hv hv'
  bound := fun {id} none => by
    rw [Memory.local?_withoutLocalsOf] at none ⊢
    split
    · rfl
    next other =>
      rw [if_neg other] at none
      exact h.bound none
  arrays := h.arrays
  chunks := h.chunks

theorem bindAll {bs bs' : List (LocalId × SymValue)} (h : TwinMemory S κ m m')
    (twins : List.Forall₂ (fun b b' => b'.1 = b.1 ∧ TwinOf S b.1.ty κ b.2 b'.2) bs bs') :
    TwinMemory S κ (m.bindAll bs) (m'.bindAll bs') := by
  induction twins generalizing m m' with
  | nil => exact h
  | @cons b b' bs bs' head _ ih =>
    obtain ⟨same, ty, twin⟩ := head
    have bound := h.bind ty twin
    rw [Memory.bindAll_cons, Memory.bindAll_cons, same]
    exact ih bound

/-- What the left memory alone has bound is not touched by twin bindings. -/
theorem unmatched_bind {id id₁ : LocalId} {v v' w : SymValue}
    (h : Unmatched (m.bind id v) (m'.bind id v') id₁ w) : Unmatched m m' id₁ w := by
  unfold Unmatched at h ⊢
  rw [Memory.local?_bind, Memory.local?_bind] at h
  split at h
  · cases h.2
  · exact h

theorem unmatched_withoutLocalsOf {method : Method} {id : LocalId} {v : SymValue}
    (h : Unmatched (m.withoutLocalsOf method) (m'.withoutLocalsOf method) id v) :
    Unmatched m m' id v := by
  unfold Unmatched at h ⊢
  rw [Memory.local?_withoutLocalsOf, Memory.local?_withoutLocalsOf] at h
  split at h
  · cases h.1
  · exact h

theorem unmatched_bindAll {bs bs' : List (LocalId × SymValue)} {id : LocalId} {v : SymValue}
    (same : List.Forall₂ (fun b b' => b'.1 = b.1) bs bs')
    (h : Unmatched (m.bindAll bs) (m'.bindAll bs') id v) : Unmatched m m' id v := by
  induction same generalizing m m' with
  | nil => exact h
  | @cons b b' bs bs' head _ ih =>
    rw [Memory.bindAll_cons, Memory.bindAll_cons, head] at h
    exact unmatched_bind (ih h)

end TwinMemory

variable {s s' : SymState} {u u' : Update} {us us' : List Update}

theorem TwinUpdate.memory (hu : TwinUpdate S κ u u') (h : TwinMemory S κ s.memory s'.memory) :
    TwinMemory S κ (s.update l u).memory (s'.update d u').memory := by
  cases hu with
  | constraint => exact h
  | allocate => exact h
  | bind ty twin => exact h.bind ty twin
  | store hf hi he => exact h.store hf hi he

/-- Twin updates keep memories twins. -/
theorem TwinMemory.updateAll (h : TwinMemory S κ s.memory s'.memory)
    (hus : List.Forall₂ (TwinUpdate S κ) us us') :
    TwinMemory S κ (s.updateAll l us).memory (s'.updateAll d us').memory := by
  induction hus generalizing l d s s' with
  | nil => exact h
  | cons hu _ ih => exact ih (hu.memory h)

theorem TwinMemory.unmatched_updateAll {id : LocalId} {v : SymValue}
    (hus : List.Forall₂ (TwinUpdate S κ) us us')
    (h : Unmatched (s.updateAll l us).memory (s'.updateAll d us').memory id v) :
    Unmatched s.memory s'.memory id v := by
  induction hus generalizing l d s s' with
  | nil => exact h
  | cons hu _ ih =>
    have before := ih h
    cases hu with
    | constraint => exact before
    | allocate => exact before
    | bind => exact unmatched_bind before
    | store => exact before

/-- The right run is never ahead in giving out addresses. -/
theorem TwinUpdate.nextAddress_le (hus : List.Forall₂ (TwinUpdate S κ) us us')
    (h : s'.nextAddress ≤ s.nextAddress) :
    (s'.updateAll d us').nextAddress ≤ (s.updateAll l us).nextAddress := by
  induction hus generalizing l d s s' with
  | nil => exact h
  | cons hu _ ih =>
    refine ih ?_
    cases hu with
    | constraint => exact h
    | allocate le =>
      simp only [SymState.update]
      omega
    | bind => exact h
    | store => exact h

/-- Twin updates assume twin conditions. -/
theorem TwinUpdate.conditions (hus : List.Forall₂ (TwinUpdate S κ) us us') :
    List.Forall₂ (Plain S κ .bool) (Update.conditions us) (Update.conditions us') := by
  induction hus with
  | nil => exact .nil
  | cons hu _ ih =>
    cases hu with
    | constraint h => exact .cons h ih
    | allocate => exact ih
    | bind => exact ih
    | store => exact ih

end SinkReach
