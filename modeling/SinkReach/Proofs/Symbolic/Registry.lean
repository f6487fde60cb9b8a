import SinkReach.Symbolic.Registry

/-!
Numbers of types. A registered type keeps its number, and no two types share one.
-/
namespace SinkReach.Registry

/-- Number of a type that is registered. -/
def number? (r : Registry) (ty : Ty) : Option Nat := (r.types.findIdx? (· == ty)).map (· + 1)

variable {r : Registry} {ty ty' : Ty} {i : Nat}

theorem types_of_number? (h : r.number? ty = some i) : ∃ k, i = k + 1 ∧ r.types[k]? = some ty := by
  obtain ⟨k, found, rfl⟩ := Option.map_eq_some_iff.1 h
  obtain ⟨lt, hit, -⟩ := List.findIdx?_eq_some_iff_getElem.1 found
  rw [beq_iff_eq] at hit
  exact ⟨k, rfl, by rw [List.getElem?_eq_getElem lt, hit]⟩

theorem number?_bounds (h : r.number? ty = some i) : 1 ≤ i ∧ i ≤ r.types.length := by
  obtain ⟨k, rfl, found⟩ := types_of_number? h
  obtain ⟨lt, -⟩ := List.getElem?_eq_some_iff.1 found
  omega

theorem number?_injective (h : r.number? ty = some i) (h' : r.number? ty' = some i) : ty = ty' := by
  obtain ⟨k, rfl, found⟩ := types_of_number? h
  obtain ⟨k', eq, found'⟩ := types_of_number? h'
  obtain rfl : k = k' := by omega
  exact Option.some.inj (found.symm.trans found')

/-- A type that is registered keeps its number; a new one gets the next. -/
theorem tagOf_eq (r : Registry) (ty : Ty) : r.tagOf ty =
    match r.number? ty with
    | some i => (i, r)
    | none => (r.types.length + 1, ⟨r.types ++ [ty]⟩) := by
  unfold tagOf number?
  cases r.types.findIdx? (· == ty) <;> rfl

theorem number?_append (r : Registry) (ty ty' : Ty) : number? ⟨r.types ++ [ty]⟩ ty' =
    (r.number? ty').or (if ty = ty' then some (r.types.length + 1) else none) := by
  unfold number?
  rw [List.findIdx?_append]
  cases r.types.findIdx? (· == ty') with
  | some k => rfl
  | none =>
    by_cases same : ty = ty'
    · simp [same, List.findIdx?_cons]
    · simp [same, List.findIdx?_cons]

/-- Only the type that is asked for is registered. -/
theorem number?_tagOf (r : Registry) (ty ty' : Ty) : (r.tagOf ty).2.number? ty' =
    if ty = ty' then some (r.tagOf ty).1 else r.number? ty' := by
  rw [tagOf_eq]
  cases known : r.number? ty with
  | some i =>
    simp only
    split
    next same => rw [← same, known]
    next => rfl
  | none =>
    simp only [number?_append]
    split
    next same => rw [← same, known, Option.none_or]
    next => rw [Option.or_none]

theorem number?_tagOf_self (r : Registry) (ty : Ty) :
    (r.tagOf ty).2.number? ty = some (r.tagOf ty).1 := by rw [number?_tagOf, if_pos rfl]

theorem tagOf_of_number? (h : r.number? ty = some i) : r.tagOf ty = (i, r) := by rw [tagOf_eq, h]

/-- Registries that know all types of another one by the same numbers. -/
instance : LE Registry := ⟨fun r r' => ∀ ty i, r.number? ty = some i → r'.number? ty = some i⟩

theorem le_refl (r : Registry) : r ≤ r := fun _ _ h => h

theorem le_trans {r r' r'' : Registry} (h : r ≤ r') (h' : r' ≤ r'') : r ≤ r'' :=
  fun ty i known => h' ty i (h ty i known)

theorem mem_types_iff : ty ∈ r.types ↔ ∃ i, r.number? ty = some i := by
  unfold number?
  rw [← Option.isSome_iff_exists, Option.isSome_map, List.findIdx?_isSome, List.any_eq_true]
  simp

theorem nodup_tagOf (h : r.types.Nodup) (ty : Ty) : (r.tagOf ty).2.types.Nodup := by
  rw [tagOf_eq]
  cases known : r.number? ty with
  | some i => exact h
  | none =>
    have fresh : ty ∉ r.types := fun mem => by
      obtain ⟨i, hi⟩ := mem_types_iff.1 mem
      cases known.symm.trans hi
    exact List.nodup_append.2 ⟨h, List.pairwise_singleton .., fun a ha b hb eq => by
      cases List.mem_singleton.1 hb
      exact fresh (eq ▸ ha)⟩

theorem le_tagOf (r : Registry) (ty : Ty) : r ≤ (r.tagOf ty).2 := by
  intro ty' i known
  rw [number?_tagOf]
  split
  next same => rw [tagOf_of_number? (same ▸ known)]
  next => exact known

end SinkReach.Registry
