import SinkReach.Proofs.Simulation.Next
import SinkReach.Proofs.Symbolic.Unknown

/-!
A local that is bound where states were merged may be unbound on the path that is followed. The value
it has in the left run is one that a declaration could give it, so the right run may declare the local
and link its unknown to that value.
-/
namespace SinkReach

/-- The value is a well-sorted one of the type. -/
structure SymValue.HasType (v : SymValue) (ty : Ty) : Prop where
  wrapped : v = .wrap ty v.term
  sorted : v.term.wellSorted TermSort.valued = true
  sort : v.term.sort = ty.sort

/-- The value is one that a declaration of the type may give. -/
structure Credible (ρ : Valuation) (r : Registry) (ty : Ty) (v : SymValue) : Prop
    extends v.HasType ty where
  zero : ty = .void ∨ ty = .null → v.term.denote ρ = some (.bitVec 0 32)
  object : ty.isObject = true → ∃ i l, r.number? ty = some i ∧
    (Registry.objectOrNull l v.term i).denote ρ = some (.bool true)

theorem Credible.mono {ρ : Valuation} {r r' : Registry} {ty : Ty} {v : SymValue}
    (h : Credible ρ r ty v) (le : r ≤ r') : Credible ρ r' ty v :=
  { h with
    object := fun kind => by
      obtain ⟨i, l, known, holds⟩ := h.object kind
      exact ⟨i, l, le ty i known, holds⟩ }

theorem SymState.updateAll_declared (l : Label) (s : SymState) (ts : List Term) (id : LocalId)
    (v : SymValue) : s.updateAll l (ts.map .constraint ++ [.bind id v]) =
      { s with constraints := s.constraints ++ ts, memory := s.memory.bind id v } := by
  induction ts generalizing l s with
  | nil => simp [updateAll, update, withMemory]
  | cons t ts ih => simp [updateAll, update, assume, ih]

variable {S : Scene} {κ κ₁ : Links} {c c' d' : Context} {s s' : SymState} {id : LocalId}
  {v v' : SymValue} {ρ : Valuation}

/-- The right memory binds what the left one alone had bound. -/
theorem TwinMemory.bindRight {m m' : Memory} (h : TwinMemory S κ m m') (known : m.local? id = some v)
    (twin : TwinOf S id.ty κ v v') : TwinMemory S κ m (m'.bind id v') where
  locals := fun {id₁ w w'} hw hw' => by
    rw [Memory.local?_bind] at hw'
    split at hw'
    next same =>
      subst same
      cases hw'
      cases known.symm.trans hw
      exact twin
    next => exact h.locals hw hw'
  bound := fun {id₁} none => by
    rw [Memory.local?_bind, if_neg]
    · exact h.bound none
    · rintro rfl
      cases known.symm.trans none
  arrays := h.arrays
  chunks := h.chunks

/-- The right run declares the local under assumptions that hold. -/
theorem Follows.catchUp (memory : TwinMemory S κ s.memory s'.memory) (le : κ ≤ κ₁)
    (tidy : Tidy S κ₁ c d' s.nextAddress s'.nextAddress)
    (unmatched : TwinMemory.Unmatched s.memory s'.memory id v) (twin : TwinOf S id.ty κ₁ v v')
    (ts : List Term) (known : ∀ t ∈ ts, KnownCondition S κ₁ t)
    (holds : ∀ E, S.bridges E → E.Respects κ₁ → E.right.Models ts) (l : Label) :
    Follows S κ₁ c d' s s' s (s'.updateAll l (ts.map .constraint ++ [.bind id v'])) := by
  rw [SymState.updateAll_declared]
  exact {
    memory := (memory.mono le).bindRight unmatched.1 twin
    tidy := tidy
    conditions := ⟨[], ts, (List.append_nil _).symm, rfl, known, fun E hE respects =>
      iff_of_true (fun _ h => nomatch h) (holds E hE respects)⟩
    unmatched := fun id₁ w alone => by
      refine ⟨alone.1, ?_⟩
      have none := alone.2
      simp only [Memory.local?_bind] at none
      split at none
      · cases none
      · exact none }

theorem Pointer.objectOrNull {a a' : Term} {l d : Label} (h : Pointer S κ a a') {i : Nat × Nat}
    (linked : i ∈ κ.types) : Plain S κ .bool (Registry.objectOrNull l a i.1)
      (Registry.objectOrNull d a' i.2) := (h.hasTag linked).or h.isNull

/-- A value that is zero in the left run is a twin of zero. -/
theorem Twin.zero {a : Term} {r : Role} {l : Label} (left : ∀ E, S.bridges E → E.left = ρ)
    (sorted : a.wellSorted TermSort.valued = true) (sort : a.sort = .bitVec 32)
    (zero : a.denote ρ = some (.bitVec 0 32))
    (carries : ∀ E : Bridge, E.Carries r (.bitVec 0 32) (.bitVec 0 32)) :
    Twin S κ r a (.ofInt l 0 32) where
  sorted := sorted
  sorted' := rfl
  sort := sort
  named := fun _ hx => nomatch hx
  carries := fun E hE _ => ⟨_, _, by rw [left E hE, zero], rfl, carries E⟩

theorem SymValue.wrap_ty (ty : Ty) (t : Term) : (SymValue.wrap ty t).ty = ty := by
  unfold SymValue.wrap
  split <;> rfl

theorem Ty.isReference_of_isObject {ty : Ty} (object : ty.isObject = true) : ty.isReference = true := by
  cases ty with
  | ref | array => rfl
  | _ => cases object

/-- Where the values of unmatched locals are credible, the right run can catch up. -/
theorem catchesUp (left : ∀ E, S.bridges E → E.left = ρ) (oneWay : ¬ S.mirrored)
    (memory : TwinMemory S κ s.memory s'.memory)
    (tidy : Tidy S κ c c' s.nextAddress s'.nextAddress)
    (credible : ∀ v, TwinMemory.Unmatched s.memory s'.memory id v → Credible ρ c.registry id.ty v) :
    CatchesUp S κ c c' s s' id := by
  intro v unmatched v' M' d' declared
  obtain ⟨⟨wrapped, sorted, sort⟩, zero, object⟩ := credible v unmatched
  obtain ⟨M₁, unknown, rfl⟩ := Machine.yields_declare declared
  -- The link of the unknown, if the declaration makes one.
  have linked : ∀ r : Role, r.Suits v.term.sort →
      Tidy S (κ.addConst ⟨v.term, localName c'.locals, v.term.sort, r⟩) c c'.nextLocal
        s.nextAddress s'.nextAddress := fun r suits =>
    tidy.addConst (Context.Before.refl c) c'.before_nextLocal rfl rfl c'.not_issued_local
      c'.issued_nextLocal ⟨sorted, rfl, suits⟩ fun mirrored => absurd mirrored oneWay
  have twin : ∀ r : Role, r.Suits v.term.sort → ∀ l,
      Twin S (κ.addConst ⟨v.term, localName c'.locals, v.term.sort, r⟩) r v.term
        (.var l (localName c'.locals) v.term.sort) := fun r suits l =>
    Twin.linked (k := ⟨v.term, localName c'.locals, v.term.sort, r⟩) List.mem_cons_self
      ⟨sorted, rfl, suits⟩
  obtain ⟨method, name, ty⟩ := id
  simp only at wrapped sort zero object unknown
  rw [sort] at linked twin
  have typed : v.ty = ty := by rw [wrapped, SymValue.wrap_ty]
  cases unknown with
  | void =>
    refine ⟨κ, κ.le_refl, Follows.catchUp memory κ.le_refl (tidy.relabel ..) unmatched ⟨typed, ?_⟩ []
      (fun _ h => nomatch h) fun _ _ _ => Valuation.models_nil⟩
    rw [wrapped]
    exact .ofPlain rfl ⟨.zero left sorted sort (zero (.inl rfl)) fun _ => rfl, sort⟩
  | null =>
    refine ⟨κ, κ.le_refl, Follows.catchUp memory κ.le_refl (tidy.relabel ..) unmatched ⟨typed, ?_⟩ []
      (fun _ h => nomatch h) fun _ _ _ => Valuation.models_nil⟩
    rw [wrapped]
    refine .ofPointer rfl ⟨.zero left sorted sort (zero (.inr rfl)) fun E => ?_, sort⟩
    exact ⟨0, rfl, by rw [E.address_null]⟩
  | object kind =>
    have reference := Ty.isReference_of_isObject kind
    obtain ⟨i, l₀, known, holds⟩ := object kind
    rw [Ty.sort_of_reference reference] at linked twin
    have tidy₁ := (linked .address rfl).addType ty
    rw [Registry.tagOf_of_number? known] at tidy₁
    have pointer : Pointer S _ v.term (.var c'.labels (localName c'.locals) Address.sort) :=
      ⟨(twin .address rfl c'.labels).mono (Links.le_addType _ (i, (c'.nextLocal.registry.tagOf ty).1)),
        sort.trans (Ty.sort_of_reference reference)⟩
    have condition := pointer.objectOrNull (l := l₀) (d := c'.labels + 1) List.mem_cons_self
    refine ⟨_, Links.le_trans (κ.le_addConst _) (Links.le_addType _ _),
      Follows.catchUp memory (Links.le_trans (κ.le_addConst _) (Links.le_addType _ _))
        (tidy₁.relabel ..) unmatched ⟨typed, ?_⟩ [_] (List.forall_mem_singleton.2 condition.known)
        fun E hE respects => ?_⟩
    · rw [wrapped, SymValue.wrap, if_pos reference]
      exact .ofPointer reference pointer
    · refine (Plain.models_iff (.cons condition .nil) hE respects).1 ?_
      rw [left E hE]
      exact Valuation.models_cons.2 ⟨holds, Valuation.models_nil⟩
  | primitive kind =>
    have plain := Ty.isReference_of_isPrimitive kind
    refine ⟨_, κ.le_addConst _, Follows.catchUp memory (κ.le_addConst _)
      ((linked .plain trivial).relabel ..) unmatched ⟨typed, ?_⟩ [] (fun _ h => nomatch h)
      fun _ _ _ => Valuation.models_nil⟩
    rw [wrapped, SymValue.wrap, if_neg (by simp [plain])]
    exact .ofPlain plain ⟨twin .plain trivial c'.labels, sort⟩

end SinkReach
