import SinkReach.Proofs.Simulation.CatchUp
import SinkReach.Proofs.Simulation.Merge
import SinkReach.Proofs.Term.Truth

/-!
What a valuation sees of a merged state. A valuation that satisfies it satisfies one of the two sides
and sees the contents of that side; what the side has not bound has a value that a declaration could
give. So a run that follows the side also follows the merged state.
-/
namespace SinkReach

open Term (SameUnder SameTruth)

variable {ρ : Valuation} {ty : Ty} {v w r : SymValue} {a b g : Term} {l l' : Label} {i : Nat}
  {R : Registry} {S : Scene} {κ : Links}

theorem Term.SameUnder.ofInt (n : Int) : SameUnder ρ (Term.ofInt l n 32) (Term.ofInt l' n 32) := by
  have sorted : ∀ l, (Term.ofInt l n 32).wellSorted TermSort.valued = true := fun l => by
    rw [Term.ofInt, Term.wellSorted, Bool.and_eq_true]
    exact ⟨rfl, decide_eq_true (Bits.ofInt_lt n (by decide))⟩
  exact ⟨sorted l, sorted l', rfl, rfl⟩

/-- Equal addresses are objects of the same types. -/
theorem Registry.objectOrNull_congr (hρ : ρ.WellSorted) (sort : a.sort = Address.sort)
    (h : SameUnder ρ a b) : (objectOrNull l a i).denote ρ = (objectOrNull l' b i).denote ρ := by
  have isNull : ∀ l l', SameTruth ρ (isNull l a) (isNull l' b) := fun l l' =>
    h.eq (SameUnder.ofInt 0) hρ sort (by rw [sort]; rfl)
  have tag : SameUnder ρ (tag (l + 2) a) (tag (l' + 2) b) := by
    refine SameUnder.binary ⟨rfl, rfl, rfl, rfl⟩ h ?_ rfl
    rw [sort]
    rfl
  have hasTag : SameTruth ρ (hasTag l a i) (hasTag l' b i) :=
    SameUnder.join (tag.eq (SameUnder.ofInt i) hρ rfl rfl) (SameUnder.not (isNull ..) hρ) hρ
  exact (SameUnder.join hasTag (isNull ..) hρ).1.denote

theorem TwinOf.hasType {v' : SymValue} (h : TwinOf S ty κ v v') : v.HasType ty := by
  obtain ⟨rfl, twin⟩ := h
  refine ⟨?_, twin.fits.1.sorted, twin.fits.2⟩
  cases twin with
  | primitive kind => simp [SymValue.wrap, SymValue.ty, SymValue.term, kind]
  | reference kind => simp [SymValue.wrap, SymValue.ty, SymValue.term, kind]

namespace SymValue.HasType

theorem ty_eq (h : v.HasType ty) : v.ty = ty := by rw [h.wrapped, SymValue.wrap_ty]

theorem sameUnder (hv : v.HasType ty) (hw : w.HasType ty) (same : v.term.denote ρ = w.term.denote ρ) :
    SameUnder ρ v.term w.term := ⟨hv.sorted, hw.sorted, hv.sort.trans hw.sort.symm, same⟩

end SymValue.HasType

/-- Credibility is a matter of values. -/
theorem Credible.congr (h : Credible ρ R ty v) (hρ : ρ.WellSorted) (hw : w.HasType ty)
    (same : w.term.denote ρ = v.term.denote ρ) : Credible ρ R ty w where
  toHasType := hw
  zero := fun kind => same.trans (h.zero kind)
  object := fun kind => by
    obtain ⟨i, l, known, holds⟩ := h.object kind
    have sort := hw.sort.trans (Ty.sort_of_reference (Ty.isReference_of_isObject kind))
    refine ⟨i, l, known, ?_⟩
    rw [Registry.objectOrNull_congr hρ sort (hw.sameUnder h.toHasType same), holds]

/-- Unknown values are credible where what was assumed of them holds. -/
theorem Machine.Unknown.credible {M M' : Machine} {c c' : Context} (h : Unknown M c ty v M' c')
    (assumed : ∀ t, .constraint t ∈ M'.pending → t.denote ρ = some (.bool true)) :
    Credible ρ c'.registry ty v := by
  cases h with
  | void => exact ⟨⟨rfl, rfl, rfl⟩, fun _ => rfl, fun h => nomatch h⟩
  | null => exact ⟨⟨rfl, rfl, rfl⟩, fun _ => rfl, fun h => nomatch h⟩
  | object kind =>
    have reference := Ty.isReference_of_isObject kind
    refine ⟨⟨?_, rfl, (Ty.sort_of_reference reference).symm⟩, ?_, fun _ => ⟨_, _,
      Registry.number?_tagOf_self .., assumed _ (List.mem_append_right _ (List.mem_singleton.2 rfl))⟩⟩
    · simp [SymValue.wrap, SymValue.term, reference]
    · rintro (rfl | rfl) <;> cases kind
  | primitive kind =>
    have plain := Ty.isReference_of_isPrimitive kind
    refine ⟨⟨?_, ?_, rfl⟩, ?_, ?_⟩
    · simp [SymValue.wrap, SymValue.term, plain]
    · rw [SymValue.term, Term.var, Term.wellSorted, Bool.and_eq_true]
      exact ⟨ty.sort_valued, rfl⟩
    · rintro (rfl | rfl) <;> cases kind
    · intro object
      rw [Ty.isReference_of_isObject object] at plain
      cases plain

theorem SymValue.same_term (h : v.same w = true) : v.term.same w.term = true := by
  cases v with
  | primitive =>
    cases w with
    | primitive => exact (Bool.and_eq_true_iff.1 h).2
    | reference => cases h
  | reference =>
    cases w with
    | primitive => cases h
    | reference => exact (Bool.and_eq_true_iff.1 h).2

/-- The merged value of two of one type is that of the side which the guard selects. -/
theorem Merged.denote (h : Merged g v w r) (tys : v.ty = w.ty) {x : Bool}
    (hx : g.denote ρ = some (.bool x)) :
    r.ty = v.ty ∧ r.term.denote ρ = (if x then v else w).term.denote ρ := by
  cases h with
  | same same =>
    refine ⟨rfl, ?_⟩
    cases x with
    | true => rfl
    | false => exact Term.same_denote (SymValue.same_term same) ρ
  | chosen l chosen =>
    obtain ⟨y, -, rfl⟩ := Machine.choose_ok tys chosen
    refine ⟨SymValue.withTerm_ty .., ?_⟩
    rw [SymValue.withTerm_term, Term.denote_ite_of_condition hx]
    cases x <;> rfl

/-- What a valuation sees of a state is what it sees of one of those that were merged into it. -/
structure SideOf (ρ : Valuation) (R : Registry) (fields : Field → Prop) (side st : SymState) : Prop where
  locals : ∀ {id v w}, side.memory.local? id = some v → st.memory.local? id = some w →
    w.term.denote ρ = v.term.denote ρ
  unbound : ∀ {id w}, side.memory.local? id = none → st.memory.local? id = some w →
    Credible ρ R id.ty w
  bound : ∀ {id}, st.memory.local? id = none → side.memory.local? id = none
  arrays : ∀ f, fields f → ∀ l, (st.memory.array l (.ofField f)).denote ρ =
    (side.memory.array l (.ofField f)).denote ρ
  nextAddress : side.nextAddress ≤ st.nextAddress

/-- A known value has its type, and is credible where it is unknown. -/
theorem Machine.Known.hasType {id : LocalId} {o : Option SymValue} {M M' : Machine} {c c' : Context}
    (h : Known id M c o v M' c') (typed : ∀ v, o = some v → v.HasType id.ty)
    (assumed : ∀ t, .constraint t ∈ M'.pending → t.denote ρ = some (.bool true)) :
    v.HasType id.ty ∧ (o = some v ∨ o = none ∧ Credible ρ c'.registry id.ty v) := by
  cases h with
  | bound v => exact ⟨typed v rfl, .inl rfl⟩
  | unbound unknown =>
    have credible := unknown.credible assumed
    exact ⟨credible.toHasType, .inr ⟨rfl, credible⟩⟩

theorem Memory.array_denote (m : Memory) (k : Chunk) (l l' : Label) :
    (m.array l k).denote ρ = (m.array l' k).denote ρ := by
  unfold Memory.array
  cases m.fields.get? k <;> rfl

section States

variable {lhs rhs st : SymState} {c c' : Context} {ts : List Term} {M : Machine} {f : Field}

theorem Typed.hasType {s : SymState} (h : Typed S κ s) {id : LocalId}
    (found : s.memory.local? id = some v) : v.HasType id.ty := TwinOf.hasType (h.memory.locals found found)

theorem mergeArray_denote {k : Chunk} {x : Bool} (hx : g.denote ρ = some (.bool x))
    (h : mergeArray l g k lhs.memory rhs.memory = .ok a) (l' : Label) :
    a.denote ρ = ((if x then lhs else rhs).memory.array l' k).denote ρ := by
  unfold mergeArray at h
  simp only at h
  split at h
  next same =>
    cases h
    cases x with
    | true => exact Memory.array_denote ..
    | false => exact (Term.same_denote same ρ).trans (Memory.array_denote ..)
  next =>
    obtain ⟨-, -, rfl⟩ := Term.conditional_ok h
    rw [Term.denote_ite_of_condition hx]
    cases x with
    | true => exact Memory.array_denote ..
    | false => exact Memory.array_denote ..

/-- Under its assumptions a merged state looks like the side that the guard selects. -/
theorem MergeOf.sideOf (h : MergeOf lhs rhs c l ts M st c') (hρ : ρ.WellSorted) (left : Typed S κ lhs)
    (right : Typed S κ rhs) (typed : Typed S κ st) (assumed : ρ.Models ts) {x : Bool}
    (hx : (lhs.pathCondition l).denote ρ = some (.bool x)) :
    SideOf ρ c'.registry S.fields (if x then lhs else rhs) st := by
  obtain ⟨y, y', run⟩ := h.locals
  obtain ⟨-, neither, merged⟩ := mergeLocals_ok run
  have pending : ∀ t, .constraint t ∈ M.pending → t.denote ρ = some (.bool true) := by
    intro t ht
    rw [h.assumed] at ht
    obtain ⟨t', ht', same⟩ := List.mem_map.1 ht
    cases same
    exact assumed t ht'
  have each : ∀ {id r}, st.memory.local? id = some r → ∃ v, r.term.denote ρ = v.term.denote ρ ∧
      ((if x then lhs else rhs).memory.local? id = some v ∨
        (if x then lhs else rhs).memory.local? id = none ∧ Credible ρ c'.registry id.ty v) := by
    intro id r found
    obtain ⟨M₀, c₀, M₁, c₁, merge, grows⟩ := merged id r found
    obtain ⟨v, w, M₂, c₂, c₃, labels, hv, hw, choice, rfl⟩ := mergeLocal_ok merge
    obtain ⟨tv, ov⟩ := hv.hasType (fun _ hv => left.hasType hv) fun t ht =>
      pending t (grows.mem (hw.grows.mem ht))
    obtain ⟨tw, ow⟩ := hw.hasType (fun _ hw => right.hasType hw) fun t ht => pending t (grows.mem ht)
    refine ⟨if x then v else w, (choice.denote (tv.ty_eq.trans tw.ty_eq.symm) hx).2, ?_⟩
    have le := grows.before.registry
    cases x with
    | true =>
      exact ov.imp_right fun alone => ⟨alone.1, alone.2.mono (Registry.le_trans hw.grows.before.registry le)⟩
    | false => exact ow.imp_right fun alone => ⟨alone.1, alone.2.mono le⟩
  exact {
    locals := fun {id v w} hv hw => by
      obtain ⟨u, same, known | ⟨none, -⟩⟩ := each hw
      · cases known.symm.trans hv
        exact same
      · cases none.symm.trans hv
    unbound := fun {id w} none hw => by
      obtain ⟨u, same, known | ⟨-, credible⟩⟩ := each hw
      · cases none.symm.trans known
      · exact credible.congr hρ (typed.hasType hw) same
    bound := fun {id} none => by
      cases x with
      | true => exact (neither id none).1
      | false => exact (neither id none).2
    arrays := fun f hf y => by
      rcases h.array_cases left.memory right.memory hf with ⟨_, a, same, merge⟩ | same
      · rw [same]
        exact mergeArray_denote hx merge y
      · cases x with
        | true => rw [(same y).1]; rfl
        | false => rw [(same y).2]; rfl
    nextAddress := by
      rw [h.nextAddress]
      cases x with
      | true => exact Nat.le_trans (Nat.le_max_left ..) (Nat.le_max_left ..)
      | false => exact Nat.le_trans (Nat.le_max_right ..) (Nat.le_max_left ..) }

/-- A valuation that satisfies a merged state satisfies one of its sides and sees that one. -/
theorem MergeOf.models (h : MergeOf lhs rhs c l ts M st c') (hρ : ρ.WellSorted) (left : Typed S κ lhs)
    (right : Typed S κ rhs) (typed : Typed S κ st) (models : ρ.Models st.constraints) :
    (ρ.Models lhs.constraints ∧ SideOf ρ c'.registry S.fields lhs st) ∨
      ρ.Models rhs.constraints ∧ SideOf ρ c'.registry S.fields rhs st := by
  rw [h.constraints, Valuation.models_cons] at models
  obtain ⟨either, assumed⟩ := models
  have guard := left.pathCondition l
  obtain ⟨x, hx⟩ := Term.denote_bool hρ guard.1.sorted guard.2
  have side := h.sideOf hρ left right typed assumed hx
  obtain ⟨t, mem, holds⟩ := Term.exists_of_denote_orAll either
  cases x with
  | true => exact .inl ⟨Term.denote_andAll_iff.1 hx, side⟩
  | false =>
    rcases List.mem_cons.1 mem with rfl | mem
    · cases hx.symm.trans holds
    · cases List.mem_singleton.1 mem
      exact .inr ⟨Term.denote_andAll_iff.1 holds, side⟩

end States

section Following

variable {T : Scene} {side st : SymState} {m' : Memory} {a' : Term}

theorem Twin.of_sameUnder {role : Role} (left : ∀ E, S.bridges E → E.left = ρ) (h : Twin S κ role a a')
    (same : SameUnder ρ b a) : Twin S κ role b a' where
  sorted := same.sorted
  sorted' := h.sorted'
  sort := same.sort.trans h.sort
  named := h.named
  carries := fun E hE respects => by
    obtain ⟨v, v', hv, carried⟩ := h.carries E hE respects
    refine ⟨v, v', ?_, carried⟩
    rw [left E hE] at hv ⊢
    rw [same.denote, hv]

theorem TwinOf.of_sameUnder {v' : SymValue} (left : ∀ E, S.bridges E → E.left = ρ)
    (h : TwinOf S ty κ v v') (hw : w.HasType ty) (same : w.term.denote ρ = v.term.denote ρ) :
    TwinOf S ty κ w v' := by
  have equal := hw.sameUnder h.hasType same
  obtain ⟨rfl, twin⟩ := h
  refine ⟨hw.ty_eq, ?_⟩
  rw [hw.wrapped, SymValue.wrap]
  cases twin with
  | primitive kind fits =>
    rw [if_neg (by simp [SymValue.ty, kind])]
    exact .primitive kind ⟨fits.1.of_sameUnder left equal, hw.sort⟩
  | reference kind fits =>
    rw [if_pos (by simp [SymValue.ty, kind])]
    exact .reference kind ⟨fits.1.of_sameUnder left equal, hw.sort⟩

/-- A run that follows the side which a valuation sees also follows the merged state. -/
theorem TwinMemory.of_sideOf (h : TwinMemory S κ side.memory m') (left : ∀ E, S.bridges E → E.left = ρ)
    {κ₁ : Links} (fields : T.fields = S.fields) (typed : Typed T κ₁ st)
    (seen : SideOf ρ R S.fields side st) : TwinMemory S κ st.memory m' where
  locals := fun {id w v'} hw hv' => by
    cases known : side.memory.local? id with
    | none => cases (h.bound known).symm.trans hv'
    | some v => exact TwinOf.of_sameUnder left (h.locals known hv') (typed.hasType hw) (seen.locals known hw)
  bound := fun none => h.bound (seen.bound none)
  arrays := fun f hf x x' => by
    obtain ⟨twin, sort⟩ := h.arrays f hf x x'
    have hf' : T.fields f := fields ▸ hf
    obtain ⟨merged, sort'⟩ := typed.memory.arrays f hf' x x
    exact ⟨twin.of_sameUnder left ⟨merged.sorted, twin.sorted, sort'.trans sort.symm, seen.arrays f hf x⟩,
      sort'⟩
  chunks := fun k hk => by
    obtain ⟨f, hf, rfl⟩ := typed.memory.chunks k hk
    exact ⟨f, fields ▸ hf, rfl⟩

/-- What the right run has not bound stays credible. -/
theorem Credible.of_sideOf {κ₁ : Links} {s' : SymState} (hρ : ρ.WellSorted) (typed : Typed T κ₁ st)
    (seen : SideOf ρ R S.fields side st)
    (credible : ∀ id v, TwinMemory.Unmatched side.memory s'.memory id v → Credible ρ R id.ty v)
    (id : LocalId) (w : SymValue) (alone : TwinMemory.Unmatched st.memory s'.memory id w) :
    Credible ρ R id.ty w := by
  cases known : side.memory.local? id with
  | none => exact seen.unbound known alone.1
  | some v =>
    exact (credible id v ⟨known, alone.2⟩).congr hρ (typed.hasType alone.1) (seen.locals known alone.1)

end Following
end SinkReach
