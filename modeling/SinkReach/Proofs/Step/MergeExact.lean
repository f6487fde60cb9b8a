import SinkReach.Proofs.Simulation.Sides
import SinkReach.Proofs.Term.Soundness

/-!
Merging loses nothing and adds nothing. An assignment that satisfies the earlier state sees its contents
in the merged one, an assignment that satisfies only the incoming state sees that one's, and every
assignment can be extended to the unknowns of the merge such that the merged path condition says exactly
that one of the two states is satisfied: an unknown reference may be null.
-/
namespace SinkReach

/-- The assignments agree on the constants that occur in the terms. -/
def Assignment.AgreeOn (σ τ : Assignment) (ts : List Term) : Prop :=
  ∀ x ∈ Term.varsAll ts, τ.get? x.1 = σ.get? x.1

namespace SymState

/-- All terms of a state. -/
def terms (s : SymState) : List Term :=
  s.constraints ++ s.memory.locals.entries.map (·.2.term) ++ s.memory.fields.entries.map (·.2)

theorem mem_terms {s : SymState} {t : Term} (h : t ∈ s.constraints) : t ∈ s.terms :=
  List.mem_append_left _ (List.mem_append_left _ h)

theorem constraints_subset_terms (s s' : SymState) :
    s.constraints ++ s'.constraints ⊆ s.terms ++ s'.terms := by
  intro t ht
  rcases List.mem_append.1 ht with ht | ht
  · exact List.mem_append_left _ (mem_terms ht)
  · exact List.mem_append_right _ (mem_terms ht)

/-- The assignment makes all constraints true. -/
def Satisfied (σ : Assignment) (s : SymState) : Prop := ∀ t ∈ s.constraints, t.Holds σ

/-- Constraints are well-sorted and boolean, locals have values of their types, and the name of the array
of tags stands for nothing else. -/
structure WellSorted (s : SymState) : Prop where
  conditions : ∀ t ∈ s.constraints, t.IsCondition
  locals : ∀ id v, s.memory.local? id = some v → v.ty = id.ty
  tags : ∀ x ∈ Term.varsAll s.terms, x.1 = Registry.arrayName → x.2 = .array Address.sort (.bitVec 32)

/-- The assignment finds in a state what it finds in the locals and arrays of another one. -/
structure Shows (τ : Assignment) (s side : SymState) : Prop where
  locals : ∀ id v, side.memory.local? id = some v →
    ∃ r, s.memory.local? id = some r ∧ r.ty = v.ty ∧ r.term.value? τ = v.term.value? τ
  arrays : ∀ k l l', (s.memory.array l k).value? τ = (side.memory.array l' k).value? τ

end SymState

section Overriding

theorem Assignment.AgreeOn.holds {σ τ : Assignment} {t : Term} {ts : List Term} (h : σ.AgreeOn τ ts)
    (mem : t ∈ ts) : t.Holds τ ↔ t.Holds σ := by
  have same : ∀ x ∈ t.vars, τ.get? x.1 = σ.get? x.1 := fun x hx => h x (Term.mem_varsAll.2 ⟨t, mem, hx⟩)
  exact ⟨Term.Holds.congr same, Term.Holds.congr fun x hx => (same x hx).symm⟩

theorem Term.holds_iff_denote {σ : Assignment} {t : Term} :
    t.Holds σ ↔ t.denote σ.valuation = some (.bool true) := by
  rw [Term.Holds, Term.value?_eq_denote]

/-- A condition whose constants are bound to values of their sorts is true or false. -/
theorem Assignment.WellSorted.condition {σ : Assignment} {ts : List Term} (h : σ.WellSorted ts) {t : Term}
    (mem : t ∈ ts) (condition : t.IsCondition) : ∃ r, t.denote σ.valuation = some (.bool r) := by
  rw [h.completed mem]
  exact Term.denote_bool σ.completed_wellSorted condition.2 condition.1

/-- Finitely many constants can be given other values. -/
theorem Assignment.exists_override (σ : Assignment) (f : String → Value) (names : List String) :
    ∃ τ : Assignment, ∀ name, τ.get? name = if name ∈ names then some (f name) else σ.get? name := by
  induction names with
  | nil => exact ⟨σ, fun name => rfl⟩
  | cons n names ih =>
    obtain ⟨τ, hτ⟩ := ih
    refine ⟨τ.insert n (f n), fun name => ?_⟩
    rw [Table.get?_insert, hτ]
    by_cases same : n = name
    · simp [same]
    · have other : name ≠ n := fun h => same h.symm
      simp [same, other]

end Overriding

section Minting

/-- The assumption on an unknown reference that was made between two contexts. -/
def Minted (c c' : Context) (t : Term) : Prop :=
  ∃ l x n i, c.locals ≤ n ∧ n < c'.locals ∧
    t = Registry.objectOrNull l (.var x (localName n) Address.sort) i

/-- All that a run has assumed is about unknown references that it made. -/
structure Mints (M : Machine) (c : Context) (M' : Machine) (c' : Context) : Prop where
  before : c.Before c'
  minted : ∀ t, .constraint t ∈ M'.pending → .constraint t ∈ M.pending ∨ Minted c c' t

variable {M M' M'' : Machine} {c c' c'' : Context} {guard : Term} {id : LocalId} {r : SymValue}

theorem Minted.mono {d d' : Context} {t : Term} (h : Minted c c' t) (le : d.locals ≤ c.locals)
    (le' : c'.locals ≤ d'.locals) : Minted d d' t := by
  obtain ⟨l, x, n, i, low, high, eq⟩ := h
  exact ⟨l, x, n, i, Nat.le_trans le low, Nat.lt_of_lt_of_le high le', eq⟩

theorem Mints.refl (M : Machine) (c : Context) : Mints M c M c := ⟨.refl c, fun _ h => .inl h⟩

theorem Mints.trans (h : Mints M c M' c') (h' : Mints M' c' M'' c'') : Mints M c M'' c'' := by
  refine ⟨h.before.trans h'.before, fun t ht => ?_⟩
  rcases h'.minted t ht with old | new
  · exact (h.minted t old).imp_right fun minted => minted.mono (Nat.le_refl _) h'.before.locals
  · exact .inr (new.mono h.before.locals (Nat.le_refl _))

theorem Mints.relabel (h : Mints M c M' c') (x : Nat) : Mints M c M' { c' with labels := x } :=
  ⟨h.before.trans (.relabel ..), h.minted⟩

theorem Machine.Unknown.mints {ty : Ty} {v : SymValue} (h : Unknown M c ty v M' c') : Mints M c M' c' := by
  refine ⟨h.grows.before, fun t ht => ?_⟩
  cases h with
  | void => exact .inl ht
  | null => exact .inl ht
  | primitive => exact .inl ht
  | object =>
    rcases List.mem_append.1 ht with old | new
    · exact .inl old
    · cases List.mem_singleton.1 new
      exact .inr ⟨_, _, c.locals, _, (Nat.le_refl _), Nat.lt_succ_self _, rfl⟩

theorem Machine.Known.mints {o : Option SymValue} {v : SymValue} (h : Known id M c o v M' c') :
    Mints M c M' c' := by
  cases h with
  | bound => exact .refl M c
  | unbound unknown => exact unknown.mints

theorem mergeLocal_mints {o p : Option SymValue} (h : (mergeLocal guard id o p).Yields M c r M' c') :
    Mints M c M' c' := by
  obtain ⟨v, w, M₁, c₁, c₂, labels, hv, hw, -, rfl⟩ := mergeLocal_ok h
  exact (hv.mints.trans hw.mints).relabel labels

theorem mergeLocals_mints {lhs rhs : Memory} {locals : Table LocalId SymValue}
    (h : (mergeLocals guard lhs rhs).Yields M c locals M' c') : Mints M c M' c' := by
  have each : ∀ (ids : List LocalId) (es : List (LocalId × SymValue)) (M : Machine) (c : Context)
      (M' : Machine) (c' : Context), (ids.mapM fun id => do
        return (id, ← mergeLocal guard id (lhs.local? id) (rhs.local? id)) : Run _).Yields M c es M' c' →
      Mints M c M' c' := by
    intro ids
    induction ids with
    | nil =>
      intro es M c M' c' h
      rw [List.mapM_nil] at h
      obtain ⟨rfl, rfl, rfl⟩ := Run.yields_pure.1 h
      exact .refl _ _
    | cons id ids ih =>
      intro es M c M' c' h
      rw [List.mapM_cons] at h
      obtain ⟨e, M₁, c₁, head, h⟩ := Run.yields_bind.1 h
      obtain ⟨r, M₂, c₂, merge, head⟩ := Run.yields_bind.1 head
      obtain ⟨rfl, rfl, rfl⟩ := Run.yields_pure.1 head
      obtain ⟨rest, M₃, c₃, tail, h⟩ := Run.yields_bind.1 h
      obtain ⟨rfl, rfl, rfl⟩ := Run.yields_pure.1 h
      exact (mergeLocal_mints merge).trans (ih _ _ _ _ _ tail)
  obtain ⟨es, M₁, c₁, run, h⟩ := Run.yields_bind.1 h
  obtain ⟨rfl, rfl, rfl⟩ := Run.yields_pure.1 h
  exact each _ _ _ _ _ _ run

theorem Machine.Unknown.ty_eq {ty : Ty} {v : SymValue} (h : Unknown M c ty v M' c') : v.ty = ty := by
  cases h <;> rfl

theorem Machine.Known.ty_eq {o : Option SymValue} {v : SymValue} (h : Known id M c o v M' c')
    (typed : ∀ v, o = some v → v.ty = id.ty) : v.ty = id.ty := by
  cases h with
  | bound => exact typed v rfl
  | unbound unknown => exact unknown.ty_eq

end Minting

section Looking

variable {τ : Assignment} {lhs rhs st : SymState} {c c' : Context} {l : Label} {ts : List Term} {M : Machine}
  {guard : Term} {v w r : SymValue} {x : Bool}

/-- Arrays of a field are known by class and name, whatever the label and the type. -/
theorem Memory.array_value? (m : Memory) {k k' : Chunk} (same : (k == k') = true) (l l' : Label) :
    (m.array l k).value? τ = (m.array l' k').value? τ := by
  have names : k.id = k'.id := by
    obtain ⟨classes, fields⟩ := Bool.and_eq_true_iff.1 same
    rw [Chunk.id, Chunk.id, beq_iff_eq.1 classes, beq_iff_eq.1 fields]
  unfold array
  rw [Table.get?_congr _ same]
  cases m.fields.get? k' with
  | some a => rfl
  | none =>
    simp only [Option.getD_none, Chunk.initial, Term.var, Term.value?_leaf, Term.Atom.eval, names]

theorem MergeOf.local_value? (h : MergeOf lhs rhs c l ts M st c') (left : lhs.WellSorted)
    (right : rhs.WellSorted) (selects : (lhs.pathCondition l).denote τ.valuation = some (.bool x))
    {id : LocalId} {u : SymValue} (bound : (if x then lhs else rhs).memory.local? id = some u) :
    ∃ r, st.memory.local? id = some r ∧ r.ty = u.ty ∧ r.term.value? τ = u.term.value? τ := by
  obtain ⟨y, y', run⟩ := h.locals
  obtain ⟨-, neither, merged⟩ := mergeLocals_ok run
  cases found : st.memory.local? id with
  | none =>
    obtain ⟨noLeft, noRight⟩ := neither id found
    cases x with
    | true => cases noLeft.symm.trans bound
    | false => cases noRight.symm.trans bound
  | some r =>
    obtain ⟨M₀, c₀, M₁, c₁, merge, -⟩ := merged id r found
    obtain ⟨v, w, M₂, c₂, c₃, labels, hv, hw, choice, -⟩ := mergeLocal_ok merge
    have tv : v.ty = id.ty := hv.ty_eq fun v hv => left.locals id v hv
    have tw : w.ty = id.ty := hw.ty_eq fun w hw => right.locals id w hw
    obtain ⟨ty, value⟩ := choice.denote (tv.trans tw.symm) selects
    rw [← Term.value?_eq_denote, ← Term.value?_eq_denote] at value
    refine ⟨r, rfl, ?_⟩
    -- The value that is known of the side is the one that it had bound.
    cases x with
    | true =>
      rw [show lhs.memory.local? id = some u from bound] at hv
      cases hv
      exact ⟨ty, value⟩
    | false =>
      rw [show rhs.memory.local? id = some u from bound] at hw
      cases hw
      exact ⟨ty.trans (tv.trans tw.symm), value⟩

theorem MergeOf.array_value? (h : MergeOf lhs rhs c l ts M st c')
    (selects : (lhs.pathCondition l).denote τ.valuation = some (.bool x)) (k : Chunk) (y y' : Label) :
    (st.memory.array y k).value? τ = ((if x then lhs else rhs).memory.array y' k).value? τ := by
  cases found : st.memory.fields.get? k with
  | some a =>
    obtain ⟨k', mem, hit⟩ := Table.exists_of_lookup found
    obtain ⟨z, merge⟩ := h.arrays _ mem
    have array : st.memory.array y k = a := by
      unfold Memory.array
      rw [found]
      rfl
    have value := mergeArray_denote selects merge y'
    rw [← Term.value?_eq_denote, ← Term.value?_eq_denote] at value
    rw [array, value]
    exact Memory.array_value? _ hit _ _
  | none =>
    have absent : ¬ ∃ k' ∈ lhs.memory.fields.unionKeys rhs.memory.fields, (k' == k) = true := by
      rw [← h.keys]
      intro known
      have isSome := Table.isSome_get?.2 known
      rw [found] at isSome
      cases isSome
    rw [Table.exists_mem_unionKeys, not_or, Bool.not_eq_true, Option.isSome_eq_false_iff,
      Bool.not_eq_true, Option.isSome_eq_false_iff, Option.isNone_iff_eq_none,
      Option.isNone_iff_eq_none] at absent
    have side : (if x then lhs else rhs).memory.fields.get? k = none := by
      cases x with
      | true => exact absent.1
      | false => exact absent.2
    unfold Memory.array
    rw [found, side]
    rfl

/-- Whatever the guard selects is what the merged state shows. -/
theorem MergeOf.shows (h : MergeOf lhs rhs c l ts M st c') (left : lhs.WellSorted) (right : rhs.WellSorted)
    (selects : (lhs.pathCondition l).denote τ.valuation = some (.bool x)) :
    st.Shows τ (if x then lhs else rhs) where
  locals := fun _ _ bound => h.local_value? left right selects bound
  arrays := h.array_value? selects

/-- The merged path condition is that of either side, under the assumptions on unknown values. -/
theorem MergeOf.satisfied (h : MergeOf lhs rhs c l ts M st c') (left : lhs.WellSorted) (right : rhs.WellSorted)
    (sorted : τ.WellSorted (lhs.constraints ++ rhs.constraints)) (assumed : ∀ t ∈ ts, t.Holds τ) :
    st.Satisfied τ ↔ lhs.Satisfied τ ∨ rhs.Satisfied τ := by
  have models : ∀ s : SymState, s.Satisfied τ ↔ τ.valuation.Models s.constraints :=
    fun s => forall₂_congr fun t _ => Term.holds_iff_denote
  have truth : ∀ (s : SymState), s.WellSorted → s.constraints ⊆ lhs.constraints ++ rhs.constraints →
      ∀ l, ∃ p, (s.pathCondition l).denote τ.valuation = some (.bool p) ∧ (p = true ↔ s.Satisfied τ) := by
    intro s well sub l
    rw [models]
    by_cases holds : τ.valuation.Models s.constraints
    · exact ⟨true, Term.denote_andAll_iff.2 holds, iff_of_true rfl holds⟩
    · have bools : ∀ t ∈ s.constraints, ∃ r, t.denote τ.valuation = some (.bool r) :=
        fun t ht => sorted.condition (sub ht) (well.conditions t ht)
      exact ⟨false, Term.denote_andAll_eq_false bools holds, iff_of_false Bool.false_ne_true holds⟩
  obtain ⟨p, hp, prior⟩ := truth lhs left (List.subset_append_left ..) l
  obtain ⟨q, hq, later⟩ := truth rhs right (List.subset_append_right ..) (l + 1)
  rw [← prior, ← later, models, h.constraints, Valuation.models_cons, Term.denote_or_of_bools hp hq]
  have rest : τ.valuation.Models ts := fun t ht => Term.holds_iff_denote.1 (assumed t ht)
  simp [rest]

end Looking

section Extending

/-- Null is an object of a type or null, whatever the tags are. -/
theorem Registry.objectOrNull_null {ρ : Valuation} (hρ : ρ.WellSorted) {l x i : Nat} {name : String}
    (null : ρ name Address.sort = some (.bitVec 0 32)) :
    (objectOrNull l (.var x name Address.sort) i).denote ρ = some (.bool true) := by
  have same : Term.SameUnder ρ (.var x name Address.sort) (Address.null x) := ⟨rfl, rfl, rfl, null⟩
  have congr : (objectOrNull l (.var x name Address.sort) i).denote ρ =
      (objectOrNull l (Address.null x) i).denote ρ := objectOrNull_congr hρ rfl same
  exact congr.trans rfl

theorem Registry.vars_objectOrNull (l x i : Nat) (name : String) :
    (objectOrNull l (.var x name Address.sort) i).vars ⊆
      [(arrayName, .array Address.sort (.bitVec 32)), (name, Address.sort)] := by
  have vars : (objectOrNull l (.var x name Address.sort) i).vars =
      [(arrayName, .array Address.sort (.bitVec 32)), (name, Address.sort), (name, Address.sort),
        (name, Address.sort)] := rfl
  rw [vars]
  simp

/-- A reference that is null satisfies what is assumed of it. -/
theorem Minted.holds {c c' : Context} {t : Term} {τ : Assignment} (h : Minted c c' t) (sorted : τ.WellSorted [t])
    (null : ∀ n, c.locals ≤ n → n < c'.locals → τ.get? (localName n) = some (.bitVec 0 32)) : t.Holds τ := by
  obtain ⟨l, x, n, i, low, high, rfl⟩ := h
  rw [Term.holds_iff_denote, sorted.completed (List.mem_singleton.2 rfl)]
  refine Registry.objectOrNull_null τ.completed_wellSorted ?_
  rw [Assignment.completed, null n low high]
  rfl

variable {lhs rhs st : SymState} {c c' : Context} {l : Label} {ts : List Term} {M : Machine}

theorem MergeOf.minted (h : MergeOf lhs rhs c l ts M st c') : c.locals ≤ c'.locals ∧ ∀ t ∈ ts, Minted c c' t := by
  obtain ⟨x, x', run⟩ := h.locals
  have mints := mergeLocals_mints run
  refine ⟨mints.before.locals, fun t ht => ?_⟩
  have pending : .constraint t ∈ M.pending := by
    rw [h.assumed]
    exact List.mem_map.2 ⟨t, ht, rfl⟩
  rcases mints.minted t pending with old | minted
  · cases old
  · exact minted

/-- Constants of the merged path condition: those of both sides, unknown references, and the tags. -/
theorem MergeOf.vars (h : MergeOf lhs rhs c l ts M st c') (left : lhs.WellSorted) (right : rhs.WellSorted) :
    ∀ x ∈ Term.varsAll st.constraints, x ∈ Term.varsAll (lhs.constraints ++ rhs.constraints) ∨
      x = (Registry.arrayName, .array Address.sort (.bitVec 32)) ∨
      ∃ n, c.locals ≤ n ∧ n < c'.locals ∧ x = (localName n, Address.sort) := by
  intro x hx
  rw [h.constraints] at hx
  obtain ⟨t, ht, hx⟩ := Term.mem_varsAll.1 hx
  have guard := Term.andAll_stands (l := l) left.conditions
  have other := Term.andAll_stands (l := l + 1) right.conditions
  rcases List.mem_cons.1 ht with rfl | ht
  · have items : Term.wellSortedBools TermSort.valued [lhs.pathCondition l, rhs.pathCondition (l + 1)] = true :=
      Term.wellSortedBools_iff.2 (List.forall_mem_cons.2
        ⟨⟨guard.sort, guard.sorted⟩, List.forall_mem_singleton.2 ⟨other.sort, other.sorted⟩⟩)
    have joined : Term.Stands (.or (l + 2) (lhs.pathCondition l) (rhs.pathCondition (l + 1))) _ :=
      Term.join_stands items
    have both := joined.vars hx
    obtain ⟨side, mem, hx⟩ := Term.mem_varsAll.1 both
    refine .inl ?_
    rcases List.mem_cons.1 mem with rfl | mem
    · obtain ⟨t, ht, hx⟩ := Term.mem_varsAll.1 (guard.vars hx)
      exact Term.mem_varsAll.2 ⟨t, List.mem_append_left _ ht, hx⟩
    · cases List.mem_singleton.1 mem
      obtain ⟨t, ht, hx⟩ := Term.mem_varsAll.1 (other.vars hx)
      exact Term.mem_varsAll.2 ⟨t, List.mem_append_right _ ht, hx⟩
  · obtain ⟨y, z, n, i, low, high, rfl⟩ := h.minted.2 t ht
    rcases List.mem_cons.1 (Registry.vars_objectOrNull y z i (localName n) hx) with same | same
    · exact .inr (.inl same)
    · exact .inr (.inr ⟨n, low, high, List.mem_singleton.1 same⟩)

/-- Constants that a merge adds to those of the terms: unknown references, and the tags unless they occur. -/
def addedNames (us : List Term) (c c' : Context) : List String :=
  (List.range' c.locals (c'.locals - c.locals)).map localName ++
    if Registry.arrayName ∈ (Term.varsAll us).map (·.1) then [] else [Registry.arrayName]

/-- Null as a reference, and one tag for all objects: what is assumed of unknown references holds. -/
def addedValue (name : String) : Value :=
  if name = Registry.arrayName then .array (.const (.bitVec 0 32)) else .bitVec 0 32

section Adding

variable {us : List Term} {n : Nat}

theorem not_mem_addedNames (fresh : ∀ n, c.locals ≤ n → ∀ x ∈ Term.varsAll us, x.1 ≠ localName n)
    {x : String × TermSort} (hx : x ∈ Term.varsAll us) : x.1 ∉ addedNames us c c' := by
  intro mem
  rcases List.mem_append.1 mem with new | tags
  · obtain ⟨n, range, same⟩ := List.mem_map.1 new
    exact fresh n (List.mem_range'_1.1 range).1 x hx same.symm
  · split at tags
    next => cases tags
    next absent =>
      refine absent (List.mem_map.2 ⟨x, hx, ?_⟩)
      exact List.mem_singleton.1 tags

theorem localName_mem_addedNames (low : c.locals ≤ n) (high : n < c'.locals) :
    localName n ∈ addedNames us c c' :=
  List.mem_append_left _ (List.mem_map.2 ⟨n, List.mem_range'_1.2 ⟨low, by omega⟩, rfl⟩)

theorem arrayName_mem_addedNames (absent : Registry.arrayName ∉ (Term.varsAll us).map (·.1)) :
    Registry.arrayName ∈ addedNames us c c' := by
  refine List.mem_append_right _ ?_
  rw [if_neg absent]
  exact List.mem_singleton.2 rfl

theorem addedValue_localName (n : Nat) : addedValue (localName n) = .bitVec 0 32 := by
  refine if_neg fun same => ?_
  have initials := congrArg initialOf same
  rw [initialOf_localName, Registry.initialOf_arrayName] at initials
  cases initials

end Adding

/-- An assignment of the constants of two states extends to the unknowns of their merge: references to
null, and the tags, if they do not occur yet, to any array. -/
theorem MergeOf.exists_extension (h : MergeOf lhs rhs c l ts M st c') (left : lhs.WellSorted)
    (right : rhs.WellSorted)
    (fresh : ∀ n, c.locals ≤ n → ∀ x ∈ Term.varsAll (lhs.terms ++ rhs.terms), x.1 ≠ localName n)
    {σ : Assignment} (sorted : σ.WellSorted (lhs.terms ++ rhs.terms)) :
    ∃ τ, σ.AgreeOn τ (lhs.terms ++ rhs.terms) ∧ τ.WellSorted st.constraints ∧ ∀ t ∈ ts, t.Holds τ := by
  obtain ⟨τ, hτ⟩ := σ.exists_override addedValue (addedNames (lhs.terms ++ rhs.terms) c c')
  have agree : σ.AgreeOn τ (lhs.terms ++ rhs.terms) := by
    intro x hx
    rw [hτ, if_neg (not_mem_addedNames fresh hx)]
  have null : ∀ n, c.locals ≤ n → n < c'.locals → τ.get? (localName n) = some (.bitVec 0 32) := by
    intro n low high
    rw [hτ, if_pos (localName_mem_addedNames low high), addedValue_localName]
  have tags : ∃ v, τ.get? Registry.arrayName = some v ∧ v.hasSort (.array Address.sort (.bitVec 32)) = true := by
    by_cases known : Registry.arrayName ∈ (Term.varsAll (lhs.terms ++ rhs.terms)).map (·.1)
    · obtain ⟨x, hx, name⟩ := List.mem_map.1 known
      have sort : x.2 = .array Address.sort (.bitVec 32) := by
        obtain ⟨t, ht, mem⟩ := Term.mem_varsAll.1 hx
        rcases List.mem_append.1 ht with ht | ht
        · exact left.tags x (Term.mem_varsAll.2 ⟨t, ht, mem⟩) name
        · exact right.tags x (Term.mem_varsAll.2 ⟨t, ht, mem⟩) name
      obtain ⟨v, found, hasSort⟩ := sorted x hx
      rw [← name, agree x hx, ← sort]
      exact ⟨v, found, hasSort⟩
    · rw [hτ, if_pos (arrayName_mem_addedNames known)]
      exact ⟨addedValue Registry.arrayName, rfl, rfl⟩
  have wellSorted : τ.WellSorted st.constraints := by
    intro x hx
    rcases h.vars left right x hx with old | rfl | ⟨n, low, high, rfl⟩
    · have known : x ∈ Term.varsAll (lhs.terms ++ rhs.terms) := by
        obtain ⟨t, ht, hx⟩ := Term.mem_varsAll.1 old
        exact Term.mem_varsAll.2 ⟨t, SymState.constraints_subset_terms lhs rhs ht, hx⟩
      rw [agree x known]
      exact sorted x known
    · exact tags
    · exact ⟨_, null n low high, rfl⟩
  refine ⟨τ, agree, wellSorted, fun t ht => ?_⟩
  refine (h.minted.2 t ht).holds (fun x hx => wellSorted x ?_) null
  rw [h.constraints]
  exact Term.mem_varsAll.2 ⟨t, List.mem_cons_of_mem _ ht, by simpa [Term.varsAll] using hx⟩

end Extending

namespace ExecState

variable {previous incoming merged : ExecState} {o : Overflow} {c c' : Context}

/-- A merge shows each state to the assignments that satisfy it, the earlier one first, and asks for
nothing but that one of the two is satisfied. -/
theorem merge_exact (left : previous.symbolic.WellSorted) (right : incoming.symbolic.WellSorted)
    (fresh : ∀ n, c.locals ≤ n →
      ∀ x ∈ Term.varsAll (previous.symbolic.terms ++ incoming.symbolic.terms), x.1 ≠ localName n)
    (ok : (previous.merge incoming o).run.run c = (.ok merged, c')) (σ : Assignment)
    (sorted : σ.WellSorted (previous.symbolic.terms ++ incoming.symbolic.terms)) :
    (∀ τ, σ.AgreeOn τ (previous.symbolic.terms ++ incoming.symbolic.terms) →
      (previous.symbolic.Satisfied σ → merged.symbolic.Shows τ previous.symbolic) ∧
      (incoming.symbolic.Satisfied σ → ¬ previous.symbolic.Satisfied σ →
        merged.symbolic.Shows τ incoming.symbolic)) ∧
    ∃ τ, σ.AgreeOn τ (previous.symbolic.terms ++ incoming.symbolic.terms) ∧
      τ.WellSorted merged.symbolic.constraints ∧
      (merged.symbolic.Satisfied τ ↔ previous.symbolic.Satisfied σ ∨ incoming.symbolic.Satisfied σ) := by
  obtain ⟨run, -⟩ := ExecState.merge_ok ok
  obtain ⟨l, ts, M, h⟩ := SymState.merge_ok run
  have conditions := SymState.constraints_subset_terms previous.symbolic incoming.symbolic
  have satisfied : ∀ τ, σ.AgreeOn τ (previous.symbolic.terms ++ incoming.symbolic.terms) →
      (previous.symbolic.Satisfied τ ↔ previous.symbolic.Satisfied σ) ∧
        (incoming.symbolic.Satisfied τ ↔ incoming.symbolic.Satisfied σ) := by
    intro τ agree
    exact ⟨forall₂_congr fun t ht => agree.holds (conditions (List.mem_append_left _ ht)),
      forall₂_congr fun t ht => agree.holds (conditions (List.mem_append_right _ ht))⟩
  have bound : ∀ τ, σ.AgreeOn τ (previous.symbolic.terms ++ incoming.symbolic.terms) →
      τ.WellSorted (previous.symbolic.constraints ++ incoming.symbolic.constraints) := by
    intro τ agree x hx
    obtain ⟨t, ht, hx⟩ := Term.mem_varsAll.1 hx
    have known := Term.mem_varsAll.2 ⟨t, conditions ht, hx⟩
    rw [agree x known]
    exact sorted x known
  refine ⟨fun τ agree => ⟨fun prior => ?_, fun _ notPrior => ?_⟩, ?_⟩
  · have models : τ.valuation.Models previous.symbolic.constraints :=
      fun t ht => Term.holds_iff_denote.1 ((satisfied τ agree).1.2 prior t ht)
    exact h.shows left right (Term.denote_andAll_iff.2 models)
  · have fails : ¬ τ.valuation.Models previous.symbolic.constraints := fun models =>
      notPrior ((satisfied τ agree).1.1 fun t ht => Term.holds_iff_denote.2 (models t ht))
    have bools : ∀ t ∈ previous.symbolic.constraints, ∃ r, t.denote τ.valuation = some (.bool r) :=
      fun t ht => (bound τ agree).condition (List.mem_append_left _ ht) (left.conditions t ht)
    exact h.shows left right (Term.denote_andAll_eq_false bools fails)
  · obtain ⟨τ, agree, wellSorted, assumed⟩ := h.exists_extension left right fresh sorted
    refine ⟨τ, agree, wellSorted, ?_⟩
    rw [h.satisfied left right (bound τ agree) assumed, (satisfied τ agree).1, (satisfied τ agree).2]

section Fork

/-- The state on one side of a fork, with a number and perhaps an object in its locals. -/
def onFork (condition : Term) (number : Int) (object : Option SymValue) : ExecState :=
  let x : LocalId := ⟨default, "x", .int⟩
  let o : LocalId := ⟨default, "o", .ref "A"⟩
  let locals := (x, .primitive .int (.ofInt 2 number 32)) :: object.toList.map fun v => (o, v)
  { initial default with symbolic := ⟨[condition], ⟨⟨locals⟩, {}⟩, 1⟩ }

def forkTaken : ExecState := onFork (.var 1 "local_0" .bool) 1 none

def forkPassed : ExecState :=
  onFork (.not 3 (.var 1 "local_0" .bool)) 2 (some (.reference (.ref "A") (.ofInt 4 1 32)))

def forkValues : Assignment := .ofList [("local_0", .bool true)]

/-- Of two sides of a fork the one that is taken is seen after the merge, which can be satisfied. -/
theorem merge_exact_fork :
    ∃ merged c', (forkTaken.merge forkPassed).run.run { locals := 1 } = (.ok merged, c') ∧
      merged.symbolic.Shows forkValues forkTaken.symbolic ∧ ∃ τ, merged.symbolic.Satisfied τ := by
  have typed : ∀ s : ExecState, (∀ e ∈ s.symbolic.memory.locals.entries, e.2.ty = e.1.ty) →
      ∀ id v, s.symbolic.memory.local? id = some v → v.ty = id.ty :=
    fun s each id v found => each (id, v) (Table.mem_of_get? found)
  have left : forkTaken.symbolic.WellSorted :=
    ⟨List.forall_mem_singleton.2 ⟨rfl, rfl⟩, typed _ (by decide), by decide⟩
  have right : forkPassed.symbolic.WellSorted :=
    ⟨List.forall_mem_singleton.2 ⟨rfl, rfl⟩, typed _ (by decide), by decide⟩
  have names : ∀ x ∈ Term.varsAll (forkTaken.symbolic.terms ++ forkPassed.symbolic.terms),
      x = ("local_0", .bool) := by decide
  have fresh : ∀ n, 1 ≤ n → ∀ x ∈ Term.varsAll (forkTaken.symbolic.terms ++ forkPassed.symbolic.terms),
      x.1 ≠ localName n := by
    intro n positive x hx same
    rw [names x hx] at same
    have zero : 0 = n := localName_injective same
    omega
  have sorted : forkValues.WellSorted (forkTaken.symbolic.terms ++ forkPassed.symbolic.terms) := by
    intro x hx
    rw [names x hx]
    exact ⟨.bool true, rfl, rfl⟩
  have taken : forkTaken.symbolic.Satisfied forkValues := List.forall_mem_singleton.2 rfl
  obtain ⟨merged, c', run⟩ : ∃ merged c',
      (forkTaken.merge forkPassed).run.run { locals := 1 } = (.ok merged, c') := ⟨_, _, rfl⟩
  obtain ⟨shows, τ, -, -, satisfied⟩ := merge_exact left right fresh run forkValues sorted
  exact ⟨merged, c', run, (shows forkValues fun _ _ => rfl).1 taken, τ, satisfied.2 (.inl taken)⟩

end Fork

end ExecState
end SinkReach
