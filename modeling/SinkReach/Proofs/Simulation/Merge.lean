import SinkReach.Proofs.Simulation.Typing
import SinkReach.Proofs.Step.Merge

/-!
Merges of well-typed states are well-typed: each local and each array is a choice between contents of
one type.
-/
namespace SinkReach

variable {S : Scene} {κ : Links} {s s' : SymState} {ty : Ty} {v v' w w' r : SymValue} {l l' : Label}
  {g g' : Term} {id : LocalId}

namespace SymValue

/-- The value with another term. -/
def withTerm : SymValue → Term → SymValue
  | primitive ty _, t => primitive ty t
  | reference ty _, t => reference ty t

theorem withTerm_ty (v : SymValue) (t : Term) : (v.withTerm t).ty = v.ty := by cases v <;> rfl

theorem withTerm_term (v : SymValue) (t : Term) : (v.withTerm t).term = t := by cases v <;> rfl

end SymValue

theorem TwinValue.withTerm {t t' : Term} (h : TwinValue S κ v v') (fits : Fits S κ v.ty t t') :
    TwinValue S κ (v.withTerm t) (v'.withTerm t') := by
  cases h with
  | primitive kind => exact .primitive kind fits
  | reference kind => exact .reference kind fits

theorem Term.conditional_ok {a b t : Term} (h : Term.conditional l g a b = .ok t) :
    a.sort = b.sort ∧ g.sort = .bool ∧ t = .ite l g a b := by
  unfold Term.conditional at h
  split at h
  · cases h
  next sorts =>
    split at h
    · cases h
    next isBool =>
      cases h
      exact ⟨not_not.1 sorts, not_not.1 isBool, rfl⟩

/-- A choice between values of one type is a conditional of that type. -/
theorem Machine.choose_ok (tys : v.ty = w.ty) (h : Machine.choose l g v w = .ok r) :
    ∃ x, v.term.sort = w.term.sort ∧ r = v.withTerm (.ite x g v.term w.term) := by
  cases v with
  | primitive s a =>
    cases w with
    | primitive t b =>
      cases tys
      simp only [Machine.choose, if_true] at h
      obtain ⟨_, ok, h⟩ := except_bind_ok.1 h
      cases ok
      obtain ⟨t, conditional, h⟩ := except_bind_ok.1 h
      cases h
      obtain ⟨sorts, -, rfl⟩ := Term.conditional_ok conditional
      exact ⟨_, sorts, rfl⟩
    | reference => cases h
  | reference s a =>
    cases w with
    | primitive => cases h
    | reference t b =>
      cases tys
      obtain ⟨t, conditional, h⟩ := except_bind_ok.1 h
      cases h
      obtain ⟨sorts, -, rfl⟩ := Term.conditional_ok conditional
      refine ⟨l, sorts, ?_⟩
      simp [SymValue.withTerm, SymValue.term]

namespace Agree

theorem choose (hg : Plain S κ .bool g g') (hv : TwinOf S ty κ v v') (hw : TwinOf S ty κ w w') :
    Agree S κ s s' (liftExcept (Machine.choose l g v w)) (liftExcept (Machine.choose l' g' v' w'))
      (TwinOf S ty) := by
  refine lift fun r r' hr hr' => ?_
  have tys : v.ty = w.ty := hv.1.trans hw.1.symm
  obtain ⟨x, sorts, rfl⟩ := Machine.choose_ok tys hr
  obtain ⟨x', -, rfl⟩ := Machine.choose_ok (hv.2.ty_eq.trans (tys.trans hw.2.ty_eq.symm)) hr'
  refine ⟨(v.withTerm_ty _).trans hv.1, hv.2.withTerm ?_⟩
  have fits := hv.2.fits
  have fits' := hw.2.fits
  rw [← tys] at fits'
  obtain ⟨twin, sort⟩ := hg.1.ite (l := x) (d := x') fits.1 fits'.1 hg.2 sorts
  exact ⟨twin, sort.trans fits.2⟩

theorem known {o : Option SymValue} (h : ∀ v, o = some v → TwinOf S id.ty κ v v) :
    Agree S κ s s' (mergeLocal.known id o) (mergeLocal.known id o) (TwinOf S id.ty) := by
  cases o with
  | none => exact unknown id.ty
  | some v => exact pure (h v rfl)

theorem mergeLocal {o p : Option SymValue} (hg : Plain S κ .bool g g)
    (ho : ∀ v, o = some v → TwinOf S id.ty κ v v) (hp : ∀ w, p = some w → TwinOf S id.ty κ w w) :
    Agree S κ s s' (SinkReach.mergeLocal g id o p) (SinkReach.mergeLocal g id o p)
      (TwinOf S id.ty) := by
  have unequal : Agree S κ s s' (do
        let v ← SinkReach.mergeLocal.known id o
        let w ← SinkReach.mergeLocal.known id p
        liftExcept (Machine.choose (← SinkReach.freshLabel) g v w)) (do
        let v ← SinkReach.mergeLocal.known id o
        let w ← SinkReach.mergeLocal.known id p
        liftExcept (Machine.choose (← SinkReach.freshLabel) g v w)) (TwinOf S id.ty) := by
    refine (known ho).bind fun κ₁ le v v' hv => ?_
    refine (known fun w hw => ⟨(hp w hw).1, (hp w hw).2.mono le⟩).bind fun κ₂ le₂ w w' hw => ?_
    refine freshLabel.bind fun κ₃ le₃ l l' _ => ?_
    have le₁ := Links.le_trans le₂ le₃
    exact choose (hg.mono (Links.le_trans le le₁)) ⟨hv.1, hv.2.mono le₁⟩ ⟨hw.1, hw.2.mono le₃⟩
  cases o with
  | none => exact unequal
  | some v =>
    cases p with
    | none => exact unequal
    | some w =>
      unfold SinkReach.mergeLocal
      simp only
      split
      · exact pure (ho v rfl)
      · refine freshLabel.bind fun κ₁ le l l' _ => ?_
        exact choose (hg.mono le) ⟨(ho v rfl).1, (ho v rfl).2.mono le⟩
          ⟨(hp w rfl).1, (hp w rfl).2.mono le⟩

theorem mergeLocals {lhs rhs : Memory} (hg : Plain S κ .bool g g) (hl : TwinMemory S κ lhs lhs)
    (hr : TwinMemory S κ rhs rhs) :
    Agree S κ s s' (SinkReach.mergeLocals g lhs rhs) (SinkReach.mergeLocals g lhs rhs)
      fun κ₁ t t' => List.Forall₂ (fun e e' => e'.1 = e.1 ∧ TwinOf S e.1.ty κ₁ e.2 e'.2)
        t.entries t'.entries := by
  have mono : ∀ (κ₁ κ₂ : Links) (e e' : LocalId × SymValue), κ₁ ≤ κ₂ →
      e'.1 = e.1 ∧ TwinOf S e.1.ty κ₁ e.2 e'.2 → e'.1 = e.1 ∧ TwinOf S e.1.ty κ₂ e.2 e'.2 :=
    fun _ _ _ _ le twin => ⟨twin.1, twin.2.1, twin.2.2.mono le⟩
  refine (mapM mono _ fun id _ κ₁ le => ?_).bind fun κ₁ _ _ _ twins => pure twins
  have typed {m : Memory} (hm : TwinMemory S κ m m) (v : SymValue) (hv : m.local? id = some v) :
      TwinOf S id.ty κ₁ v v := (hm.mono le).locals hv hv
  exact (mergeLocal (hg.mono le) (typed hl) (typed hr)).bind fun κ₂ _ v v' twin => pure ⟨rfl, twin⟩

end Agree

section States

variable {lhs rhs st : SymState} {c c' : Context} {ts : List Term} {M : Machine} {f : Field}

/-- An array of a merged memory is made of those of both sides, unless neither side has one. -/
theorem MergeOf.array_cases (h : MergeOf lhs rhs c l ts M st c')
    (left : TwinMemory S κ lhs.memory lhs.memory) (right : TwinMemory S κ rhs.memory rhs.memory)
    (hf : S.fields f) :
    (∃ x a, (∀ y, st.memory.array y (.ofField f) = a) ∧
      mergeArray x (lhs.pathCondition l) (.ofField f) lhs.memory rhs.memory = .ok a) ∨
    ∀ y, st.memory.array y (.ofField f) = lhs.memory.array y (.ofField f) ∧
      st.memory.array y (.ofField f) = rhs.memory.array y (.ofField f) := by
  unfold Memory.array
  cases found : st.memory.fields.get? (.ofField f) with
  | some a =>
    obtain ⟨k, mem, hit⟩ := Table.exists_of_lookup found
    obtain ⟨x, merge⟩ := h.arrays _ mem
    have key : k ∈ lhs.memory.fields.unionKeys rhs.memory.fields :=
      h.keys ▸ List.mem_map.2 ⟨_, mem, rfl⟩
    obtain ⟨g, hg, rfl⟩ : ∃ g, S.fields g ∧ k = .ofField g :=
      (Table.mem_of_mem_unionKeys key).elim (left.chunks k) (right.chunks k)
    have same : Chunk.ofField g = .ofField f := by
      have type := S.coherent g f hg hf hit
      obtain ⟨classes, names⟩ := Bool.and_eq_true_iff.1 hit
      simp only [Chunk.ofField, Chunk.mk.injEq]
      exact ⟨beq_iff_eq.1 classes, beq_iff_eq.1 names, type⟩
    exact .inl ⟨x, a, fun _ => rfl, same ▸ merge⟩
  | none =>
    have absent : ¬ ∃ k ∈ lhs.memory.fields.unionKeys rhs.memory.fields, (k == Chunk.ofField f) = true := by
      rw [← h.keys]
      intro known
      have isSome := Table.isSome_get?.2 known
      rw [found] at isSome
      cases isSome
    rw [Table.exists_mem_unionKeys, not_or, Bool.not_eq_true, Option.isSome_eq_false_iff,
      Bool.not_eq_true, Option.isSome_eq_false_iff, Option.isNone_iff_eq_none,
      Option.isNone_iff_eq_none] at absent
    rw [absent.1, absent.2]
    exact .inr fun _ => ⟨rfl, rfl⟩

theorem mergeArray_typed {lhs rhs : Memory} {a : Term} (hg : Plain S κ .bool g g) (hf : S.fields f)
    (left : TwinMemory S κ lhs lhs) (right : TwinMemory S κ rhs rhs)
    (h : mergeArray l g (.ofField f) lhs rhs = .ok a) : TwinArrays S κ f.ty a a := by
  unfold mergeArray at h
  simp only at h
  split at h
  · cases h
    exact left.arrays f hf l l
  · obtain ⟨sorts, -, rfl⟩ := Term.conditional_ok h
    obtain ⟨twin, sort⟩ := left.arrays f hf l l
    obtain ⟨twin', -⟩ := right.arrays f hf (l + 1) (l + 1)
    obtain ⟨ite, sort'⟩ := hg.1.ite twin twin' hg.2 sorts
    exact ⟨ite, sort'.trans sort⟩

theorem Typed.pathCondition (h : Typed S κ s) (l : Label) :
    Plain S κ .bool (s.pathCondition l) (s.pathCondition l) :=
  Twin.join (List.forall₂_same.2 h.conditions)

/-- Conditions of assumptions are what is assumed. -/
theorem Update.conditions_map (ts : List Term) : Update.conditions (ts.map .constraint) = ts := by
  induction ts with
  | nil => rfl
  | cons t ts ih => rw [List.map_cons, Update.conditions, ih]

/-- A merge of well-typed states is well-typed. -/
theorem MergeOf.typed (h : MergeOf lhs rhs c l ts M st c') (still : S.Still) (left : Typed S κ lhs)
    (right : Typed S κ rhs) (accounts : Accounts S κ c) :
    ∃ κ₁, κ.consts ⊆ κ₁.consts ∧ Accounts S κ₁ c' ∧ c.Before c' ∧ Typed S κ₁ st := by
  obtain ⟨x, x', run⟩ := h.locals
  have guard := left.pathCondition l
  obtain ⟨κ₁, le, before, locals, meets⟩ := (Agree.mergeLocals guard left.memory right.memory).run
    (Meets.start right.memory ((accounts.tidyAt right.positive).relabel x x)) run run
  rw [List.forall₂_same] at locals
  have arrays : ∀ f, S.fields f → ∀ y y', TwinArrays S κ₁ f.ty (st.memory.array y (.ofField f))
      (st.memory.array y' (.ofField f)) := by
    intro f hf y y'
    rcases h.array_cases left.memory right.memory hf with ⟨_, a, same, merge⟩ | same
    · rw [same, same]
      exact mergeArray_typed (guard.mono le) hf (left.memory.mono le) (right.memory.mono le) merge
    · rw [(same y).1, (same y').1]
      exact (left.memory.mono le).arrays f hf y y'
  have assumed := TwinUpdate.conditions meets.pending
  rw [h.assumed, Update.conditions_map, List.forall₂_same] at assumed
  have either : Plain S κ .bool (.or (l + 2) (lhs.pathCondition l) (rhs.pathCondition (l + 1)))
      (.or (l + 2) (lhs.pathCondition l) (rhs.pathCondition (l + 1))) := guard.or (right.pathCondition _)
  refine ⟨Accounts.forget κ₁, le.1, .of_tidy (meets.tidy.relabel c'.labels c'.labels),
    ⟨before.locals, before.unbounded, before.registry⟩, ?_⟩
  refine Typed.mono (κ := κ₁) still ?_ fun _ hk => hk
  exact {
    memory := {
      locals := fun {id v v'} hv hv' => by
        cases hv.symm.trans hv'
        exact (locals _ (Table.mem_of_get? hv)).2
      bound := fun none => none
      arrays := arrays
      chunks := fun k hk => by
        rw [h.keys] at hk
        exact (Table.mem_of_mem_unionKeys hk).elim (left.memory.chunks k) (right.memory.chunks k) }
    conditions := by
      rw [h.constraints]
      exact List.forall_mem_cons.2 ⟨either.mono le, assumed⟩
    positive := by
      rw [h.nextAddress]
      exact Nat.le_max_right .. }

end States
end SinkReach
