import SinkReach.Proofs.Route.PathMerge
import SinkReach.Proofs.Symbolic.Context
import SinkReach.Proofs.Symbolic.State
import SinkReach.Proofs.Symbolic.Unknown
import SinkReach.Proofs.Term.Bits
import SinkReach.Step.Merge

/-!
Merges that succeed, taken apart: what becomes of each local and of each array, and that nothing but
assumptions on unknown values is gathered on the way.
-/
namespace SinkReach

/-- A run that has gathered only assumptions since. -/
structure Grows (M : Machine) (c : Context) (M' : Machine) (c' : Context) : Prop where
  assumed : ∃ ts : List Term, M'.pending = M.pending ++ ts.map .constraint
  before : c.Before c'

namespace Grows

variable {M M' M'' : Machine} {c c' c'' : Context}

theorem refl (M : Machine) (c : Context) : Grows M c M c := ⟨⟨[], (List.append_nil _).symm⟩, .refl c⟩

theorem trans (h : Grows M c M' c') (h' : Grows M' c' M'' c'') : Grows M c M'' c'' := by
  obtain ⟨⟨ts, eq⟩, before⟩ := h
  obtain ⟨⟨ts', eq'⟩, before'⟩ := h'
  refine ⟨⟨ts ++ ts', ?_⟩, before.trans before'⟩
  rw [eq', eq, List.map_append, List.append_assoc]

theorem relabel (h : Grows M c M' c') (x : Nat) : Grows M c M' { c' with labels := x } :=
  ⟨h.assumed, h.before.trans (.relabel ..)⟩

theorem mem (h : Grows M c M' c') {u : Update} (hu : u ∈ M.pending) : u ∈ M'.pending := by
  obtain ⟨ts, eq⟩ := h.assumed
  rw [eq]
  exact List.mem_append_left _ hu

end Grows

namespace Machine

variable {M M' : Machine} {c c' : Context} {ty : Ty} {v : SymValue}

theorem Unknown.grows (h : Unknown M c ty v M' c') : Grows M c M' c' := by
  cases h with
  | void => exact (Grows.refl M c).relabel _
  | null => exact (Grows.refl M c).relabel _
  | object _ => exact ⟨⟨[_], rfl⟩, Nat.le_succ _, Nat.le_refl _, Registry.le_tagOf _ ty⟩
  | primitive _ => exact ⟨⟨[], (List.append_nil _).symm⟩, Nat.le_succ _, Nat.le_refl _, Registry.le_refl _⟩

/-- The value of a local where it is bound, an unknown one where it is not. -/
inductive Known (id : LocalId) (M : Machine) (c : Context) :
    Option SymValue → SymValue → Machine → Context → Prop
  | bound (v : SymValue) : Known id M c (some v) v M c
  | unbound {v : SymValue} {M' : Machine} {c' : Context} : Unknown M c id.ty v M' c' →
    Known id M c none v M' c'

theorem Known.grows {id : LocalId} {o : Option SymValue} (h : Known id M c o v M' c') :
    Grows M c M' c' := by
  cases h with
  | bound => exact .refl M c
  | unbound unknown => exact unknown.grows

theorem yields_known {id : LocalId} {o : Option SymValue}
    (h : (mergeLocal.known id o).Yields M c v M' c') : Known id M c o v M' c' := by
  cases o with
  | some w =>
    obtain ⟨rfl, rfl, rfl⟩ := Run.yields_pure.1 h
    exact .bound v
  | none => exact .unbound (yields_unknown h)

end Machine

open Machine

/-- One of two values, by a guard, unless they are the same. -/
inductive Merged (guard : Term) (v w : SymValue) : SymValue → Prop
  | same : v.same w = true → Merged guard v w v
  | chosen {r : SymValue} (l : Label) : choose l guard v w = .ok r → Merged guard v w r

variable {M M' : Machine} {c c' : Context} {guard : Term} {id : LocalId} {r : SymValue}

theorem mergeLocal_ok {o p : Option SymValue} (h : (mergeLocal guard id o p).Yields M c r M' c') :
    ∃ v w M₁ c₁ c₂ labels, Known id M c o v M₁ c₁ ∧ Known id M₁ c₁ p w M' c₂ ∧ Merged guard v w r ∧
      c' = { c₂ with labels } := by
  have unequal : ∀ {o p : Option SymValue}, (do
        let v ← mergeLocal.known id o
        let w ← mergeLocal.known id p
        liftExcept (choose (← freshLabel) guard v w) : Run SymValue).Yields M c r M' c' →
      ∃ v w M₁ c₁ c₂ labels, Known id M c o v M₁ c₁ ∧ Known id M₁ c₁ p w M' c₂ ∧ Merged guard v w r ∧
        c' = { c₂ with labels } := by
    intro o p h
    obtain ⟨v, M₁, c₁, hv, h⟩ := Run.yields_bind.1 h
    obtain ⟨w, M₂, c₂, hw, h⟩ := Run.yields_bind.1 h
    obtain ⟨l, _, _, label, h⟩ := Run.yields_bind.1 h
    obtain ⟨rfl, rfl, rfl⟩ := Run.yields_freshLabel.1 label
    obtain ⟨chosen, rfl, rfl⟩ := Run.yields_lift.1 h
    exact ⟨v, w, M₁, c₁, c₂, _, yields_known hv, yields_known hw, .chosen _ chosen, rfl⟩
  cases o with
  | none => exact unequal h
  | some v =>
    cases p with
    | none => exact unequal h
    | some w =>
      by_cases same : v.same w = true
      · simp only [mergeLocal, if_pos same] at h
        obtain ⟨rfl, rfl, rfl⟩ := Run.yields_pure.1 h
        exact ⟨_, w, _, _, _, _, .bound _, .bound w, .same same, rfl⟩
      · simp only [mergeLocal, if_neg same] at h
        obtain ⟨l, _, _, label, h⟩ := Run.yields_bind.1 h
        obtain ⟨rfl, rfl, rfl⟩ := Run.yields_freshLabel.1 label
        obtain ⟨chosen, rfl, rfl⟩ := Run.yields_lift.1 h
        exact ⟨v, w, _, _, _, _, .bound v, .bound w, .chosen _ chosen, rfl⟩

theorem mergeLocal_grows {o p : Option SymValue} (h : (mergeLocal guard id o p).Yields M c r M' c') :
    Grows M c M' c' := by
  obtain ⟨v, w, M₁, c₁, c₂, labels, hv, hw, -, rfl⟩ := mergeLocal_ok h
  exact (hv.grows.trans hw.grows).relabel labels

/-- A local was merged in the course of a run that ends with a machine and a context. -/
def MergedAt (guard : Term) (lhs rhs : Memory) (M' : Machine) (c' : Context) (id : LocalId)
    (r : SymValue) : Prop :=
  ∃ M₀ c₀ M₁ c₁, (mergeLocal guard id (lhs.local? id) (rhs.local? id)).Yields M₀ c₀ r M₁ c₁ ∧
    Grows M₁ c₁ M' c'

theorem mergeEach_ok {lhs rhs : Memory} {ids : List LocalId} {es : List (LocalId × SymValue)}
    (h : (ids.mapM fun id => do
      return (id, ← mergeLocal guard id (lhs.local? id) (rhs.local? id)) : Run _).Yields M c es M' c') :
    Grows M c M' c' ∧ es.map (·.1) = ids ∧ ∀ e ∈ es, MergedAt guard lhs rhs M' c' e.1 e.2 := by
  induction ids generalizing M c es with
  | nil =>
    rw [List.mapM_nil] at h
    obtain ⟨rfl, rfl, rfl⟩ := Run.yields_pure.1 h
    exact ⟨.refl _ _, rfl, fun _ h => nomatch h⟩
  | cons id ids ih =>
    rw [List.mapM_cons] at h
    obtain ⟨e, M₁, c₁, head, h⟩ := Run.yields_bind.1 h
    obtain ⟨r, M₂, c₂, merge, head⟩ := Run.yields_bind.1 head
    obtain ⟨rfl, rfl, rfl⟩ := Run.yields_pure.1 head
    obtain ⟨rest, M₃, c₃, tail, h⟩ := Run.yields_bind.1 h
    obtain ⟨rfl, rfl, rfl⟩ := Run.yields_pure.1 h
    obtain ⟨grows, keys, each⟩ := ih tail
    refine ⟨(mergeLocal_grows merge).trans grows, by rw [List.map_cons, keys], ?_⟩
    exact List.forall_mem_cons.2 ⟨⟨M, c, _, _, merge, grows⟩, each⟩

/-- Locals of a merged memory: those of either side. -/
theorem mergeLocals_ok {lhs rhs : Memory} {locals : Table LocalId SymValue}
    (h : (mergeLocals guard lhs rhs).Yields M c locals M' c') :
    Grows M c M' c' ∧
      (∀ id, locals.get? id = none → lhs.local? id = none ∧ rhs.local? id = none) ∧
      ∀ id r, locals.get? id = some r → MergedAt guard lhs rhs M' c' id r := by
  obtain ⟨es, M₁, c₁, each, h⟩ := Run.yields_bind.1 h
  obtain ⟨rfl, rfl, rfl⟩ := Run.yields_pure.1 h
  obtain ⟨grows, keys, merged⟩ := mergeEach_ok each
  refine ⟨grows, fun id none => ?_, fun id r found => merged _ (Table.mem_of_get? found)⟩
  have union := Table.exists_mem_unionKeys lhs.locals rhs.locals id
  have absent : ¬ ∃ k ∈ lhs.locals.unionKeys rhs.locals, (k == id) = true := by
    rw [← keys]
    intro found
    have isSome := Table.isSome_get?.2 found
    rw [none] at isSome
    cases isSome
  rw [union, not_or, Bool.not_eq_true, Option.isSome_eq_false_iff, Bool.not_eq_true,
    Option.isSome_eq_false_iff, Option.isNone_iff_eq_none, Option.isNone_iff_eq_none] at absent
  exact absent

theorem mergeArrays_ok {lhs rhs : Memory} {ks : List Chunk} {es : List (Chunk × Term)}
    (h : (ks.mapM fun k => do
      return (k, ← liftExcept (mergeArray (← freshLabel) guard k lhs rhs)) : Symbolic _).run.run c =
        (.ok es, c')) :
    (∃ labels, c' = { c with labels }) ∧ es.map (·.1) = ks ∧
      ∀ e ∈ es, ∃ l, mergeArray l guard e.1 lhs rhs = .ok e.2 := by
  induction ks generalizing c es with
  | nil =>
    rw [List.mapM_nil] at h
    cases h
    exact ⟨⟨_, rfl⟩, rfl, fun _ h => nomatch h⟩
  | cons k ks ih =>
    rw [List.mapM_cons] at h
    obtain ⟨e, c₁, head, h⟩ := run_bind_ok.1 h
    obtain ⟨l, c₂, label, head⟩ := run_bind_ok.1 head
    cases label
    obtain ⟨a, c₃, lift, head⟩ := run_bind_ok.1 head
    obtain ⟨merge, rfl⟩ := run_lift_ok.1 lift
    cases head
    obtain ⟨rest, c₄, tail, h⟩ := run_bind_ok.1 h
    cases h
    obtain ⟨⟨labels, rfl⟩, keys, each⟩ := ih tail
    refine ⟨⟨labels, rfl⟩, by rw [List.map_cons, keys], List.forall_mem_cons.2 ⟨⟨_, merge⟩, each⟩⟩

/-- Fields of a merged memory: those of either side. -/
theorem mergeFields_ok {lhs rhs : Memory} {fields : Table Chunk Term}
    (h : (mergeFields guard lhs rhs).run.run c = (.ok fields, c')) :
    (∃ labels, c' = { c with labels }) ∧ fields.keys = lhs.fields.unionKeys rhs.fields ∧
      ∀ e ∈ fields.entries, ∃ l, mergeArray l guard e.1 lhs rhs = .ok e.2 := by
  unfold mergeFields at h
  obtain ⟨es, c₁, each, h⟩ := run_bind_ok.1 h
  cases h
  exact mergeArrays_ok each

/-- How two states were merged: by a guard with a label, under assumptions on unknown values that a
machine has gathered. -/
structure MergeOf (lhs rhs : SymState) (c : Context) (l : Label) (ts : List Term) (M : Machine)
    (st : SymState) (c' : Context) : Prop where
  constraints : st.constraints =
    .or (l + 2) (lhs.pathCondition l) (rhs.pathCondition (l + 1)) :: ts
  locals : ∃ x x', (mergeLocals (lhs.pathCondition l) lhs.memory rhs.memory).Yields (.start rhs)
    { c with labels := x } st.memory.locals M { c' with labels := x' }
  assumed : M.pending = ts.map .constraint
  keys : st.memory.fields.keys = lhs.memory.fields.unionKeys rhs.memory.fields
  arrays : ∀ e ∈ st.memory.fields.entries,
    ∃ x, mergeArray x (lhs.pathCondition l) e.1 lhs.memory rhs.memory = .ok e.2
  nextAddress : st.nextAddress = max (max lhs.nextAddress rhs.nextAddress) SymState.firstAddress

theorem SymState.updateAll_constraints (l : Label) (s : SymState) (ts : List Term) :
    s.updateAll l (ts.map .constraint) = { s with constraints := s.constraints ++ ts } := by
  induction ts generalizing l s with
  | nil => simp [updateAll]
  | cons t ts ih => simp [updateAll, update, assume, ih]

theorem SymState.merge_ok {lhs rhs st : SymState}
    (h : (lhs.merge rhs).run.run c = (.ok st, c')) : ∃ l ts M, MergeOf lhs rhs c l ts M st c' := by
  unfold SymState.merge at h
  obtain ⟨l, c₁, label, h⟩ := run_bind_ok.1 h
  cases label
  obtain ⟨⟨locals, fresh⟩, c₂, on, h⟩ := run_bind_ok.1 h
  obtain ⟨M₂, on⟩ := Machine.on_ok.1 on
  obtain ⟨_, M, c₃, run, on⟩ := Run.yields_bind.1 on
  obtain ⟨_, _, _, drain, on⟩ := Run.yields_bind.1 on
  obtain ⟨rfl, rfl, rfl⟩ := Run.yields_machine.1 drain
  obtain ⟨same, rfl, rfl⟩ := Run.yields_pure.1 on
  cases same
  obtain ⟨fields, c₄, mergeFields, h⟩ := run_bind_ok.1 h
  obtain ⟨⟨labels, rfl⟩, keys, arrays⟩ := mergeFields_ok mergeFields
  obtain ⟨⟨ts, assumed⟩, -⟩ := (mergeLocals_ok run).1
  have pending : M.pending = ts.map .constraint := assumed
  obtain ⟨_, _, label, h⟩ := run_bind_ok.1 h
  cases label
  cases h
  rw [pending, SymState.updateAll_constraints]
  exact ⟨c.labels, ts, M, rfl, ⟨_, c₂.labels, run⟩, pending, keys, arrays, rfl⟩

theorem SymValue.same_self (v : SymValue) : v.same v = true := by
  cases v with
  | primitive | reference => simp [SymValue.same, Term.same_eq_alike, Term.alike_refl]

/-- A local on which both sides agree is left as it is. -/
theorem mergeLocals_agree {lhs rhs : Memory} {locals : Table LocalId SymValue}
    (h : (mergeLocals guard lhs rhs).Yields M c locals M' c') (agree : lhs.local? id = rhs.local? id) :
    locals.get? id = lhs.local? id := by
  cases found : locals.get? id with
  | none => exact ((mergeLocals_ok h).2.1 id found).1.symm
  | some r =>
    obtain ⟨M₀, c₀, M₁, c₁, merge, -⟩ := (mergeLocals_ok h).2.2 id r found
    rw [← agree] at merge
    cases bound : lhs.local? id with
    | some v =>
      rw [bound] at merge
      simp only [mergeLocal, v.same_self, if_true] at merge
      rw [(Run.yields_pure.1 merge).1]
    | none =>
      -- The merged memory has no locals but those of either side.
      obtain ⟨es, M₂, c₂, each, h⟩ := Run.yields_bind.1 h
      obtain ⟨rfl, rfl, rfl⟩ := Run.yields_pure.1 h
      obtain ⟨-, keys, -⟩ := mergeEach_ok each
      have key : id ∈ lhs.locals.unionKeys rhs.locals := by
        rw [← keys]
        exact List.mem_map.2 ⟨_, Table.mem_of_get? found, rfl⟩
      have either := (Table.exists_mem_unionKeys lhs.locals rhs.locals id).1 ⟨id, key, beq_self_eq_true id⟩
      have known : (lhs.local? id).isSome = true := either.elim (fun left => left) fun right => agree ▸ right
      rw [bound] at known
      cases known

section Tallies

variable {o : Overflow} {lhs rhs n : Nat}

theorem modulus_word : Bits.modulus 32 = 2 ^ 32 := Bits.modulus_of_le (by decide)

/-- A tally is the sum modulo the size of 32 bits, and the sum itself where the build checks for overflow. -/
theorem mergeTally_ok (h : mergeTally o lhs rhs = .ok n) :
    n = (lhs + rhs + 1) % 2 ^ 32 ∧ (o = .panics → lhs + rhs + 1 < 2 ^ 32) := by
  simp only [mergeTally, Bits.mask, modulus_word] at h
  split at h
  next fits =>
    cases h
    exact ⟨(Nat.mod_eq_of_lt fits).symm, fun _ => fits⟩
  next =>
    cases o with
    | wraps =>
      cases h
      refine ⟨rfl, fun checked => ?_⟩
      cases checked
    | panics => cases h

/-- No tally is made if the build checks for overflow and the sum is too great. -/
theorem mergeTally_error {f : Fault} (h : mergeTally o lhs rhs = .error f) :
    o = .panics ∧ 2 ^ 32 ≤ lhs + rhs + 1 ∧ f = .overflow := by
  simp only [mergeTally, modulus_word] at h
  split at h
  next => cases h
  next exceeds =>
    cases o with
    | wraps => cases h
    | panics =>
      cases h
      exact ⟨rfl, Nat.not_lt.1 exceeds, rfl⟩

end Tallies

namespace ExecState

variable {x y r : ExecState} {o : Overflow} {c c' : Context}

/-- What a merge that succeeds makes of two states. -/
theorem merge_cases (h : (x.merge y o).run.run c = (.ok r, c')) :
    ∃ path symbolic n, x.path.merge? y.path = some path ∧
      (x.symbolic.merge y.symbolic).run.run c = (.ok symbolic, c') ∧ mergeTally o x.merged y.merged = .ok n ∧
      r = ⟨path, x.stack, symbolic, n, mergeCounts x.counts y.counts⟩ := by
  unfold merge at h
  split at h
  · exact absurd h run_throw_ne_ok
  next path found =>
    obtain ⟨symbolic, c₁, joined, rest⟩ := run_bind_ok.1 h
    obtain ⟨n, c₂, lift, done⟩ := run_bind_ok.1 rest
    obtain ⟨tally, rfl⟩ := run_lift_ok.1 lift
    obtain ⟨rfl, rfl⟩ := run_pure_ok.1 done
    exact ⟨path, symbolic, n, found, joined, tally, rfl⟩

/-- A merged state is where both were, in the frame of the earlier one. -/
theorem merge_ok (h : (x.merge y o).run.run c = (.ok r, c')) :
    (x.symbolic.merge y.symbolic).run.run c = (.ok r.symbolic, c') ∧ r.node = x.node ∧
      x.node = y.node ∧ r.stack = x.stack := by
  obtain ⟨path, symbolic, n, found, joined, -, rfl⟩ := merge_cases h
  obtain ⟨last, same⟩ := Path.merge?_last found
  exact ⟨joined, last, same, rfl⟩

/-- The history of a merged state: what both paths share, the greater counts, and the merges of both. -/
theorem merge_history (h : (x.merge y o).run.run c = (.ok r, c')) :
    x.path.merge? y.path = some r.path ∧ r.counts = mergeCounts x.counts y.counts ∧
      mergeTally o x.merged y.merged = .ok r.merged := by
  obtain ⟨path, symbolic, n, found, -, tally, rfl⟩ := merge_cases h
  exact ⟨found, rfl, tally⟩

/-- A merge leaves locals alone on which both states agree. -/
theorem merge_local? {id : LocalId} (h : (x.merge y o).run.run c = (.ok r, c'))
    (agree : x.symbolic.memory.local? id = y.symbolic.memory.local? id) :
    r.symbolic.memory.local? id = x.symbolic.memory.local? id := by
  obtain ⟨l, ts, M, merged⟩ := SymState.merge_ok (merge_ok h).1
  obtain ⟨_, _, locals⟩ := merged.locals
  exact mergeLocals_agree locals agree

end ExecState

end SinkReach
