import SinkReach.Proofs.Step.Merge
import SinkReach.Proofs.Typing.Machine

/-!
Two well-typed states that are at one node can be merged, and the merged state is well-typed. A local has
values of its one type on both sides, or an unknown one of that type, and a field has arrays of one sort,
so that neither choice is ever between sorts that differ.
-/
namespace SinkReach

open Run (Ensures)

variable {F : Field → Prop} {E : Fault → Prop} {guard : Term} {v w : SymValue} {ty : Ty} {id : LocalId}

/-- Of two values of one type one can be chosen. -/
theorem Machine.exists_choose (condition : guard.OfSort .bool) (hv : v.HasType ty) (hw : w.HasType ty) (l : Label) :
    ∃ r, choose l guard v w = .ok r ∧ r.HasType ty := by
  cases v with
  | primitive s a =>
    cases w with
    | reference t b => exact nomatch hv.of_primitive.2.1.symm.trans hw.of_reference.2.1
    | primitive t b =>
      obtain ⟨rfl, kind, ha⟩ := hv.of_primitive
      obtain ⟨rfl, -, hb⟩ := hw.of_primitive
      obtain ⟨r, chosen, sorted⟩ := condition.conditional (l := l + 32) ha hb
      refine ⟨.primitive t r, ?_, .primitive kind sorted⟩
      simp only [choose, if_true]
      exact except_bind_ok.2 ⟨b, rfl, except_bind_ok.2 ⟨r, chosen, rfl⟩⟩
  | reference s a =>
    cases w with
    | primitive t b => exact nomatch hw.of_primitive.2.1.symm.trans hv.of_reference.2.1
    | reference t b =>
      obtain ⟨rfl, kind, ha⟩ := hv.of_reference
      obtain ⟨rfl, -, hb⟩ := hw.of_reference
      obtain ⟨r, chosen, sorted⟩ := condition.conditional (l := l) ha hb
      refine ⟨.reference t r, ?_, .reference kind sorted⟩
      simp only [choose, ite_self]
      exact except_bind_ok.2 ⟨r, chosen, rfl⟩

theorem ensures_known {o : Option SymValue} (typed : ∀ v, o = some v → v.HasType id.ty) :
    Ensures (Machine.WellTyped F) E (mergeLocal.known id o) fun v => v.HasType id.ty := by
  cases o with
  | some v => exact .pure (typed v rfl)
  | none => exact Machine.ensures_unknown id.ty

theorem ensures_mergeLocal (condition : guard.OfSort .bool) {o p : Option SymValue}
    (left : ∀ v, o = some v → v.HasType id.ty) (right : ∀ w, p = some w → w.HasType id.ty) :
    Ensures (Machine.WellTyped F) E (mergeLocal guard id o p) fun r => r.HasType id.ty := by
  have choice {v w : SymValue} (hv : v.HasType id.ty) (hw : w.HasType id.ty) :
      Ensures (Machine.WellTyped F) E (do liftExcept (Machine.choose (← freshLabel) guard v w))
        fun r => r.HasType id.ty :=
    .bind .freshLabel fun l _ => .of_ok (Machine.exists_choose condition hv hw l)
  have unequal : Ensures (Machine.WellTyped F) E (do
      let v ← mergeLocal.known id o
      let w ← mergeLocal.known id p
      liftExcept (Machine.choose (← freshLabel) guard v w)) fun r => r.HasType id.ty :=
    .bind (ensures_known left) fun v hv => .bind (ensures_known right) fun w hw => choice hv hw
  cases o with
  | none => exact unequal
  | some v =>
    cases p with
    | none => exact unequal
    | some w =>
      simp only [mergeLocal]
      split
      · exact .pure (left v rfl)
      · exact choice (left v rfl) (right w rfl)

theorem ensures_mergeLocals (condition : guard.OfSort .bool) {lhs rhs : Memory} (left : lhs.WellTyped F)
    (right : rhs.WellTyped F) : Ensures (Machine.WellTyped F) E (mergeLocals guard lhs rhs)
      fun locals => ∀ e ∈ locals.entries, e.2.HasType e.1.ty := by
  refine .bind (.mapM fun id _ => ?_) fun es typed => .pure typed
  exact .bind (ensures_mergeLocal condition (left.locals id) (right.locals id)) fun r hr => .pure hr

theorem exists_mergeArray (condition : guard.OfSort .bool) (agree : Field.Agree F) {lhs rhs : Memory}
    (left : lhs.WellTyped F) (right : rhs.WellTyped F) {f : Field} (named : F f) (l : Label) :
    ∃ t, mergeArray l guard (.ofField f) lhs rhs = .ok t ∧ t.OfSort (.array Address.sort f.ty.sort) := by
  have ha := left.array agree named l
  have hb := right.array agree named (l + 1)
  unfold mergeArray
  dsimp only
  split
  · exact ⟨_, rfl, ha⟩
  · exact condition.conditional ha hb

/-- The arrays of fields that the program names can be merged one after the other. -/
theorem exists_mergeArrays (condition : guard.OfSort .bool) (agree : Field.Agree F) {lhs rhs : Memory}
    (left : lhs.WellTyped F) (right : rhs.WellTyped F) {ks : List Chunk}
    (named : ∀ k ∈ ks, ∃ f, F f ∧ k = .ofField f) (c : Context) :
    ∃ es c', (ks.mapM fun k => do
        return (k, ← liftExcept (mergeArray (← freshLabel) guard k lhs rhs)) : Symbolic _).run.run c = (.ok es, c') ∧
      ∀ e ∈ es, ∃ f, F f ∧ e.1 = .ofField f ∧ e.2.OfSort (.array Address.sort f.ty.sort) := by
  induction ks generalizing c with
  | nil =>
    rw [List.mapM_nil]
    exact ⟨[], c, rfl, fun _ mem => nomatch mem⟩
  | cons k ks ih =>
    obtain ⟨⟨f, hf, rfl⟩, others⟩ := List.forall_mem_cons.1 named
    obtain ⟨t, merge, sorted⟩ := exists_mergeArray condition agree left right hf c.labels
    obtain ⟨es, c', rest, typed⟩ := ih others { c with labels := c.labels + labelBlock }
    refine ⟨(.ofField f, t) :: es, c', ?_, List.forall_mem_cons.2 ⟨⟨f, hf, rfl, sorted⟩, typed⟩⟩
    rw [List.mapM_cons]
    refine run_bind_ok.2 ⟨(.ofField f, t), { c with labels := c.labels + labelBlock }, ?_, ?_⟩
    · refine run_bind_ok.2 ⟨c.labels, _, rfl, run_bind_ok.2 ⟨t, _, run_lift_ok.2 ⟨merge, rfl⟩, rfl⟩⟩
    · exact run_bind_ok.2 ⟨es, c', rest, rfl⟩

/-- Every array that either side has stored into is one of a field that the program names. -/
theorem named_of_mem_unionKeys {lhs rhs : Memory} (left : lhs.WellTyped F) (right : rhs.WellTyped F) :
    ∀ k ∈ lhs.fields.unionKeys rhs.fields, ∃ f, F f ∧ k = .ofField f := by
  have named {m : Memory} (typed : m.WellTyped F) {k : Chunk} (mem : k ∈ m.fields.keys) :
      ∃ f, F f ∧ k = .ofField f := by
    obtain ⟨e, listed, rfl⟩ := List.mem_map.1 mem
    obtain ⟨f, hf, field, -⟩ := typed.fields e listed
    exact ⟨f, hf, field⟩
  intro k mem
  rcases Table.mem_of_mem_unionKeys mem with mem | mem
  · exact named left mem
  · exact named right mem

/-- Well-typed states can be merged, into a well-typed one. -/
theorem SymState.exists_merge (agree : Field.Agree F) {lhs rhs : SymState} (left : lhs.WellTyped F)
    (right : rhs.WellTyped F) (c : Context) :
    ∃ st c', (lhs.merge rhs).run.run c = (.ok st, c') ∧ st.WellTyped F := by
  have condition (s : SymState) (typed : s.WellTyped F) (l : Label) : (s.pathCondition l).OfSort .bool :=
    .join typed.constraints
  have guard := condition lhs left c.labels
  obtain ⟨locals, M, c₁, run, gathered, typed⟩ := (ensures_mergeLocals guard left.memory
    right.memory).exists_yields (.start right) { c with labels := c.labels + labelBlock }
  obtain ⟨es, c₂, merge, sorted⟩ := exists_mergeArrays guard agree left.memory right.memory
    (named_of_mem_unionKeys left.memory right.memory) c₁
  have merged : (SymState.ofParts [.or (c.labels + 2) (lhs.pathCondition c.labels)
      (rhs.pathCondition (c.labels + 1))] ⟨locals, ⟨es⟩⟩ (max lhs.nextAddress rhs.nextAddress)).WellTyped F :=
    ⟨⟨fun id v found => typed _ (Table.mem_of_get? found), sorted⟩,
      List.forall_mem_singleton.2 (guard.or (condition rhs right _))⟩
  refine ⟨_, { c₂ with labels := c₂.labels + 2 * M.pending.length }, ?_,
    merged.updateAll agree gathered.pending c₂.labels⟩
  refine run_bind_ok.2 ⟨c.labels, _, rfl, ?_⟩
  refine run_bind_ok.2 ⟨(locals, M.pending), c₁, Machine.on_ok.2 ⟨{ M with pending := [] }, ?_⟩, ?_⟩
  · refine Run.yields_bind.2 ⟨locals, M, c₁, run, Run.yields_bind.2 ⟨M.pending, _, c₁, ?_, rfl⟩⟩
    exact Run.yields_machine.2 ⟨rfl, rfl, rfl⟩
  · exact run_bind_ok.2 ⟨⟨es⟩, c₂, run_bind_ok.2 ⟨es, c₂, merge, rfl⟩, rfl⟩

/-- So can well-typed states at one node, unless the build stops where their tallies overflow. -/
theorem ExecState.exists_merge (agree : Field.Agree F) {x y : ExecState} (left : x.symbolic.WellTyped F)
    (right : y.symbolic.WellTyped F) (same : x.node = y.node) (o : Overflow) (c : Context) :
    (∃ r c', (x.merge y o).run.run c = (.ok r, c') ∧ r.symbolic.WellTyped F) ∨
      o = .panics ∧ 2 ^ 32 ≤ x.merged + y.merged + 1 ∧
        ∃ c', (x.merge y o).run.run c = (.error .overflow, c') := by
  obtain ⟨path, found⟩ := Path.exists_merge? same
  obtain ⟨st, c', merge, typed⟩ := SymState.exists_merge agree left right c
  unfold ExecState.merge
  rw [found]
  cases tally : mergeTally o x.merged y.merged with
  | ok n =>
    refine .inl ⟨⟨path, x.stack, st, n, mergeCounts x.counts y.counts⟩, c', ?_, typed⟩
    exact run_bind_ok.2 ⟨st, c', merge, run_bind_ok.2 ⟨n, c', run_lift_ok.2 ⟨rfl, rfl⟩, rfl⟩⟩
  | error f =>
    obtain ⟨checked, exceeds, rfl⟩ := mergeTally_error tally
    refine .inr ⟨checked, exceeds, c', ?_⟩
    dsimp only
    rw [run_bind, merge]
    rfl

end SinkReach
