import SinkReach.Proofs.Analysis.Search
import SinkReach.Proofs.Analysis.Unmerged
import SinkReach.Proofs.Simulation.Sides

/-!
Every state that the search keeps is covered by runs that never merge: a valuation that satisfies the
state is followed by such a run, whose state has the same contents and conditions that carry over.
-/
namespace SinkReach

variable {S : Scene} {κ κ' : Links} {ρ : Valuation} {q : Query} {m : Method} {limit : Nat} {b : Body}
  {c c' : Context} {x x' y : ExecState} {w w' w₁ w₁' : World}

/-- An unmerged run is at a state that a valuation sees in a kept one. -/
structure Traced (S : Scene) (κ : Links) (ρ : Valuation) (q : Query) (m : Method) (c : Context)
    (x : ExecState) (w' : World) (x' : ExecState) : Prop where
  instr : x'.node.instr = x.node.instr
  within : x'.Within m
  uniform : w'.calls.Uniform q m
  memory : TwinMemory S κ x.symbolic.memory x'.symbolic.memory
  tidy : Tidy S κ c w'.context x.symbolic.nextAddress x'.symbolic.nextAddress
  credible : ∀ id v, TwinMemory.Unmatched x.symbolic.memory x'.symbolic.memory id v →
    Credible ρ c.registry id.ty v
  known : ∀ t ∈ x'.symbolic.constraints, KnownCondition S κ t
  models : ∀ E, S.bridges E → E.Respects κ → E.right.Models x'.symbolic.constraints

theorem Traced.mono (h : Traced S κ ρ q m c x w' x') (before : c.Before c') :
    Traced S κ ρ q m c' x w' x' :=
  { h with
    tidy := h.tidy.mono_left before (Nat.le_refl _)
    credible := fun id v alone => (h.credible id v alone).mono before.registry }

/-- Unmerged runs follow every valuation that satisfies the state. -/
def Covers (h : b.Disciplined) (q : Query) (m : Method) (limit : Nat) (c : Context) (x : ExecState) :
    Prop :=
  ∀ ρ : Valuation, ρ.WellSorted → ρ.Models x.symbolic.constraints →
    ∃ κ w' x', Unmerged q m limit w' x' ∧ Traced (h.onward ρ) κ ρ q m c x w' x'

theorem Covers.mono {h : b.Disciplined} (covers : Covers h q m limit c x) (before : c.Before c') :
    Covers h q m limit c' x := fun ρ hρ models => by
  obtain ⟨κ, w', x', run, traced⟩ := covers ρ hρ models
  exact ⟨κ, w', x', run, traced.mono before⟩

theorem exists_of_forall₂ {α β : Type} {R : α → β → Prop} {xs : List α} {ys : List β}
    (h : List.Forall₂ R xs ys) {a : α} (ha : a ∈ xs) : ∃ b ∈ ys, R a b := by
  induction h with
  | nil => cases ha
  | cons head _ ih =>
    rcases List.mem_cons.1 ha with rfl | ha
    · exact ⟨_, List.mem_cons_self, head⟩
    · obtain ⟨b, hb, related⟩ := ih ha
      exact ⟨b, List.mem_cons_of_mem _ hb, related⟩

/-- An unmerged run goes on where the search goes on. -/
theorem Traced.next {h : b.Disciplined} {fs fs' : List ExecState} {f : ExecState}
    (traced : Traced (h.onward ρ) κ ρ q m w.context x w' x')
    (inMethod : ∀ e ∈ q.path.entries, e.method = m) (body : q.body m = .ok b) (within : x.Within m)
    (uniform : w.calls.Uniform q m) (next : (x.next q limit).run.run w = (.ok fs, w₁))
    (next' : (x'.next q limit).run.run w' = (.ok fs', w₁')) (hf : f ∈ fs)
    (models : ρ.Models f.symbolic.constraints) :
    ∃ κ₁, ∃ f' ∈ fs', Traced (h.onward ρ) κ₁ ρ q m w₁.context f w₁' f' := by
  have left : ∀ E, (h.onward ρ).bridges E → E.left = ρ := fun _ hE => hE.1
  obtain ⟨κ₁, le, before, arrives⟩ := next_twin inMethod body (fun i hi => h.regular _ hi) within
    traced.within traced.instr uniform traced.uniform traced.memory traced.tidy
    (fun id => catchesUp left (fun mirrored => mirrored) traced.memory traced.tidy fun v => traced.credible id v) next next'
  obtain ⟨f', hf', successor⟩ := exists_of_forall₂ arrives.twins hf
  obtain ⟨instr, -, within', follows⟩ := successor
  obtain ⟨ts, ts', eq, eq', known, transfer⟩ := follows.conditions
  rw [eq, Valuation.models_append] at models
  refine ⟨κ₁, f', hf', instr, within', arrives.uniform', follows.memory, follows.tidy,
    fun id v alone => ?_, ?_, fun E hE respects => ?_⟩
  · exact (traced.credible id v (follows.unmatched id v alone)).mono before.registry
  · rw [eq']
    exact List.forall_mem_append.2 ⟨fun t ht => (traced.known t ht).mono le, known⟩
  · rw [eq', Valuation.models_append]
    refine ⟨traced.models E hE (respects.mono le), (transfer E hE respects).1 ?_⟩
    rw [left E hE]
    exact models.2

/-- Unmerged runs that do not stop before the sink succeed. -/
def NeverFails (q : Query) (m : Method) (limit : Nat) : Prop :=
  ∀ w x, Unmerged q m limit w x → q.path.isSink x.node.method x.node.instr = false →
    ∃ following w', (x.next q limit).run.run w = (.ok following, w')

/-- What follows a covered state is covered. -/
theorem Covers.next {h : b.Disciplined} {fs : List ExecState} (covers : Covers h q m limit w.context x)
    (inMethod : ∀ e ∈ q.path.entries, e.method = m) (body : q.body m = .ok b)
    (never : NeverFails q m limit) (within : x.Within m) (uniform : w.calls.Uniform q m)
    (notSink : q.path.isSink x.node.method x.node.instr = false)
    (next : (x.next q limit).run.run w = (.ok fs, w₁)) :
    ∀ f ∈ fs, (∃ ts, f.symbolic.constraints = x.symbolic.constraints ++ ts) →
      Covers h q m limit w₁.context f := by
  intro f hf ⟨ts, more⟩ ρ hρ models
  have earlier := models
  rw [more, Valuation.models_append] at earlier
  obtain ⟨κ, w', x', run, traced⟩ := covers ρ hρ earlier.1
  have notSink' : q.path.isSink x'.node.method x'.node.instr = false := by
    rw [traced.within.method, traced.instr, ← within.method]
    exact notSink
  obtain ⟨fs', w₁', next'⟩ := never w' x' run notSink'
  obtain ⟨κ₁, f', hf', traced'⟩ := traced.next inMethod body within uniform next next' hf models
  exact ⟨κ₁, w₁', f', .step run notSink' next' hf', traced'⟩

/-- A merged state is covered if both sides are. -/
theorem Covers.merge {h : b.Disciplined} {lhs rhs r : ExecState} {l : Label} {ts : List Term}
    {M : Machine} (left : Covers h q m limit c lhs) (right : Covers h q m limit c rhs)
    (typed : Typed h.still κ lhs.symbolic) (typed' : Typed h.still κ rhs.symbolic)
    (merged : Typed h.still κ r.symbolic) (before : c.Before c')
    (merge : MergeOf lhs.symbolic rhs.symbolic c l ts M r.symbolic c')
    (node : r.node = lhs.node) (same : lhs.node = rhs.node) : Covers h q m limit c' r := by
  intro ρ hρ models
  have follow : ∀ side : ExecState, side.node = r.node → ρ.Models side.symbolic.constraints →
      SideOf ρ c'.registry h.still.fields side.symbolic r.symbolic → Covers h q m limit c side →
      ∃ κ w' x', Unmerged q m limit w' x' ∧ Traced (h.onward ρ) κ ρ q m c' r w' x' := by
    intro side at_ satisfied seen covers
    obtain ⟨κ₁, w', x', run, traced⟩ := (covers.mono before) ρ hρ satisfied
    refine ⟨κ₁, w', x', run, ?_⟩
    exact { traced with
      instr := by rw [traced.instr, at_]
      memory := traced.memory.of_sideOf (T := h.still) (fun _ hE => hE.1) rfl merged seen
      tidy := traced.tidy.mono_left (.refl c') seen.nextAddress
      credible := Credible.of_sideOf hρ merged seen traced.credible }
  rcases merge.models hρ typed typed' merged models with ⟨satisfied, seen⟩ | ⟨satisfied, seen⟩
  · exact follow lhs node.symm satisfied seen left
  · exact follow rhs (same.symm.trans node.symm) satisfied seen right

/-- A state of the search is well-typed and covered. -/
structure Kept (h : b.Disciplined) (q : Query) (m : Method) (limit : Nat) (κ : Links) (c : Context)
    (x : ExecState) : Prop where
  within : x.Within m
  typed : Typed h.still κ x.symbolic
  covers : Covers h q m limit c x

theorem Body.Disciplined.still_still (h : b.Disciplined) : h.still.Still := fun _ hE => hE.1

theorem Kept.mono {h : b.Disciplined} (kept : Kept h q m limit κ c x) (sub : κ.consts ⊆ κ'.consts)
    (before : c.Before c') : Kept h q m limit κ' c' x :=
  ⟨kept.within, kept.typed.mono h.still_still sub, kept.covers.mono before⟩

/-- All states that the search keeps are well-typed and covered. -/
structure SoundWorld (h : b.Disciplined) (q : Query) (m : Method) (limit : Nat) (κ : Links) (w : World) :
    Prop where
  uniform : w.calls.Uniform q m
  accounts : Accounts h.still κ w.context
  kept : ∀ n x, w.calls.data? n = some x → Kept h q m limit κ w.context x

namespace SoundWorld

variable {h : b.Disciplined} {s s' : Search} {t : Task} {o : Overflow} {first : Option Node}

/-- A received state is merged with the one kept at its node. -/
theorem received {c : Context} {stored : ExecState} (sound : SoundWorld h q m limit κ w)
    (incoming : Kept h q m limit κ w.context x) (received : Received o w x stored c) :
    ∃ κ', κ.consts ⊆ κ'.consts ∧ w.context.Before c ∧ Accounts h.still κ' c ∧
      Kept h q m limit κ' c stored := by
  cases received with
  | first => exact ⟨κ, fun _ hk => hk, .refl _, sound.accounts, incoming⟩
  | @merged previous _ _ found merge =>
    have earlier := sound.kept _ _ found
    obtain ⟨merging, node, same, stack⟩ := ExecState.merge_ok merge
    obtain ⟨l, ts, M, mergeOf⟩ := SymState.merge_ok merging
    obtain ⟨κ', sub, accounts, before, typed⟩ :=
      mergeOf.typed h.still_still earlier.typed incoming.typed sound.accounts
    refine ⟨κ', sub, before, accounts, ⟨?_, ?_⟩, typed, ?_⟩
    · rw [node]
      exact earlier.within.method
    · rw [stack]
      exact earlier.within.outermost
    · exact earlier.covers.merge incoming.covers (earlier.typed.mono h.still_still sub)
        (incoming.typed.mono h.still_still sub) typed before mergeOf node same

theorem receive (sound : SoundWorld h q m limit κ s.world)
    (incoming : Kept h q m limit κ s.world.context x)
    (run : (Searching.receive o first x).run.run s = (.ok (), s')) :
    ∃ κ', κ.consts ⊆ κ'.consts ∧ s.world.context.Before s'.world.context ∧
      SoundWorld h q m limit κ' s'.world := by
  obtain ⟨stored, c, calls, received, keep, world, -, -⟩ := Searching.receive_ok run
  obtain ⟨κ', sub, before, accounts, kept⟩ := sound.received incoming received
  rw [world]
  refine ⟨κ', sub, before, sound.uniform.keep keep, accounts, fun n y found => ?_⟩
  rw [Instances.data?_keep keep] at found
  split at found
  · cases found
    exact kept
  · exact (sound.kept n y found).mono sub before

theorem receives {xs : List ExecState} (sound : SoundWorld h q m limit κ s.world)
    (incoming : ∀ x ∈ xs, Kept h q m limit κ s.world.context x)
    (run : Searching.Receives o first xs s s') : ∃ κ', SoundWorld h q m limit κ' s'.world := by
  induction run generalizing κ with
  | nil s => exact ⟨κ, sound⟩
  | cons head _ ih =>
    obtain ⟨hx, hxs⟩ := List.forall_mem_cons.1 incoming
    obtain ⟨κ', sub, before, sound'⟩ := sound.receive hx head
    exact ih sound' fun y hy => (hxs y hy).mono sub before

/-- What follows a kept state is well-typed and covered. -/
theorem next {fs : List ExecState} (sound : SoundWorld h q m limit κ w)
    (inMethod : ∀ e ∈ q.path.entries, e.method = m) (body : q.body m = .ok b)
    (never : NeverFails q m limit) (kept : Kept h q m limit κ w.context x)
    (notSink : q.path.isSink x.node.method x.node.instr = false)
    (next : (x.next q limit).run.run w = (.ok fs, w₁)) :
    ∃ κ', SoundWorld h q m limit κ' w₁ ∧ ∀ f ∈ fs, Kept h q m limit κ' w₁.context f := by
  obtain ⟨κ', sub, accounts, before, uniform, following⟩ := next_typed h.still_still inMethod body
    (fun i hi => h.regular _ hi) kept.within sound.uniform sound.accounts kept.typed next
  have covers := kept.covers.next inMethod body never kept.within sound.uniform notSink next
  refine ⟨κ', ⟨uniform, accounts, fun n y found => ?_⟩, fun f hf => ?_⟩
  · have body' : q.body x.node.method = .ok b := by rw [kept.within.method, body]
    exact (sound.kept n y (ExecState.next_data? body' h.call_none kept.within.outermost next found)).mono
      sub before
  · obtain ⟨within, typed, more⟩ := following f hf
    exact ⟨within, typed, covers f hf more⟩

theorem steps (sound : SoundWorld h t.query m t.limit κ s.world)
    (inMethod : ∀ e ∈ t.query.path.entries, e.method = m) (body : t.query.body m = .ok b)
    (never : NeverFails t.query m t.limit) (steps : Search.Steps t s s') :
    ∃ κ', SoundWorld h t.query m t.limit κ' s'.world := by
  cases steps with
  | skip => exact ⟨κ, sound⟩
  | expand _ _ found notSink _ next receives =>
    have kept := sound.kept _ _ found
    obtain ⟨κ', sound', following⟩ := sound.next inMethod body never kept notSink next
    exact sound'.receives following receives

/-- The search starts with the initial state, which needs no cover but itself. -/
theorem start (run : Search.start t m = .ok s) : SoundWorld h t.query m t.limit .empty s.world := by
  obtain ⟨entry, calls, calls', enter, keep, rfl⟩ := Search.start_ok run
  obtain ⟨g, graph, rfl, rfl⟩ := Instances.enter_ok enter
  have uniform : (Instances.empty.withNew m g : Instances ExecState).Uniform t.query m :=
    Instances.Uniform.empty.withNew graph
  refine ⟨uniform.keep keep, .empty _, fun n x found => ?_⟩
  rw [Instances.data?_keep keep] at found
  split at found
  · cases found
    refine ⟨⟨rfl, rfl⟩, .initial _ _, fun ρ _ _ => ⟨.empty, _, _, .start enter, ?_⟩⟩
    exact {
      instr := rfl
      within := ⟨rfl, rfl⟩
      uniform := uniform
      memory := .empty _ _
      tidy := (Accounts.empty _).tidy
      credible := fun _ _ alone => nomatch alone.1
      known := fun _ h => nomatch h
      models := fun _ _ _ => Valuation.models_nil }
  · cases Instances.data?_withNew g found

end SoundWorld
end SinkReach
