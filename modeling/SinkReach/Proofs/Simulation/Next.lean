import SinkReach.Proofs.Route.Instances
import SinkReach.Proofs.Simulation.Effect
import SinkReach.Proofs.Step.Gathering
import SinkReach.Proofs.Term.Models

/-!
Steps of two runs from twin states lead to twin states, node by node.
-/
namespace SinkReach

variable {S : Scene} {κ κ' : Links} {c c' d d' : Context} {s s' t t' : SymState} {M M' : Machine}

/-- Twin conditions hold together. -/
theorem Plain.models_iff {ts ts' : List Term} (h : List.Forall₂ (Plain S κ .bool) ts ts') {E : Bridge}
    (hE : S.bridges E) (respects : E.Respects κ) : E.left.Models ts ↔ E.right.Models ts' := by
  induction h with
  | nil => exact Iff.intro (fun _ _ h => nomatch h) (fun _ _ h => nomatch h)
  | cons head _ ih =>
    obtain ⟨v, hv, hv'⟩ := head.1.value_eq hE respects
    rw [Valuation.models_cons, Valuation.models_cons, hv, hv', ih]

/-- The term is a condition on known constants. -/
def KnownCondition (S : Scene) (κ : Links) (t : Term) : Prop :=
  t.IsCondition ∧ ∀ x ∈ t.vars, S.Names κ x

theorem KnownCondition.mono {t : Term} (h : KnownCondition S κ t) (le : κ ≤ κ') :
    KnownCondition S κ' t := ⟨h.1, fun x hx => (h.2 x hx).mono le⟩

theorem Plain.known {a a' : Term} (h : Plain S κ .bool a a') : KnownCondition S κ a' :=
  ⟨⟨h.sort', h.1.sorted'⟩, h.1.named⟩

theorem Plain.known_of_mem {ts ts' : List Term} (h : List.Forall₂ (Plain S κ .bool) ts ts') :
    ∀ t ∈ ts', KnownCondition S κ t := by
  induction h with
  | nil => exact fun _ h => nomatch h
  | cons head _ ih => exact List.forall_mem_cons.2 ⟨head.known, ih⟩

/-- States that come of twin states by corresponding effects. -/
structure Follows (S : Scene) (κ : Links) (c c' : Context) (s s' t t' : SymState) : Prop where
  memory : TwinMemory S κ t.memory t'.memory
  tidy : Tidy S κ c c' t.nextAddress t'.nextAddress
  conditions : ∃ ts ts', t.constraints = s.constraints ++ ts ∧ t'.constraints = s'.constraints ++ ts' ∧
    (∀ t ∈ ts', KnownCondition S κ t) ∧
    ∀ E, S.bridges E → E.Respects κ → (E.left.Models ts ↔ E.right.Models ts')
  unmatched : ∀ id v, TwinMemory.Unmatched t.memory t'.memory id v →
    TwinMemory.Unmatched s.memory s'.memory id v

theorem Tidy.raise {n n' k k' : Nat} (h : Tidy S κ c c' n n') (le : n ≤ k) (le' : n' ≤ k')
    (behind : k' ≤ k) : Tidy S κ c c' k k' :=
  { h with
    behind := behind
    objects := fun o ho => by
      have := h.objects o ho
      omega
    positive := by
      have := h.positive
      omega }

/-- Addresses that a machine has reserved are reserved by its updates, wherever these are performed. -/
theorem reserved_le {n : Nat} {us : List Update} (reserved : n = s.nextAddress ∨ .allocate n ∈ us)
    (le : s.nextAddress ≤ t.nextAddress) (l : Label) : n ≤ (t.updateAll l us).nextAddress := by
  rcases reserved with same | reserved
  · exact Nat.le_trans (same ▸ le) (SymState.nextAddress_le_updateAll ..)
  · exact SymState.le_nextAddress_of_allocate reserved

/-- Twin updates are performed. -/
theorem Follows.updateAll {n n' : Nat} {us us' : List Update} (memory : TwinMemory S κ s.memory s'.memory)
    (tidy : Tidy S κ c c' n n') (twins : List.Forall₂ (TwinUpdate S κ) us us')
    (reserved : n = s.nextAddress ∨ .allocate n ∈ us)
    (reserved' : n' = s'.nextAddress ∨ .allocate n' ∈ us') (behind : s'.nextAddress ≤ s.nextAddress)
    (l l' : Label) : Follows S κ c c' s s' (s.updateAll l us) (s'.updateAll l' us') where
  memory := memory.updateAll twins
  tidy := tidy.raise (reserved_le reserved (Nat.le_refl _) l) (reserved_le reserved' (Nat.le_refl _) l')
    (TwinUpdate.nextAddress_le twins behind)
  conditions := ⟨_, _, SymState.constraints_updateAll .., SymState.constraints_updateAll ..,
    Plain.known_of_mem (TwinUpdate.conditions twins), fun _ hE respects => Plain.models_iff (TwinUpdate.conditions twins) hE respects⟩
  unmatched := fun _ _ alone => TwinMemory.unmatched_updateAll twins alone

theorem Meets.follows (h : Meets S κ s s' M M' c c') (l l' : Label) :
    Follows S κ c c' s s' (s.updateAll l M.pending) (s'.updateAll l' M'.pending) :=
  .updateAll h.memory h.tidy h.pending h.reserved h.reserved' h.behind l l'

theorem Follows.relabel (h : Follows S κ c c' s s' t t') (x x' : Nat) :
    Follows S κ { c with labels := x } { c' with labels := x' } s s' t t' :=
  { h with tidy := h.tidy.relabel x x' }

theorem Follows.assume (h : Follows S κ c c' s s' t t') {a a' : Term} (plain : Plain S κ .bool a a') :
    Follows S κ c c' s s' (t.assume a) (t'.assume a') where
  memory := h.memory
  tidy := h.tidy
  conditions := by
    obtain ⟨ts, ts', eq, eq', known, models⟩ := h.conditions
    refine ⟨ts ++ [a], ts' ++ [a'], ?_, ?_, ?_, fun E hE respects => ?_⟩
    · rw [SymState.assume, eq, List.append_assoc]
    · rw [SymState.assume, eq', List.append_assoc]
    · exact List.forall_mem_append.2 ⟨known, List.forall_mem_singleton.2 plain.known⟩
    · rw [Valuation.models_append, Valuation.models_append, models E hE respects,
        Plain.models_iff (.cons plain .nil) hE respects]
  unmatched := h.unmatched

/-- States that follow twin states at one instruction. -/
structure Successor (S : Scene) (κ : Links) (c c' : Context) (m : Method) (s s' f f' : ExecState) :
    Prop where
  instr : f'.node.instr = f.node.instr
  within : f.Within m
  within' : f'.Within m
  follows : Follows S κ c c' s.symbolic s'.symbolic f.symbolic f'.symbolic

section Steps

variable {q : Query} {m : Method} {limit : Nat} {b : Body} {w w' w₁ w₁' : World} {e e' : Effect}
  {x x' : ExecState} {fs fs' : List ExecState}

/-- Two steps lead to twin states, under links that both contexts account for. -/
structure Arrives (S : Scene) (κ : Links) (q : Query) (m : Method) (w₁ w₁' : World) (x x' : ExecState)
    (fs fs' : List ExecState) : Prop where
  twins : List.Forall₂ (Successor S κ w₁.context w₁'.context m x x') fs fs'
  tidy : ∃ n n', Tidy S κ w₁.context w₁'.context n n'
  uniform : w₁.calls.Uniform q m
  uniform' : w₁'.calls.Uniform q m

theorem forall₂_map {α β γ : Type} {R : β → γ → Prop} {f : α → β} {g : α → γ} (xs : List α)
    (h : ∀ a ∈ xs, R (f a) (g a)) : List.Forall₂ R (xs.map f) (xs.map g) := by
  rw [List.forall₂_map_left_iff, List.forall₂_map_right_iff, List.forall₂_same]
  exact h

/-- Both runs go on to the same instructions. -/
theorem successors_twin (uniform : w.calls.Uniform q m) (uniform' : w'.calls.Uniform q m)
    (instr : x'.node.instr = x.node.instr) {ns ns' : List Node}
    (found : w.calls.successors x.node = .ok ns) (found' : w'.calls.successors x'.node = .ok ns') :
    ∃ js : List InstrId, ns = js.map x.node.withInstr ∧ ns' = js.map x'.node.withInstr := by
  obtain ⟨g, graph, rfl⟩ := uniform.successors found
  obtain ⟨g', graph', rfl⟩ := uniform'.successors found'
  cases graph.symm.trans graph'
  exact ⟨g.successors x.node.instr, rfl, by rw [instr]⟩

theorem advance_twin (within : x.Within m) (within' : x'.Within m) (j : InstrId)
    (follows : Follows S κ c c' x.symbolic x'.symbolic t t') :
    Successor S κ c c' m x x' (x.advance (x.node.withInstr j) t)
      (x'.advance (x'.node.withInstr j) t') where
  instr := rfl
  within := ⟨within.method, within.outermost⟩
  within' := ⟨within'.method, within'.outermost⟩
  follows := follows

/-- Conditions of the cases that lead to an instruction are twins. -/
theorem casesAt_twin {cs cs' : List (Term × InstrId)}
    (h : List.Forall₂ (fun x x' => Plain S κ .bool x.1 x'.1 ∧ x.2 = x'.2) cs cs') (j : InstrId) :
    List.Forall₂ (Plain S κ .bool) ((ExecState.casesAt cs j).map (·.1))
      ((ExecState.casesAt cs' j).map (·.1)) := by
  unfold ExecState.casesAt
  induction h with
  | nil => exact .nil
  | cons head _ ih =>
    rw [List.filter_cons, List.filter_cons, head.2]
    split
    · exact .cons head.1 ih
    · exact ih

theorem afterSwitch_twin {cs cs' : List (Term × InstrId)} (within : x.Within m) (within' : x'.Within m)
    (h : List.Forall₂ (fun x x' => Plain S κ .bool x.1 x'.1 ∧ x.2 = x'.2) cs cs')
    (follows : Follows S κ c c' x.symbolic x'.symbolic t t') (js : List InstrId)
    (after : ExecState.AfterSwitch x t cs (js.map x.node.withInstr) fs)
    (after' : ExecState.AfterSwitch x' t' cs' (js.map x'.node.withInstr) fs') :
    List.Forall₂ (Successor S κ c c' m x x') fs fs' := by
  induction js generalizing fs fs' with
  | nil =>
    cases after
    cases after'
    exact .nil
  | cons j js ih =>
    cases after with
    | cons l _ rest =>
      cases after' with
      | cons l' _ rest' =>
        have condition := Twin.join (l := l) (d := l') (o := .or) (casesAt_twin h j)
        exact .cons (advance_twin within within' j (follows.assume condition)) (ih rest rest')

/-- Unknown values for the locals of a method are twins. -/
theorem Agree.resumed (body : Body) : Agree S κ s s' (ExecState.resumed m body)
    (ExecState.resumed m body)
    fun κ₁ => List.Forall₂ fun b b' => b'.1 = b.1 ∧ TwinOf S b.1.ty κ₁ b.2 b'.2 := by
  refine mapM (fun _ _ _ _ le twin => ⟨twin.1, twin.2.1, twin.2.2.mono le⟩) body.locals
    fun l _ κ₁ _ => ?_
  exact (unknown _).bind fun κ₂ _ v v' twin => pure ⟨rfl, twin⟩

/-- States that forget the locals of a method and bind them anew. -/
theorem Follows.rebind (h : Follows S κ c c' s s' t t') (method : Method)
    {bs bs' : List (LocalId × SymValue)} (le : κ ≤ κ')
    (high : s.nextAddress ≤ t.nextAddress) (high' : s'.nextAddress ≤ t'.nextAddress)
    (twins : List.Forall₂ (fun b b' => b'.1 = b.1 ∧ TwinOf S b.1.ty κ' b.2 b'.2) bs bs')
    (meets : Meets S κ' s s' M M' d d') (l l' : Label) :
    Follows S κ' d d' s s'
      ((t.withMemory ((t.memory.withoutLocalsOf method).bindAll bs)).updateAll l M.pending)
      ((t'.withMemory ((t'.memory.withoutLocalsOf method).bindAll bs')).updateAll l' M'.pending) where
  memory := (((h.memory.mono le).withoutLocalsOf method).bindAll twins).updateAll meets.pending
  tidy := meets.tidy.raise
    (reserved_le (t := t.withMemory ((t.memory.withoutLocalsOf method).bindAll bs)) meets.reserved high l)
    (reserved_le (t := t'.withMemory ((t'.memory.withoutLocalsOf method).bindAll bs')) meets.reserved'
      high' l')
    (TwinUpdate.nextAddress_le meets.pending h.tidy.behind)
  conditions := by
    obtain ⟨ts, ts', eq, eq', known, models⟩ := h.conditions
    refine ⟨ts ++ Update.conditions M.pending, ts' ++ Update.conditions M'.pending, ?_, ?_, ?_,
      fun E hE respects => ?_⟩
    · rw [SymState.constraints_updateAll, SymState.withMemory, eq, List.append_assoc]
    · rw [SymState.constraints_updateAll, SymState.withMemory, eq', List.append_assoc]
    · exact List.forall_mem_append.2 ⟨fun t ht => (known t ht).mono le,
        Plain.known_of_mem (TwinUpdate.conditions meets.pending)⟩
    · rw [Valuation.models_append, Valuation.models_append, models E hE (respects.mono le),
        Plain.models_iff (TwinUpdate.conditions meets.pending) hE respects]
  unmatched := fun id v alone => by
    have rebound := TwinMemory.unmatched_updateAll meets.pending alone
    have dropped := TwinMemory.unmatched_bindAll (twins.imp fun _ _ twin => twin.1) rebound
    exact h.unmatched id v (TwinMemory.unmatched_withoutLocalsOf dropped)

/-- Returns along the path resume at one call site. -/
theorem returnAlongPath_twin (inMethod : ∀ e ∈ q.path.entries, e.method = m)
    (within : x.Within m) (within' : x'.Within m) (instr : x'.node.instr = x.node.instr)
    (uniform : w.calls.Uniform q m) (uniform' : w'.calls.Uniform q m)
    (memory : TwinMemory S κ x.symbolic.memory x'.symbolic.memory)
    (tidy : Tidy S κ w.context w'.context x.symbolic.nextAddress x'.symbolic.nextAddress)
    {us us' : List Update} (twins : List.Forall₂ (TwinUpdate S κ) us us')
    (h : (x.returnAlongPath q us).run.run w = (.ok fs, w₁))
    (h' : (x'.returnAlongPath q us').run.run w' = (.ok fs', w₁')) :
    ∃ κ₁, κ ≤ κ₁ ∧ w.context.Before w₁.context ∧ Arrives S κ₁ q m w₁ w₁' x x' fs fs' := by
  obtain ⟨site, calls, body, bs, M, d, resume, found, run, l₁, l₂, x₁, rfl, rfl⟩ :=
    ExecState.returnAlongPath_ok h
  obtain ⟨site', calls', body', bs', M', d', resume', found', run', l₁', l₂', x₁', rfl, rfl⟩ :=
    ExecState.returnAlongPath_ok h'
  obtain ⟨i, m₁, g, return₁, graph, rfl, rfl⟩ := Instances.resume_ok resume
  obtain ⟨i', m₁', g', return₁', graph', rfl, rfl⟩ := Instances.resume_ok resume'
  have same := Instances.returnSite_congr (within.method.trans within'.method.symm) instr.symm return₁
  cases same.symm.trans return₁'
  obtain rfl := Instances.returnSite_method inMethod return₁
  cases found.symm.trans found'
  obtain ⟨κ₁, le, before, bindings, meets⟩ :=
    (Agree.resumed body).run (Meets.start memory tidy) run run'
  have performed := Follows.updateAll memory tidy twins (.inl rfl) (.inl rfl) tidy.behind l₁ l₁'
  refine ⟨κ₁, le, ⟨before.locals, before.unbounded, before.registry⟩,
    .cons ⟨rfl, ⟨rfl, rfl⟩, ⟨rfl, rfl⟩, ?_⟩ .nil, ⟨_, _, meets.tidy.relabel ..⟩,
    uniform.withNew graph, uniform'.withNew graph'⟩
  rw [within.method, within'.method]
  exact (performed.rebind _ le (SymState.nextAddress_le_updateAll ..)
    (SymState.nextAddress_le_updateAll ..) bindings meets l₂ l₂').relabel ..

theorem constant_nextAddress {k : Constant} {M M₁ : Machine} {v : SymValue}
    (h : (Machine.constant k).Yields M c v M₁ d) : M₁.nextAddress = M.nextAddress := by
  unfold Machine.constant at h
  obtain ⟨l, _, _, label, h⟩ := Run.yields_bind.1 h
  obtain ⟨rfl, rfl, rfl⟩ := Run.yields_freshLabel.1 label
  cases k with
  | int | long | float | double | null =>
    obtain ⟨rfl, rfl, rfl⟩ := Run.yields_pure.1 h
    rfl
  | string | classLiteral =>
    obtain ⟨_, _, _, fresh, h⟩ := Run.yields_bind.1 h
    obtain ⟨rfl, rfl, rfl⟩ := Run.yields_context.1 fresh
    obtain ⟨_, _, _, typed, h⟩ := Run.yields_bind.1 h
    obtain ⟨rfl, rfl, rfl⟩ := Run.yields_context.1 typed
    obtain ⟨_, _, _, emit, h⟩ := Run.yields_bind.1 h
    obtain ⟨rfl, rfl⟩ := Run.yields_modify.1 emit
    obtain ⟨rfl, rfl, rfl⟩ := Run.yields_pure.1 h
    rfl

/-- A return reserves no address. -/
theorem ret_nextAddress {i : Instruction} {v : SymValue} (callFree : i.call? = none) {M M₁ : Machine}
    (h : (Effect.ofInstruction m i).Yields M c (.ret v) M₁ d) : M₁.nextAddress = M.nextAddress := by
  have out : i.way = .out := (Option.some.inj (Effect.ofInstruction_way callFree h)).symm
  cases i with
  | ret value =>
    obtain ⟨_, _, _, operand, h⟩ := Run.yields_bind.1 h
    obtain ⟨-, rfl, rfl⟩ := Run.yields_pure.1 h
    cases value with
    | loc l => rw [Effect.machine_of_ofLocal operand]
    | const k => exact constant_nextAddress operand
  | retVoid =>
    obtain ⟨_, _, _, label, h⟩ := Run.yields_bind.1 h
    obtain ⟨rfl, rfl, rfl⟩ := Run.yields_freshLabel.1 label
    obtain ⟨-, rfl, rfl⟩ := Run.yields_pure.1 h
    rfl
  | assign | identity | branch | switch | invoke | throw | goto | nop | monitor => cases out

theorem afterParameter_twin {id : LocalId} {us us' : List Update} (within : x.Within m)
    (within' : x'.Within m) (instr : x'.node.instr = x.node.instr) (uniform : w.calls.Uniform q m)
    (uniform' : w'.calls.Uniform q m)
    (follows : ∀ l l', Follows S κ w.context w'.context x.symbolic x'.symbolic
      (x.symbolic.updateAll l us) (x'.symbolic.updateAll l' us'))
    (h : (x.afterParameter us id).run.run w = (.ok fs, w₁))
    (h' : (x'.afterParameter us' id).run.run w' = (.ok fs', w₁')) :
    w.context.Before w₁.context ∧ Arrives S κ q m w₁ w₁' x x' fs fs' := by
  obtain ⟨v, n, -, first, rfl, rfl⟩ := ExecState.afterParameter_ok h
  obtain ⟨v', n', -, first', rfl, rfl⟩ := ExecState.afterParameter_ok h'
  obtain ⟨ns, found, rfl⟩ := Instances.first?_ok first
  obtain ⟨ns', found', rfl⟩ := Instances.first?_ok first'
  obtain ⟨js, rfl, rfl⟩ := successors_twin uniform uniform' instr found found'
  refine ⟨.relabel .., ?_, ⟨_, _, (follows 0 0).tidy.relabel ..⟩, uniform, uniform'⟩
  cases js with
  | nil => exact .nil
  | cons j js =>
    refine .cons ⟨rfl, ⟨within.method, within.outermost⟩, ⟨within'.method, within'.outermost⟩, ?_⟩ .nil
    exact (follows ..).relabel ..

theorem proceed_twin (inMethod : ∀ e ∈ q.path.entries, e.method = m)
    (within : x.Within m) (within' : x'.Within m) (instr : x'.node.instr = x.node.instr)
    (uniform : w.calls.Uniform q m) (uniform' : w'.calls.Uniform q m) (effects : TwinEffect S κ e e')
    (meets : Meets S κ x.symbolic x'.symbolic M M' w.context w'.context)
    (unreserved : ∀ v, e = .ret v →
      M.nextAddress = x.symbolic.nextAddress ∧ M'.nextAddress = x'.symbolic.nextAddress)
    (h : (x.proceed q limit b M.pending e).run.run w = (.ok fs, w₁))
    (h' : (x'.proceed q limit b M'.pending e').run.run w' = (.ok fs', w₁')) :
    ∃ κ₁, κ ≤ κ₁ ∧ w.context.Before w₁.context ∧ Arrives S κ₁ q m w₁ w₁' x x' fs fs' := by
  have performed := meets.follows w.context.labels w'.context.labels
  cases effects with
  | goOn =>
    obtain ⟨t, v, perform, h⟩ := run_bind_ok.1 h
    obtain ⟨rfl, rfl⟩ := Explore.perform_ok.1 perform
    obtain ⟨ns, found, rfl, rfl⟩ := ExecState.toAll_ok h
    obtain ⟨t', v', perform', h'⟩ := run_bind_ok.1 h'
    obtain ⟨rfl, rfl⟩ := Explore.perform_ok.1 perform'
    obtain ⟨ns', found', rfl, rfl⟩ := ExecState.toAll_ok h'
    obtain ⟨js, rfl, rfl⟩ := successors_twin uniform uniform' instr found found'
    rw [List.map_map, List.map_map]
    refine ⟨κ, κ.le_refl, .relabel .., forall₂_map js fun j _ => ?_,
      ⟨_, _, performed.tidy.relabel ..⟩, uniform, uniform'⟩
    exact advance_twin within within' j (performed.relabel ..)
  | parameter =>
    exact ⟨κ, κ.le_refl, afterParameter_twin within within' instr uniform uniform' meets.follows h h'⟩
  | @branch _ _ _ _ target onTrue onFalse =>
    obtain ⟨ns, found, rfl, rfl⟩ := ExecState.afterBranch_ok h
    obtain ⟨ns', found', rfl, rfl⟩ := ExecState.afterBranch_ok h'
    obtain ⟨js, rfl, rfl⟩ := successors_twin uniform uniform' instr found found'
    rw [List.map_map, List.map_map]
    refine ⟨κ, κ.le_refl, .relabel .., forall₂_map js fun j _ => ?_,
      ⟨_, _, performed.tidy.relabel ..⟩, uniform, uniform'⟩
    refine advance_twin within within' j ?_
    rw [instr]
    split
    · exact performed.relabel ..
    · refine (performed.relabel ..).assume ?_
      change Plain S κ .bool (if j = target then _ else _) (if j = target then _ else _)
      split
      · exact onTrue
      · exact onFalse
  | switch cases =>
    obtain ⟨ns, labels, found, rfl, after⟩ := ExecState.afterSwitch_ok h
    obtain ⟨ns', labels', found', rfl, after'⟩ := ExecState.afterSwitch_ok h'
    obtain ⟨js, rfl, rfl⟩ := successors_twin uniform uniform' instr found found'
    exact ⟨κ, κ.le_refl, .relabel ..,
      afterSwitch_twin within within' cases (performed.relabel ..) js after after',
      ⟨_, _, performed.tidy.relabel ..⟩, uniform, uniform'⟩
  | @ret v v' =>
    simp only [ExecState.proceed, within.outermost, within'.outermost, List.isEmpty_nil, if_true] at h h'
    obtain ⟨next, next'⟩ := unreserved v rfl
    have tidy := meets.tidy
    rw [next, next'] at tidy
    exact returnAlongPath_twin inMethod within within' instr uniform uniform' meets.memory tidy
      meets.pending h h'

/-- A declaration binds its local unless it is bound. -/
theorem yields_identity {l : Local} {source : IdentitySource} {s : SymState}
    (h : (Effect.ofInstruction m (.identity l source)).Yields (.start s) c e M d) :
    e = .parameter (.ofLocal m l) ∧
      ((∃ v, s.memory.local? (.ofLocal m l) = some v ∧ M = .start s ∧ d = c) ∨
        s.memory.local? (.ofLocal m l) = none ∧
          ∃ v, (Machine.declare (.ofLocal m l)).Yields (.start s) c v M d) := by
  unfold Effect.ofInstruction Machine.local? at h
  obtain ⟨o, _, _, look, h⟩ := Run.yields_bind.1 h
  obtain ⟨_, _, _, get, look⟩ := Run.yields_bind.1 look
  obtain ⟨rfl, rfl, rfl⟩ := Run.yields_get.1 get
  obtain ⟨rfl, rfl, rfl⟩ := Run.yields_pure.1 look
  change (if (s.memory.local? (.ofLocal m l)).isNone then _ else _ : Run Effect).Yields .. at h
  cases known : s.memory.local? (.ofLocal m l) with
  | some v =>
    simp only [known, Option.isNone_some, Bool.false_eq_true, if_false] at h
    obtain ⟨rfl, rfl, rfl⟩ := Run.yields_pure.1 h
    exact ⟨rfl, .inl ⟨v, rfl, rfl, rfl⟩⟩
  | none =>
    simp only [known, Option.isNone_none, if_true] at h
    obtain ⟨_, _, _, discarded, h⟩ := Run.yields_bind.1 h
    obtain ⟨v, _, _, declare, discarded⟩ := Run.yields_bind.1 discarded
    obtain ⟨-, rfl, rfl⟩ := Run.yields_pure.1 discarded
    obtain ⟨rfl, rfl, rfl⟩ := Run.yields_pure.1 h
    exact ⟨rfl, .inr ⟨rfl, v, declare⟩⟩

theorem Agree.declare (id : LocalId) :
    Agree S κ s s' (Machine.declare id) (Machine.declare id) (TwinOf S id.ty) :=
  (unknown id.ty).bind fun _ _ _ _ twin => (emit (.bind twin.1 twin.2)).bind
    fun _ le _ _ _ => pure ⟨twin.1, twin.2.mono le⟩

/-- Only the left run has bound the local that is declared; the right run catches up. -/
def CatchesUp (S : Scene) (κ : Links) (c c' : Context) (s s' : SymState) (id : LocalId) : Prop :=
  ∀ v, TwinMemory.Unmatched s.memory s'.memory id v → ∀ v' M' d',
    (Machine.declare id).Yields (.start s') c' v' M' d' →
    ∃ κ₁, κ ≤ κ₁ ∧ ∀ l, Follows S κ₁ c d' s s' s (s'.updateAll l M'.pending)

/-- Two runs at one instruction go on to twin states. -/
theorem next_twin (inMethod : ∀ e ∈ q.path.entries, e.method = m) (body : q.body m = .ok b)
    (regular : ∀ i ∈ b.instructions, i.Regular S) (within : x.Within m) (within' : x'.Within m)
    (instr : x'.node.instr = x.node.instr) (uniform : w.calls.Uniform q m)
    (uniform' : w'.calls.Uniform q m)
    (memory : TwinMemory S κ x.symbolic.memory x'.symbolic.memory)
    (tidy : Tidy S κ w.context w'.context x.symbolic.nextAddress x'.symbolic.nextAddress)
    (declares : ∀ id, CatchesUp S κ w.context w'.context x.symbolic x'.symbolic id)
    (h : (x.next q limit).run.run w = (.ok fs, w₁)) (h' : (x'.next q limit).run.run w' = (.ok fs', w₁')) :
    ∃ κ₁, κ ≤ κ₁ ∧ w.context.Before w₁.context ∧ Arrives S κ₁ q m w₁ w₁' x x' fs fs' := by
  obtain ⟨b₁, i, e, M, c, body₁, found, run, h⟩ := ExecState.next_ok h
  obtain ⟨b₁', i', e', M', c', body₁', found', run', h'⟩ := ExecState.next_ok h'
  rw [within.method] at body₁ run
  rw [within'.method] at body₁' run'
  cases body.symm.trans body₁
  cases body.symm.trans body₁'
  rw [instr] at found'
  cases found.symm.trans found'
  have hi := regular i (List.mem_of_getElem? found)
  have start := Meets.start memory tidy
  -- Whatever the instruction, its effects decide the nodes that follow.
  have onward : ∀ κ₁, κ ≤ κ₁ → w.context.Before c → TwinEffect S κ₁ e e' →
      Meets S κ₁ x.symbolic x'.symbolic M M' c c' →
      ∃ κ₁, κ ≤ κ₁ ∧ w.context.Before w₁.context ∧ Arrives S κ₁ q m w₁ w₁' x x' fs fs' := by
    intro κ₁ le before effects meets
    have unreserved : ∀ v, e = .ret v →
        M.nextAddress = x.symbolic.nextAddress ∧ M'.nextAddress = x'.symbolic.nextAddress := by
      rintro v rfl
      cases effects with
      | ret => exact ⟨ret_nextAddress hi.callFree run, ret_nextAddress hi.callFree run'⟩
    have uniform₁ : (w.withContext c).calls.Uniform q m := uniform
    have uniform₁' : (w'.withContext c').calls.Uniform q m := uniform'
    obtain ⟨κ₂, le', before', arrives⟩ := proceed_twin inMethod within within' instr uniform₁ uniform₁'
      effects meets unreserved h h'
    exact ⟨κ₂, Links.le_trans le le', before.trans before', arrives⟩
  cases i with
  | identity l source =>
    obtain ⟨rfl, bound⟩ := yields_identity run
    obtain ⟨rfl, bound'⟩ := yields_identity run'
    rcases bound with ⟨v, known, rfl, rfl⟩ | ⟨unknown, v, declared⟩
    · rcases bound' with ⟨v', known', rfl, rfl⟩ | ⟨unknown', v', declared'⟩
      · exact onward κ κ.le_refl (.refl _) .parameter start
      · obtain ⟨κ₁, le, follows⟩ := declares _ v ⟨known, unknown'⟩ v' M' c' declared'
        have performed : ∀ l l', Follows S κ₁ w.context c' x.symbolic x'.symbolic
            (x.symbolic.updateAll l []) (x'.symbolic.updateAll l' M'.pending) := fun _ l' => follows l'
        have uniform₁' : (w'.withContext c').calls.Uniform q m := uniform'
        exact ⟨κ₁, le, afterParameter_twin within within' instr uniform uniform₁' performed h h'⟩
    · rcases bound' with ⟨v', known', -, -⟩ | ⟨unknown', v', declared'⟩
      · cases (memory.bound unknown).symm.trans known'
      · obtain ⟨κ₁, le, before, -, meets⟩ :=
          (Agree.declare (.ofLocal m l)).run start declared declared'
        exact onward κ₁ le before .parameter meets
  | _ =>
    obtain ⟨κ₁, le, before, effects, meets⟩ := (Agree.ofInstruction hi (by simp)).run start run run'
    exact onward κ₁ le before effects meets

end Steps
end SinkReach
