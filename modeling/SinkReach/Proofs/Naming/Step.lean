import SinkReach.Proofs.Naming.Machine
import SinkReach.Proofs.Step.Merge
import SinkReach.Proofs.Step.Following

/-!
Steps and merges take no names out of nowhere. What follows from a state, and what two states are merged
into, has constants that the context accounts for at that time.
-/
namespace SinkReach

open Run (Accounted)

variable {N N' : String → Prop} {c c' : Context}

namespace Effect

/-- Conditions and the values that are handed over have constants with names of a kind. -/
def Over (N : String → Prop) : Effect → Prop
  | goOn | parameter _ => True
  | branch onTrue onFalse _ => onTrue.Over N ∧ onFalse.Over N
  | switch cases => ∀ k ∈ cases, k.1.Over N
  | call _ arguments _ => ∀ v ∈ arguments, v.term.Over N
  | ret v => v.term.Over N

theorem accounted_ofLocal (m : Method) (l : Local) :
    Accounted c (ofLocal m l) fun c' v => v.term.Over c'.Accounts := by
  refine .bind (Machine.accounted_local? _) fun o c₁ _ names => ?_
  cases o with
  | none => exact .throw (.inl rfl)
  | some v => exact .pure fun c' le => (names v rfl).later le

theorem accounted_ofOperand (m : Method) (o : Operand) :
    Accounted c (ofOperand m o) fun c' v => v.term.Over c'.Accounts := by
  cases o with
  | loc l => exact accounted_ofLocal m l
  | const k => exact Machine.accounted_constant k

theorem accounted_ofRvalue (m : Method) (value : Rvalue) :
    Accounted c (ofRvalue m value) fun c' v => v.term.Over c'.Accounts := by
  cases value with
  | use o => exact accounted_ofOperand m o
  | binary op a b ty =>
    refine .bind (accounted_ofOperand m a) fun v c₁ _ hv => ?_
    exact .bind (accounted_ofOperand m b) fun w c₂ le hw => Machine.accounted_binary (hv.later le) hw
  | neg o => exact .bind (accounted_ofOperand m o) fun v c₁ _ hv => Machine.accounted_negate hv
  | cast o ty => exact .bind (accounted_ofOperand m o) fun v c₁ _ hv => Machine.accounted_cast hv ty
  | instanceOf => exact Machine.accounted_unknown .boolean
  | newArray element => exact Machine.accounted_unknown (.array element)
  | length => exact Machine.accounted_unknown .int
  | arrayElement _ _ ty => exact Machine.accounted_unknown ty
  | new ty => exact Machine.accounted_allocate ty
  | instanceField base f => exact .bind (accounted_ofLocal m base) fun v c₁ _ hv => Machine.accounted_readField hv f
  | staticField f => exact Machine.accounted_readStatic f
  | invoke => exact .throw (.inr (.inl rfl))

theorem accounted_assign (m : Method) (place : Place) (value : Rvalue) :
    Accounted c (assign m place (ofRvalue m value)) fun _ _ => True := by
  cases place with
  | loc l =>
    refine .bind (accounted_ofRvalue m value) fun v c₁ _ hv => ?_
    exact .bind (Machine.accounted_declaredAs hv _) fun w c₂ _ hw => Machine.accounted_bind hw
  | instanceField base f =>
    refine .bind (accounted_ofLocal m base) fun object c₁ _ ho => ?_
    exact .bind (accounted_ofRvalue m value) fun v c₂ le hv => Machine.accounted_writeField (ho.later le) hv f
  | staticField f => exact .bind (accounted_ofRvalue m value) fun v c₁ _ hv => Machine.accounted_writeStatic hv f
  | arrayElement => exact .bind (accounted_ofRvalue m value) fun _ _ _ _ => .pure fun _ _ => trivial

theorem accounted_arguments (m : Method) (i : Invoke) :
    Accounted c (arguments m i) fun c' vs => ∀ v ∈ vs, v.term.Over c'.Accounts := by
  have rest (c₁ : Context) (receiver : List SymValue) (names : ∀ v ∈ receiver, v.term.Over c₁.Accounts) :
      Accounted c₁ (do return receiver ++ (← i.args.mapM (ofOperand m)))
        fun c' vs => ∀ v ∈ vs, v.term.Over c'.Accounts := by
    refine .bind (.mapM (fun h le => h.later le) fun o _ c' _ => accounted_ofOperand m o) fun vs c₂ le hvs => ?_
    refine .pure fun c' le' => List.forall_mem_append.2 ⟨fun v mem => ?_, fun v mem => ?_⟩
    · exact (names v mem).later (le.trans le')
    · exact (hvs v mem).later le'
  simp only [arguments]
  split
  · cases i.base with
    | none =>
      refine .bind (P := fun _ _ => False) (.throw ?_) fun _ _ _ never => never.elim
      exact .inl rfl
    | some l =>
      simp only [pure_bind]
      exact .bind (accounted_ofLocal m l) fun v c₁ _ hv => rest c₁ [v] (List.forall_mem_singleton.2 hv)
  · simp only [pure_bind]
    exact rest c [] (List.forall_mem_nil _)

theorem accounted_keyTest {key : SymValue} (h : key.term.Over c.Accounts) (op : Operator) (n : Int) :
    Accounted c (keyTest key op n) fun c' t => t.Over c'.Accounts := by
  refine .bind (Machine.accounted_constant _) fun v c₁ le hv => ?_
  refine .bind (Machine.accounted_binary (h.later le) hv) fun r c₂ _ hr => ?_
  exact .lift fun c' le' => Machine.computes_condition (hr.later le')

theorem accounted_switchCases {key : SymValue} (h : key.term.Over c.Accounts) (table : SwitchTable) :
    Accounted c (switchCases key table) fun c' r => (∀ k ∈ r.1, k.1.Over c'.Accounts) ∧ r.2.Over c'.Accounts := by
  have hits (values : List Int) :
      Accounted c (keyHits key values) fun c' ts => ∀ t ∈ ts, t.Over c'.Accounts :=
    .mapM (fun h le => h.later le) fun n _ c' le => accounted_keyTest (h.later le) .eq n
  have zipped {c₁ c' : Context} {ts : List Term} (names : ∀ t ∈ ts, t.Over c₁.Accounts) (le : c₁.Before c')
      (targets : List InstrId) : ∀ k ∈ ts.zip targets, k.1.Over c'.Accounts :=
    fun k mem => (names k.1 (List.of_mem_zip mem).1).later le
  cases table with
  | table low high targets =>
    simp only [switchCases]
    split
    · exact .bind (P := fun _ _ => False) (.throw (.inl rfl)) fun _ _ _ never => never.elim
    · refine .bind (hits _) fun ts c₁ le₁ names => ?_
      refine .bind (accounted_keyTest (h.later le₁) .lt low) fun below c₂ le₂ hbelow => ?_
      refine .bind (accounted_keyTest (h.later (le₁.trans le₂)) .gt high) fun above c₃ le₃ habove => ?_
      refine .bind .freshLabel fun l c₄ le₄ _ => .pure fun c' le => ⟨?_, ?_⟩
      · exact zipped names (le₂.trans (le₃.trans (le₄.trans le))) targets
      · exact (hbelow.later (le₃.trans (le₄.trans le))).or (habove.later (le₄.trans le))
  | lookup values targets =>
    simp only [switchCases]
    split
    · exact .bind (P := fun _ _ => False) (.throw (.inl rfl)) fun _ _ _ never => never.elim
    · refine .bind (hits _) fun ts c₁ _ names => ?_
      refine .bind (P := fun _ _ => True) (.context fun c' => ⟨.relabel c' _, trivial⟩) fun l c₂ le _ => ?_
      refine .pure fun c' le' => ⟨zipped names (le.trans le') targets, .join fun t mem => ?_⟩
      obtain ⟨⟨u, i⟩, listed, rfl⟩ := List.mem_map.1 mem
      have hit := names u (List.mem_of_getElem? (List.mem_zipIdx_iff_getElem?.1 listed))
      exact (hit.later (le.trans le')).not

/-- Whatever an instruction does, its effect has constants that the context accounts for. -/
theorem accounted_ofInstruction (m : Method) (i : Instruction) :
    Accounted c (ofInstruction m i) fun c' e => e.Over c'.Accounts := by
  cases i with
  | assign place value =>
    by_cases call : ∃ k, value = .invoke k
    · obtain ⟨k, rfl⟩ := call
      cases place with
      | loc l => exact .bind (accounted_arguments m k) fun vs c₁ _ hvs => .pure fun c' le v mem => (hvs v mem).later le
      | instanceField | staticField | arrayElement => exact .throw (.inl rfl)
    · have same : ofInstruction m (.assign place value) = do
          assign m place (ofRvalue m value)
          return goOn := by
        cases place <;> cases value <;> first | rfl | exact absurd ⟨_, rfl⟩ call
      rw [same]
      exact .bind (accounted_assign m place value) fun _ _ _ _ => .pure fun _ _ => trivial
  | identity l source =>
    refine .bind (Machine.accounted_local? _) fun o c₁ _ _ => ?_
    cases o with
    | some v => exact .pure fun _ _ => trivial
    | none =>
      refine .bind (P := fun _ _ => True) ?_ fun _ _ _ _ => .pure fun _ _ => trivial
      exact .bind (Machine.accounted_declare (.ofLocal m l)) fun _ _ _ _ => .pure fun _ _ => trivial
  | branch condition target =>
    refine .bind (accounted_ofRvalue m condition) fun v c₁ _ hv => ?_
    refine .bind (.lift fun c' le => Machine.computes_condition (hv.later le)) fun onTrue c₂ _ isTrue => ?_
    refine .bind .freshLabel fun l c₃ le _ => .pure fun c' le' => ?_
    exact ⟨isTrue.later (le.trans le'), (isTrue.later (le.trans le')).not⟩
  | switch key table default =>
    refine .bind (accounted_ofOperand m key) fun v c₁ _ hv => ?_
    refine .bind (accounted_switchCases hv table) fun r c₂ _ hr => .pure fun c' le => ?_
    exact List.forall_mem_append.2 ⟨fun k mem => (hr.1 k mem).later le,
      List.forall_mem_singleton.2 (hr.2.later le)⟩
  | invoke k => exact .bind (accounted_arguments m k) fun vs c₁ _ hvs => .pure fun c' le v mem => (hvs v mem).later le
  | ret value => exact .bind (accounted_ofOperand m value) fun v c₁ _ hv => .pure fun c' le => hv.later le
  | retVoid => exact .bind .freshLabel fun l c₁ _ _ => .pure fun _ _ => .ofInt
  | throw | goto | nop | monitor => exact .pure fun _ _ => trivial

end Effect

section Bindings

theorem accounted_unknownResult (result : Option LocalId) :
    Accounted c (ExecState.unknownResult result) fun _ _ => True := by
  cases result with
  | none => exact .pure fun _ _ => trivial
  | some id => exact .bind (Machine.accounted_unknown id.ty) fun v c₁ _ names => Machine.accounted_bind names

theorem accounted_handedResult {v : SymValue} (h : v.term.Over c.Accounts) (result : Option LocalId) :
    Accounted c (ExecState.handedResult v result) fun _ _ => True := by
  cases result with
  | none => exact .pure fun _ _ => trivial
  | some id => exact .bind (Machine.accounted_declaredAs h id.ty) fun w c₁ _ names => Machine.accounted_bind names

/-- The values of bindings have constants that the context accounts for. -/
def AccountedBindings (c : Context) (bindings : List (LocalId × SymValue)) : Prop :=
  ∀ b ∈ bindings, b.2.term.Over c.Accounts

theorem AccountedBindings.cons {id : LocalId} {v : SymValue} {bs : List (LocalId × SymValue)} {c₁ c₂ : Context}
    (first : v.term.Over c.Accounts) (rest : AccountedBindings c₁ bs) (le : c.Before c₁) (le' : c₁.Before c₂) :
    AccountedBindings c₂ ((id, v) :: bs) :=
  List.forall_mem_cons.2 ⟨first.later (le.trans le'), fun b mem => (rest b mem).later le'⟩

theorem accounted_bindParameters (ids : List LocalId) {arguments : List SymValue}
    (h : ∀ v ∈ arguments, v.term.Over c.Accounts) :
    Accounted c (ExecState.bindParameters ids arguments) AccountedBindings := by
  induction ids generalizing c arguments with
  | nil => exact .pure fun _ _ _ mem => nomatch mem
  | cons id ids ih =>
    cases arguments with
    | nil =>
      refine .bind (Machine.accounted_unknown id.ty) fun v c₁ _ hv => ?_
      exact .bind (ih fun _ mem => nomatch mem) fun bs c₂ le hbs => .pure fun c' le' => .cons hv hbs le le'
    | cons a arguments =>
      obtain ⟨first, others⟩ := List.forall_mem_cons.1 h
      refine .bind (Machine.accounted_declaredAs first id.ty) fun v c₁ le hv => ?_
      refine .bind (ih fun v mem => (others v mem).later le) fun bs c₂ le' hbs => ?_
      exact .pure fun c' le'' => .cons hv hbs le' le''

theorem accounted_resumed (m : Method) (b : Body) :
    Accounted c (ExecState.resumed m b) AccountedBindings :=
  .mapM (fun h le => h.later le) fun _ _ _ _ =>
    .bind (Machine.accounted_unknown _) fun _ _ _ names => .pure fun _ le => names.later le

end Bindings

/-- The symbolic state and the parameters on the stack have constants with names of a kind. -/
structure ExecState.Over (N : String → Prop) (x : ExecState) : Prop where
  symbolic : x.symbolic.Over N
  parameters : ∀ f ∈ x.stack.top :: x.stack.below, ∀ p ∈ f.parameters, p.2.term.Over N

namespace ExecState

namespace Over

variable {x : ExecState}

theorem mono (h : x.Over N) (imp : ∀ name, N name → N' name) : x.Over N' :=
  ⟨h.symbolic.mono imp, fun f mem p listed => (h.parameters f mem p listed).mono imp⟩

theorem later (h : x.Over c.Accounts) (le : c.Before c') : x.Over c'.Accounts := h.mono (Context.Accounts.mono le)

theorem initial (n : Node) : (ExecState.initial n).Over N := by
  refine ⟨.initial, fun f mem p listed => ?_⟩
  obtain rfl := List.mem_singleton.1 mem
  cases listed

theorem advance (h : x.Over N) (n : Node) {s : SymState} (state : s.Over N) : (x.advance n s).Over N :=
  ⟨state, h.parameters⟩

theorem addParameter (h : x.Over N) (id : LocalId) {v : SymValue} (value : v.term.Over N) :
    (x.addParameter id v).Over N := by
  obtain ⟨top, below⟩ := List.forall_mem_cons.1 h.parameters
  refine ⟨h.symbolic, List.forall_mem_cons.2 ⟨?_, below⟩⟩
  exact List.forall_mem_append.2 ⟨top, List.forall_mem_singleton.2 value⟩

theorem call (h : x.Over N) (caller : Node) (result : Option LocalId) (m : Method) :
    (x.call (.ofCall caller result) m).Over N :=
  ⟨h.symbolic, List.forall_mem_cons.2 ⟨fun _ mem => (nomatch mem), h.parameters⟩⟩

theorem leave (h : x.Over N) : x.leave.Over N := by
  refine ⟨h.symbolic, fun f mem => h.parameters f ?_⟩
  unfold ExecState.leave Stack.pop at mem
  split at mem
  next empty => exact empty ▸ mem
  next split => exact split ▸ List.mem_cons_of_mem _ mem

theorem restart (h : x.Over N) : x.restart.Over N := by
  refine ⟨h.symbolic, fun f mem p listed => ?_⟩
  obtain rfl := List.mem_singleton.1 mem
  cases listed

end Over

/-- The context accounts for everything that follows. -/
structure Names (w w' : World) (fs : List ExecState) : Prop where
  before : w.context.Before w'.context
  named : ∀ f ∈ fs, f.Over w'.context.Accounts

variable {q : Query} {limit : Nat} {w w' : World} {x : ExecState} {fs : List ExecState} {b : Body}
  {us : List Update}

theorem Names.of_nodes {labels : Nat} {ns : List Node} {state : Node → SymState} (h : x.Over w.context.Accounts)
    (relabelled : w'.context = { w.context with labels }) (states : ∀ n, (state n).Over w.context.Accounts) :
    Names w w' (ns.map fun n => x.advance n (state n)) := by
  have before : w.context.Before w'.context := relabelled ▸ .relabel ..
  refine ⟨before, fun f mem => ?_⟩
  obtain ⟨n, -, rfl⟩ := List.mem_map.1 mem
  exact (h.advance n (states n)).later before

theorem Names.of_first {n? : Option Node} {s : SymState} {c : Context} {labels : Label}
    (before : w.context.Before c) (relabelled : w'.context = { c with labels }) (h : x.Over c.Accounts)
    (state : s.Over c.Accounts) : Names w w' (n?.map fun n => x.advance n s).toList := by
  have later : c.Before w'.context := relabelled ▸ .relabel ..
  refine ⟨before.trans later, fun f mem => ?_⟩
  obtain ⟨n, -, rfl⟩ := Option.map_eq_some_iff.1 (Option.mem_toList.1 mem)
  exact (h.advance n state).later later

theorem Names.of_one {c : Context} {labels : Label} {f : ExecState} (before : w.context.Before c)
    (relabelled : w'.context = { c with labels }) (named : f.Over c.Accounts) : Names w w' [f] := by
  have later : c.Before w'.context := relabelled ▸ .relabel ..
  exact ⟨before.trans later, List.forall_mem_singleton.2 (named.later later)⟩

/-- Wherever an effect leads, the context accounts for the states that follow. -/
theorem proceed_names (state : x.Over w.context.Accounts) (updates : ∀ u ∈ us, u.Over w.context.Accounts)
    {e : Effect} (effect : e.Over w.context.Accounts) (h : (x.proceed q limit b us e).run.run w = (.ok fs, w')) :
    Names w w' fs := by
  have updated (l : Label) : (x.symbolic.updateAll l us).Over w.context.Accounts :=
    state.symbolic.updateAll updates l
  cases proceed_ok h with
  | goOn => exact .of_nodes state rfl fun _ => updated _
  | parameter bound =>
    have value := (updated _).memory.local? bound
    exact .of_first (.refl _) rfl (state.addParameter _ value) (updated _)
  | branch =>
    refine .of_nodes state rfl fun n => ?_
    split
    · exact updated _
    · refine (updated _).assume ?_
      split
      · exact effect.1
      · exact effect.2
  | switch _ after =>
    refine ⟨.relabel .., fun f mem => ?_⟩
    obtain ⟨n, -, l, rfl⟩ := AfterSwitch.mem after mem
    refine (state.advance n ((updated _).assume (.join fun t listed => ?_))).later (.relabel ..)
    obtain ⟨k, mine, rfl⟩ := List.mem_map.1 listed
    exact effect k (List.mem_filter.1 mine).1
  | skip _ run =>
    obtain ⟨before, gathered, -⟩ := (accounted_unknownResult _).of_yields (.start state.symbolic) run
    have earlier : ∀ u ∈ us, u.Over _ := fun u mem => (updates u mem).mono (Context.Accounts.mono before)
    have all := (state.symbolic.later before).updateAll (List.forall_mem_append.2 ⟨earlier, gathered.pending⟩)
    exact .of_first before rfl (state.later before) (all _)
  | enter _ _ _ run =>
    obtain ⟨before, gathered, bound⟩ := (accounted_bindParameters _ effect).of_yields (.start state.symbolic) run
    have updated (l : Label) := (updated l).later before
    refine .of_one before rfl (((state.later before).call _ _ _).advance _ ?_)
    exact ((updated _).withMemory ((updated _).memory.bindAll bound)).updateAll gathered.pending _
  | resume _ _ _ run =>
    obtain ⟨before, gathered, values⟩ := (accounted_resumed _ _).of_yields (.start state.symbolic) run
    have updated (l : Label) := (updated l).later before
    refine .of_one before rfl ((state.later before).restart.advance _ ?_)
    have memory (l : Label) := ((updated l).memory.withoutLocalsOf x.node.method).bindAll values
    exact ((updated _).withMemory (memory _)).updateAll gathered.pending _
  | stop => exact ⟨.refl _, List.forall_mem_nil _⟩
  | @leave _ _ _ _ _ _ _ labels _ _ _ _ run =>
    have relabelled : w.context.Before { w.context with labels } := .relabel ..
    obtain ⟨later, gathered, -⟩ := (accounted_handedResult (effect.later relabelled) _).of_yields
      (.start (state.symbolic.later relabelled)) run
    have before := relabelled.trans later
    have without := state.symbolic.withMemory (state.symbolic.memory.withoutLocalsOf x.node.method)
    refine .of_one before rfl ((state.later before).leave.advance _ ?_)
    exact ((without.updateAll updates _).later before).updateAll gathered.pending _

/-- A step takes no names out of nowhere. -/
theorem next_names (state : x.Over w.context.Accounts) (h : (x.next q limit).run.run w = (.ok fs, w')) :
    Names w w' fs := by
  obtain ⟨b, i, e, M, c, -, -, run, rest⟩ := next_ok h
  obtain ⟨before, gathered, effect⟩ := (Effect.accounted_ofInstruction x.node.method i).of_yields
    (.start state.symbolic) run
  obtain ⟨before', named⟩ := proceed_names (w := w.withContext c) (state.later before) gathered.pending effect rest
  exact ⟨before.trans before', named⟩

end ExecState

section Merging

variable {guard : Term} {lhs rhs : Memory}

theorem accounted_mergeLocal {id : LocalId} {o p : Option SymValue} (condition : guard.Over c.Accounts)
    (left : ∀ v, o = some v → v.term.Over c.Accounts) (right : ∀ w, p = some w → w.term.Over c.Accounts) :
    Accounted c (mergeLocal guard id o p) fun c' r => r.term.Over c'.Accounts := by
  have known {c' : Context} {o : Option SymValue} (bound : ∀ v, o = some v → v.term.Over c'.Accounts) :
      Accounted c' (mergeLocal.known id o) fun c' v => v.term.Over c'.Accounts := by
    cases o with
    | some v => exact .pure fun c' le => (bound v rfl).later le
    | none => exact Machine.accounted_unknown id.ty
  have choice {c' : Context} {v w : SymValue} (le : c.Before c') (hv : v.term.Over c'.Accounts)
      (hw : w.term.Over c'.Accounts) : Accounted c' (do liftExcept (Machine.choose (← freshLabel) guard v w))
        fun c' r => r.term.Over c'.Accounts :=
    .bind .freshLabel fun l c₁ le₁ _ => .lift fun c₂ le₂ =>
      Machine.computes_choose (condition.later (le.trans (le₁.trans le₂))) (hv.later (le₁.trans le₂))
        (hw.later (le₁.trans le₂))
  have unequal : Accounted c (do
      let v ← mergeLocal.known id o
      let w ← mergeLocal.known id p
      liftExcept (Machine.choose (← freshLabel) guard v w)) fun c' r => r.term.Over c'.Accounts :=
    .bind (known left) fun v c₁ le hv =>
      .bind (known fun w bound => (right w bound).later le) fun w c₂ le' hw =>
        choice (le.trans le') (hv.later le') hw
  cases o with
  | none => exact unequal
  | some v =>
    cases p with
    | none => exact unequal
    | some w =>
      simp only [mergeLocal]
      split
      · exact .pure fun c' le => (left v rfl).later le
      · exact choice (.refl c) (left v rfl) (right w rfl)

theorem accounted_mergeLocals (condition : guard.Over c.Accounts) (left : lhs.Over c.Accounts)
    (right : rhs.Over c.Accounts) :
    Accounted c (mergeLocals guard lhs rhs) fun c' locals => AccountedBindings c' locals.entries := by
  refine .bind (.mapM (R := fun c' e => e.2.term.Over c'.Accounts) (fun h le => h.later le) fun id _ c' le => ?_)
    fun es c₁ _ names => .pure fun c' le b mem => (names b mem).later le
  refine .bind (accounted_mergeLocal (condition.later le) (fun v bound => ?_) fun w bound => ?_) fun r c₁ _ hr =>
    .pure fun c' le => hr.later le
  · exact (left.local? bound).later le
  · exact (right.local? bound).later le

theorem computes_mergeArray (condition : guard.Over c.Accounts) (left : lhs.Over c.Accounts)
    (right : rhs.Over c.Accounts) (l : Label) (k : Chunk) :
    Computes (mergeArray l guard k lhs rhs) (·.Over c.Accounts) := by
  unfold mergeArray
  dsimp only
  split
  · exact left.array l k
  · exact condition.conditional (left.array l k) (right.array (l + 1) k)

/-- A merged state has constants of either side, and unknowns that the context has issued since. -/
theorem SymState.merge_names {lhs rhs st : SymState} (left : lhs.Over c.Accounts) (right : rhs.Over c.Accounts)
    (h : (lhs.merge rhs).run.run c = (.ok st, c')) : c.Before c' ∧ st.Over c'.Accounts := by
  obtain ⟨l, ts, M, merged⟩ := SymState.merge_ok h
  obtain ⟨labels, labels', run⟩ := merged.locals
  have condition {s : SymState} (l : Label) (named : s.Over c.Accounts) : (s.pathCondition l).Over c.Accounts :=
    .join named.constraints
  have relabelled : c.Before { c with labels := labels } := .relabel ..
  obtain ⟨before, gathered, locals⟩ := (accounted_mergeLocals ((condition l left).later relabelled)
    (left.later relabelled).memory (right.later relabelled).memory).of_yields
      (.start (right.later relabelled)) run
  have before : c.Before c' := relabelled.trans (before.trans (.relabel _ c'.labels))
  refine ⟨before, ⟨locals, fun e mem => ?_⟩, ?_⟩
  · obtain ⟨l', merge⟩ := merged.arrays e mem
    have array := computes_mergeArray (condition l left) left.memory right.memory l' e.1
    rw [merge] at array
    exact Term.Over.later array before
  · rw [merged.constraints]
    refine List.forall_mem_cons.2 ⟨((condition l left).or (condition (l + 1) right)).later before, fun t mem => ?_⟩
    exact gathered.pending (.constraint t) (merged.assumed ▸ List.mem_map_of_mem mem)

theorem ExecState.merge_names {x y r : ExecState} {o : Overflow} (left : x.Over c.Accounts)
    (right : y.Over c.Accounts) (h : (x.merge y o).run.run c = (.ok r, c')) : c.Before c' ∧ r.Over c'.Accounts := by
  obtain ⟨merge, -, -, stack⟩ := ExecState.merge_ok h
  obtain ⟨before, symbolic⟩ := SymState.merge_names left.symbolic right.symbolic merge
  exact ⟨before, symbolic, stack ▸ (left.later before).parameters⟩

end Merging
end SinkReach
