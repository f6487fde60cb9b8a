import SinkReach.Proofs.Step.Following
import SinkReach.Proofs.Typing.Machine

/-!
Steps of execution keep states well-typed. Every instruction gathers updates that keep to the types and has
a well-typed effect; from there, wherever the effect leads, the states that follow are well-typed and stand
at nodes of call instances.
-/
namespace SinkReach

open Run (Ensures)

/-- Fields of one class and name have one type, operators have primitive results, and new objects are of
class or array types. -/
structure Program.WellTyped (p : Program) : Prop where
  fields : Field.Agree p.Names
  operators : ∀ m b, p.body? m = some b → ∀ r ∈ b.rvalues, r.hasPrimitiveResults = true
  objects : ∀ m b, p.body? m = some b → ∀ r ∈ b.rvalues, r.makesObjects = true

variable {F : Field → Prop} {E : Fault → Prop}

namespace Effect

/-- Conditions are boolean, and values that are handed over have their own types. -/
def WellTyped : Effect → Prop
  | goOn | parameter _ => True
  | branch onTrue onFalse _ => onTrue.OfSort .bool ∧ onFalse.OfSort .bool
  | switch cases => ∀ c ∈ cases, c.1.OfSort .bool
  | call _ arguments _ => ∀ v ∈ arguments, v.HasType v.ty
  | ret v => v.HasType v.ty

theorem ensures_ofLocal (m : Method) (l : Local) :
    Ensures (Machine.WellTyped F) Fault.Any (ofLocal m l) fun v => v.HasType l.ty := by
  refine .bind (Machine.ensures_local? _) fun o typed => ?_
  cases o with
  | none => exact .throw trivial
  | some v => exact .pure (typed v rfl)

theorem ensures_ofOperand (m : Method) (o : Operand) :
    Ensures (Machine.WellTyped F) Fault.Any (ofOperand m o) fun v => v.HasType o.ty := by
  cases o with
  | loc l => exact ensures_ofLocal m l
  | const k => exact Machine.ensures_constant k

theorem ensures_ofRvalue (agree : Field.Agree F) (m : Method) {value : Rvalue} (named : ∀ f ∈ value.fields, F f)
    (operators : value.hasPrimitiveResults = true) (objects : value.makesObjects = true) :
    Ensures (Machine.WellTyped F) Fault.Any (ofRvalue m value) fun v => v.HasType v.ty := by
  have self {x : Run SymValue} {ty : Ty}
      (h : Ensures (Machine.WellTyped F) Fault.Any x fun v => v.HasType ty) :
      Ensures (Machine.WellTyped F) Fault.Any x fun v => v.HasType v.ty := h.mono fun _ typed => typed.self
  cases value with
  | use o => exact self (ensures_ofOperand m o)
  | binary op a b ty =>
    refine .bind (ensures_ofOperand m a) fun v hv => .bind (ensures_ofOperand m b) fun w hw => ?_
    exact self (Machine.ensures_binary hv hw operators)
  | neg o => exact .bind (ensures_ofOperand m o) fun v hv => self (Machine.ensures_negate hv)
  | cast o ty => exact .bind (ensures_ofOperand m o) fun v hv => self (Machine.ensures_cast hv ty)
  | instanceOf => exact self (Machine.ensures_unknown .boolean)
  | newArray element => exact self (Machine.ensures_unknown (.array element))
  | length => exact self (Machine.ensures_unknown .int)
  | arrayElement _ _ ty => exact self (Machine.ensures_unknown ty)
  | new ty => exact self (Machine.ensures_allocate objects)
  | instanceField base f =>
    refine .bind (ensures_ofLocal m base) fun v hv => ?_
    exact self (Machine.ensures_readField agree (named f List.mem_cons_self) hv)
  | staticField f => exact self (Machine.ensures_readStatic agree (named f List.mem_cons_self))
  | invoke => exact .throw trivial

/-- Whatever the program is like, what an instruction evaluates is well-sorted. -/
theorem ensures_ofRvalue_sorted (m : Method) (value : Rvalue) :
    Ensures (Machine.WellTyped F) Fault.Any (ofRvalue m value) SymValue.IsSorted := by
  have typed {x : Run SymValue} {ty : Ty}
      (h : Ensures (Machine.WellTyped F) Fault.Any x fun v => v.HasType ty) :
      Ensures (Machine.WellTyped F) Fault.Any x SymValue.IsSorted := h.mono fun _ hv => hv.sorted
  cases value with
  | use o => exact typed (ensures_ofOperand m o)
  | binary op a b ty =>
    refine .bind (ensures_ofOperand m a) fun v hv => .bind (ensures_ofOperand m b) fun w hw => ?_
    refine .bind .freshLabel fun l _ => .lift (fun r result => ?_) fun _ _ => trivial
    obtain ⟨t, rfl, sorted, -⟩ := Machine.operate_ok hv hw result
    exact sorted.2
  | neg o => exact .bind (ensures_ofOperand m o) fun v hv => typed (Machine.ensures_negate hv)
  | cast o ty => exact .bind (ensures_ofOperand m o) fun v hv => typed (Machine.ensures_cast hv ty)
  | instanceOf => exact typed (Machine.ensures_unknown .boolean)
  | newArray element => exact typed (Machine.ensures_unknown (.array element))
  | length => exact typed (Machine.ensures_unknown .int)
  | arrayElement _ _ ty => exact typed (Machine.ensures_unknown ty)
  | new ty =>
    refine (Machine.ensures_allocate_reference ty).mono fun v ⟨address, same, sorted⟩ => ?_
    exact same ▸ sorted.2
  | instanceField base f =>
    refine .bind (ensures_ofLocal m base) fun v hv => ?_
    exact .bind (Machine.ensures_addressOf hv f) fun _ address => Machine.ensures_read_sorted address f
  | staticField f =>
    refine .bind .freshLabel fun l _ => ?_
    exact Machine.ensures_read_sorted (.ofInt 0 (by decide) (by decide)) f
  | invoke => exact .throw trivial

theorem ensures_assign (m : Method) {place : Place} (named : ∀ f ∈ place.fields, F f) {value : Run SymValue}
    (h : Ensures (Machine.WellTyped F) Fault.Any value fun v => v.HasType v.ty) :
    Ensures (Machine.WellTyped F) Fault.Any (assign m place value) fun _ => True := by
  cases place with
  | loc l =>
    refine .bind h fun v hv => .bind (Machine.ensures_declaredAs hv _) fun w hw => ?_
    exact Machine.ensures_bind hw
  | instanceField base f =>
    refine .bind (ensures_ofLocal m base) fun object typed => .bind h fun v hv => ?_
    exact Machine.ensures_writeField (named f List.mem_cons_self) typed hv
  | staticField f => exact .bind h fun v hv => Machine.ensures_writeStatic (named f List.mem_cons_self) hv
  | arrayElement => exact .bind h fun _ _ => .pure trivial

theorem ensures_arguments (m : Method) (c : Invoke) :
    Ensures (Machine.WellTyped F) Fault.Any (arguments m c) fun vs => ∀ v ∈ vs, v.HasType v.ty := by
  have rest (receiver : List SymValue) (typed : ∀ v ∈ receiver, v.HasType v.ty) :
      Ensures (Machine.WellTyped F) Fault.Any (do return receiver ++ (← c.args.mapM (ofOperand m)))
        fun vs => ∀ v ∈ vs, v.HasType v.ty := by
    refine .bind (.mapM fun o _ => (ensures_ofOperand m o).mono fun _ hv => hv.self) fun vs hvs => ?_
    exact .pure (List.forall_mem_append.2 ⟨typed, hvs⟩)
  simp only [arguments]
  split
  · cases c.base with
    | none => exact .bind (P := fun _ => False) (.throw trivial) fun _ never => never.elim
    | some l =>
      simp only [pure_bind]
      exact .bind (ensures_ofLocal m l) fun v hv => rest [v] (List.forall_mem_singleton.2 hv.self)
  · simp only [pure_bind]
    exact rest [] (List.forall_mem_nil _)

theorem ensures_keyTest {key : SymValue} {ty : Ty} (h : key.HasType ty) (op : Operator) (n : Int) :
    Ensures (Machine.WellTyped F) Fault.Any (keyTest key op n) fun t => t.OfSort .bool := by
  refine .bind (Machine.ensures_constant _) fun v hv => .bind (Machine.ensures_binary h hv rfl) fun r hr => ?_
  exact .lift (fun _ => Machine.condition_ofSort hr) fun _ _ => trivial

theorem ensures_switchCases {key : SymValue} {ty : Ty} (h : key.HasType ty) (table : SwitchTable) :
    Ensures (Machine.WellTyped F) Fault.Any (switchCases key table)
      fun r => (∀ c ∈ r.1, c.1.OfSort .bool) ∧ r.2.OfSort .bool := by
  have hits (values : List Int) :
      Ensures (Machine.WellTyped F) Fault.Any (keyHits key values) fun ts => ∀ t ∈ ts, t.OfSort .bool :=
    .mapM fun n _ => ensures_keyTest h .eq n
  have zipped {ts : List Term} (conditions : ∀ t ∈ ts, t.OfSort .bool) (targets : List InstrId) :
      ∀ c ∈ ts.zip targets, c.1.OfSort .bool := fun c mem => conditions c.1 (List.of_mem_zip mem).1
  cases table with
  | table low high targets =>
    simp only [switchCases]
    split
    · exact .bind (P := fun _ => False) (.throw trivial) fun _ never => never.elim
    · refine .bind (hits _) fun ts conditions => ?_
      refine .bind (ensures_keyTest h .lt low) fun below hbelow => ?_
      refine .bind (ensures_keyTest h .gt high) fun above habove => .bind .freshLabel fun l _ => ?_
      exact .pure ⟨zipped conditions targets, hbelow.or habove⟩
  | lookup values targets =>
    simp only [switchCases]
    split
    · exact .bind (P := fun _ => False) (.throw trivial) fun _ never => never.elim
    · refine .bind (hits _) fun ts conditions => ?_
      refine .bind (P := fun _ => True) (.context fun _ => trivial) fun l _ => ?_
      refine .pure ⟨zipped conditions targets, .join fun t mem => ?_⟩
      obtain ⟨⟨u, i⟩, listed, rfl⟩ := List.mem_map.1 mem
      exact (conditions u (List.mem_of_getElem? (List.mem_zipIdx_iff_getElem?.1 listed))).not

/-- Whatever an instruction does keeps to the types, and its effect is well-typed. -/
theorem ensures_ofInstruction (agree : Field.Agree F) (m : Method) {i : Instruction} (named : ∀ f ∈ i.fields, F f)
    (operators : ∀ r, i.rvalue? = some r → r.hasPrimitiveResults = true)
    (objects : ∀ r, i.rvalue? = some r → r.makesObjects = true) :
    Ensures (Machine.WellTyped F) Fault.Any (ofInstruction m i) WellTyped := by
  cases i with
  | assign place value =>
    by_cases call : ∃ c, value = .invoke c
    · obtain ⟨c, rfl⟩ := call
      cases place with
      | loc l => exact .bind (ensures_arguments m c) fun vs typed => .pure typed
      | instanceField | staticField | arrayElement => exact .throw trivial
    · have same : ofInstruction m (.assign place value) = do
          assign m place (ofRvalue m value)
          return goOn := by
        cases place <;> cases value <;> first | rfl | exact absurd ⟨_, rfl⟩ call
      rw [same]
      have named' := List.forall_mem_append.1 named
      have typed := ensures_ofRvalue agree m named'.2 (operators value rfl) (objects value rfl)
      exact .bind (ensures_assign m named'.1 typed) fun _ _ => .pure trivial
  | identity l source =>
    refine .bind (Machine.ensures_local? _) fun o _ => ?_
    cases o with
    | some v => exact .pure trivial
    | none =>
      refine .bind (P := fun _ => True) ?_ fun _ _ => .pure trivial
      exact .bind (Machine.ensures_declare (.ofLocal m l)) fun _ _ => .pure trivial
  | branch condition target =>
    refine .bind (ensures_ofRvalue agree m named (operators condition rfl) (objects condition rfl))
      fun v hv => ?_
    refine .bind (.lift (fun _ => Machine.condition_ofSort hv) fun _ _ => trivial) fun onTrue isTrue => ?_
    exact .bind .freshLabel fun l _ => .pure ⟨isTrue, isTrue.not⟩
  | switch key table default =>
    refine .bind (ensures_ofOperand m key) fun v hv => .bind (ensures_switchCases hv table) fun r hr => ?_
    exact .pure (List.forall_mem_append.2 ⟨hr.1, List.forall_mem_singleton.2 hr.2⟩)
  | invoke c => exact .bind (ensures_arguments m c) fun vs typed => .pure typed
  | ret value => exact .bind (ensures_ofOperand m value) fun v hv => .pure hv.self
  | retVoid => exact .bind .freshLabel fun l _ => .pure (.void l)
  | throw | goto | nop | monitor => exact .pure trivial

end Effect

section Bindings

theorem ensures_unknownResult (result : Option LocalId) :
    (ExecState.unknownResult result).Ensures (Machine.WellTyped F) E fun _ => True := by
  cases result with
  | none => exact .pure trivial
  | some id => exact .bind (Machine.ensures_unknown id.ty) fun v typed => Machine.ensures_bind typed

theorem ensures_handedResult {v : SymValue} {ty : Ty} (h : v.HasType ty) (result : Option LocalId) :
    (ExecState.handedResult v result).Ensures (Machine.WellTyped F) Fault.Any fun _ => True := by
  cases result with
  | none => exact .pure trivial
  | some id => exact .bind (Machine.ensures_declaredAs h id.ty) fun w typed => Machine.ensures_bind typed

theorem ensures_bindParameters (ids : List LocalId) {arguments : List SymValue}
    (h : ∀ v ∈ arguments, v.HasType v.ty) : (ExecState.bindParameters ids arguments).Ensures
      (Machine.WellTyped F) Fault.Any fun bs => ∀ b ∈ bs, b.2.HasType b.1.ty := by
  induction ids generalizing arguments with
  | nil => exact .pure fun _ mem => nomatch mem
  | cons id ids ih =>
    cases arguments with
    | nil =>
      refine .bind (Machine.ensures_unknown id.ty) fun v typed => ?_
      exact .bind (ih h) fun bs rest => .pure (List.forall_mem_cons.2 ⟨typed, rest⟩)
    | cons a arguments =>
      obtain ⟨first, others⟩ := List.forall_mem_cons.1 h
      refine .bind (Machine.ensures_declaredAs first id.ty) fun v typed => ?_
      exact .bind (ih others) fun bs rest => .pure (List.forall_mem_cons.2 ⟨typed, rest⟩)

theorem ensures_resumed (m : Method) (b : Body) : (ExecState.resumed m b).Ensures (Machine.WellTyped F) E
    fun bs => ∀ b ∈ bs, b.2.HasType b.1.ty :=
  .mapM fun _ _ => .bind (Machine.ensures_unknown _) fun _ typed => .pure typed

end Bindings

/-- The states that follow are well-typed and at nodes of instances, of which the step makes at most one. -/
structure TypedNext (F : Field → Prop) (w w' : World) (fs : List ExecState) : Prop where
  calls : w'.calls = w.calls ∨ ∃ m g, w'.calls = w.calls.withNew m g
  placed : ∀ f ∈ fs, w'.calls.Places f.node
  typed : ∀ f ∈ fs, f.symbolic.WellTyped F

namespace TypedNext

variable {w w' : World} {x f : ExecState}

theorem of_nodes {ns : List Node} {state : Node → SymState} (calls : w'.calls = w.calls)
    (found : w.calls.successors x.node = .ok ns) (typed : ∀ n, (state n).WellTyped F) :
    TypedNext F w w' (ns.map fun n => x.advance n (state n)) := by
  refine ⟨.inl calls, fun f mem => ?_, fun f mem => ?_⟩
  · obtain ⟨n, hn, rfl⟩ := List.mem_map.1 mem
    exact calls ▸ Instances.places_successors found n hn
  · obtain ⟨n, hn, rfl⟩ := List.mem_map.1 mem
    exact typed n

theorem of_first {n? : Option Node} {n : Node} {state : SymState} (calls : w'.calls = w.calls)
    (found : w.calls.first? n = .ok n?) (typed : state.WellTyped F) :
    TypedNext F w w' (n?.map fun n => x.advance n state).toList := by
  cases n? with
  | none => exact ⟨.inl calls, List.forall_mem_nil _, List.forall_mem_nil _⟩
  | some k =>
    refine ⟨.inl calls, List.forall_mem_singleton.2 ?_, List.forall_mem_singleton.2 typed⟩
    exact calls ▸ Instances.places_first? found k rfl

theorem of_new {m : Method} {g : Digraph} {i : InstrId} (calls : w'.calls = w.calls.withNew m g)
    (node : f.node = ⟨w.calls.count, m, i⟩) (typed : f.symbolic.WellTyped F) : TypedNext F w w' [f] := by
  refine ⟨.inr ⟨m, g, calls⟩, List.forall_mem_singleton.2 ?_, List.forall_mem_singleton.2 typed⟩
  rw [calls, node]
  exact w.calls.places_new m g i

end TypedNext

namespace ExecState

variable {q : Query} {limit : Nat} {w w' : World} {x : ExecState} {fs : List ExecState} {b : Body}
  {us : List Update}

/-- Wherever a well-typed effect leads, well-typed states follow. -/
theorem proceed_typed (agree : Field.Agree F) (state : x.symbolic.WellTyped F) (updates : ∀ u ∈ us, u.WellTyped F)
    {e : Effect} (effect : e.WellTyped) (h : (x.proceed q limit b us e).run.run w = (.ok fs, w')) :
    TypedNext F w w' fs := by
  have updated (l : Label) : (x.symbolic.updateAll l us).WellTyped F := state.updateAll agree updates l
  cases proceed_ok h with
  | goOn found => exact .of_nodes rfl found fun _ => updated _
  | @parameter _ v _ _ first => exact .of_first (x := x.addParameter _ v) rfl first (updated _)
  | branch found =>
    refine .of_nodes rfl found fun n => ?_
    split
    · exact updated _
    · refine (updated _).assume ?_
      split
      · exact effect.1
      · exact effect.2
  | switch found after =>
    refine ⟨.inl rfl, fun f mem => ?_, fun f mem => ?_⟩
    · exact Instances.places_successors found _ (mem_of_afterSwitch after mem)
    · obtain ⟨n, -, l, rfl⟩ := AfterSwitch.mem after mem
      refine (updated _).assume (.join fun t listed => ?_)
      obtain ⟨c, mine, rfl⟩ := List.mem_map.1 listed
      exact effect c (List.mem_filter.1 mine).1
  | skip _ run first =>
    obtain ⟨gathered, -⟩ := (ensures_unknownResult (E := Fault.Any) _).of_yields (.start state) run
    exact .of_first rfl first (state.updateAll agree (List.forall_mem_append.2 ⟨updates, gathered.pending⟩) _)
  | enter _ enter _ run =>
    obtain ⟨gathered, typed⟩ := (ensures_bindParameters _ effect).of_yields (.start state) run
    obtain ⟨g, -, rfl, rfl⟩ := Instances.enter_ok enter
    have memory (l : Label) := (updated l).memory.bindAll typed
    exact .of_new rfl rfl (((updated _).withMemory (memory _)).updateAll agree gathered.pending _)
  | resume _ resume _ run =>
    obtain ⟨gathered, typed⟩ := (ensures_resumed (E := Fault.Any) _ _).of_yields (.start state) run
    obtain ⟨k, m, g, -, -, rfl, rfl⟩ := Instances.resume_ok resume
    have memory (l : Label) := ((updated l).memory.withoutLocalsOf x.node.method).bindAll typed
    exact .of_new rfl rfl (((updated _).withMemory (memory _)).updateAll agree gathered.pending _)
  | stop => exact ⟨.inl rfl, List.forall_mem_nil _, List.forall_mem_nil _⟩
  | leave _ _ first run =>
    obtain ⟨gathered, -⟩ := (ensures_handedResult effect _).of_yields (.start state) run
    have without := state.withMemory (state.memory.withoutLocalsOf x.node.method)
    refine ⟨.inl rfl, List.forall_mem_singleton.2 (Instances.places_first? first _ rfl), ?_⟩
    exact List.forall_mem_singleton.2 ((without.updateAll agree updates _).updateAll agree gathered.pending _)

/-- A step from a well-typed state leads to well-typed states. -/
theorem next_typed (program : q.program.WellTyped) (state : x.symbolic.WellTyped q.program.Names)
    (h : (x.next q limit).run.run w = (.ok fs, w')) : TypedNext q.program.Names w w' fs := by
  obtain ⟨b, i, e, M, c, body, found, run, rest⟩ := next_ok h
  have listed := Query.body_ok body
  have mem := List.mem_of_getElem? found
  have named : ∀ f ∈ i.fields, q.program.Names f :=
    fun f hf => ⟨_, b, listed, List.mem_flatMap.2 ⟨i, mem, hf⟩⟩
  have among (r : Rvalue) (hr : i.rvalue? = some r) : r ∈ b.rvalues := List.mem_filterMap.2 ⟨i, mem, hr⟩
  obtain ⟨gathered, effect⟩ := (Effect.ensures_ofInstruction program.fields x.node.method named
    (fun r hr => program.operators _ b listed r (among r hr))
    fun r hr => program.objects _ b listed r (among r hr)).of_yields (.start state) run
  obtain ⟨calls, placed, typed⟩ :=
    proceed_typed (w := w.withContext c) program.fields state gathered.pending effect rest
  exact ⟨calls, placed, typed⟩

end ExecState
end SinkReach
