import SinkReach.Proofs.Program.Discipline
import SinkReach.Proofs.Step.Next

/-!
What a run of the machine gathers. Every operation leaves the effects that were gathered before it where they
are and appends its own. Those are conditions and stores for most operations, bindings for an assignment to
a local, and a reserved address where an object is made.
-/
namespace SinkReach

variable {U : Update → Prop}

/-- The run appends effects of a kind to those gathered before. -/
def Run.Gathers {α : Type} (U : Update → Prop) (x : Run α) : Prop :=
  ∀ M c a M' c', x.Yields M c a M' c' → ∃ us, M'.pending = M.pending ++ us ∧ ∀ u ∈ us, U u

namespace Run.Gathers

variable {α β : Type} {x : Run α}

/-- A run that leaves the machine alone. -/
theorem of_same (h : ∀ M c a M' c', x.Yields M c a M' c' → M' = M) : x.Gathers U := by
  intro M c a M' c' run
  obtain rfl := h M c a M' c' run
  exact ⟨[], (List.append_nil _).symm, fun _ mem => nomatch mem⟩

theorem pure (a : α) : (Pure.pure a : Run α).Gathers U := of_same fun _ _ _ _ _ run => (yields_pure.1 run).2.1

theorem bind {f : α → Run β} (hx : x.Gathers U) (hf : ∀ a, (f a).Gathers U) : (x >>= f).Gathers U := by
  intro M c b M' c' run
  obtain ⟨a, M₁, c₁, first, rest⟩ := yields_bind.1 run
  obtain ⟨us, eq, kinds⟩ := hx _ _ _ _ _ first
  obtain ⟨more, eq', kinds'⟩ := hf a _ _ _ _ _ rest
  refine ⟨us ++ more, by rw [eq', eq, List.append_assoc], fun u mem => ?_⟩
  exact (List.mem_append.1 mem).elim (kinds u) (kinds' u)

theorem throw (e : Fault) : (MonadExcept.throw e : Run α).Gathers U :=
  fun _ _ _ _ _ run => absurd run not_yields_throw

theorem lift (y : Except Fault α) : (liftExcept y : Run α).Gathers U :=
  of_same fun _ _ _ _ _ run => (yields_lift.1 run).2.1

theorem context (f : Context → α × Context) : (modifyGetThe Context f : Run α).Gathers U :=
  of_same fun _ _ _ _ _ run => (yields_context.1 run).2.1

theorem freshLabel : (SinkReach.freshLabel : Run Label).Gathers U := context _

theorem get : (getThe Machine : Run Machine).Gathers U := of_same fun _ _ _ _ _ run => (yields_get.1 run).2.1

theorem mapM {f : α → Run β} (h : ∀ a, (f a).Gathers U) (as : List α) : (as.mapM f).Gathers U := by
  induction as with
  | nil =>
    rw [List.mapM_nil]
    exact pure _
  | cons a as ih =>
    rw [List.mapM_cons]
    exact bind (h a) fun _ => bind ih fun _ => pure _

theorem emit {u : Update} (h : U u) : (Machine.emit u).Gathers U := by
  intro M c a M' c' run
  obtain ⟨rfl, -⟩ := yields_modify.1 run
  exact ⟨[u], rfl, fun _ mem => List.mem_singleton.1 mem ▸ h⟩

/-- From a fresh machine a run gathers its own effects only. -/
theorem of_start {s : SymState} {c c' : Context} {a : α} {M : Machine} (h : x.Gathers U)
    (run : x.Yields (.start s) c a M c') : ∀ u ∈ M.pending, U u := by
  obtain ⟨us, eq, kinds⟩ := h _ _ _ _ _ run
  rw [eq]
  exact kinds

end Run.Gathers

/-- The kind takes conditions and stores. -/
structure Update.Plain (U : Update → Prop) : Prop where
  constraint : ∀ t, U (.constraint t)
  store : ∀ c i e, U (.store c i e)

open Run

variable (plain : Update.Plain U)
include plain

namespace Machine

theorem gathers_assume (t : Term) : (assume t).Gathers U := .emit (plain.constraint t)

theorem gathers_unknown (ty : Ty) : (unknown ty).Gathers U := by
  refine .bind .freshLabel fun l => ?_
  cases ty with
  | void | null => exact .pure _
  | ref | array =>
    exact .bind (.context _) fun _ => .bind (.context _) fun _ => .bind (gathers_assume plain _) fun _ => .pure _
  | boolean | byte | short | char | int | long | float | double =>
    exact .bind (.context _) fun _ => .pure _

theorem gathers_constant (k : Constant) : (constant k).Gathers U := by
  refine .bind .freshLabel fun l => ?_
  cases k with
  | int | long | float | double | null => exact .pure _
  | string | classLiteral =>
    exact .bind (.context _) fun _ => .bind (.context _) fun _ => .bind (gathers_assume plain _) fun _ => .pure _

omit plain in
theorem gathers_local? (id : LocalId) : (local? id).Gathers U := .bind .get fun _ => .pure _

omit plain in
theorem gathers_read (address : Term) (f : Field) : (read address f).Gathers U :=
  .bind .freshLabel fun _ => .bind .get fun _ => .pure _

theorem gathers_write (address : Term) (f : Field) (v : SymValue) : (write address f v).Gathers U :=
  .bind .freshLabel fun _ => .bind (.lift _) fun _ => .emit (plain.store ..)

omit plain in
theorem gathers_binary (op : Operator) (v w : SymValue) (ty : Ty) : (binary op v w ty).Gathers U :=
  .bind .freshLabel fun _ => .lift _

omit plain in
theorem gathers_negate (v : SymValue) : (negate v).Gathers U := by
  refine .bind .freshLabel fun l => ?_
  cases v with
  | primitive => exact .bind (.lift _) fun _ => .pure _
  | reference => exact .throw _

theorem gathers_cast (v : SymValue) (ty : Ty) : (cast v ty).Gathers U := by
  unfold cast
  split
  · exact .pure v
  · cases v with
    | primitive =>
      dsimp only
      split
      · exact .bind .freshLabel fun _ => .bind (.lift _) fun _ => .pure _
      · exact gathers_unknown plain ty
    | reference => exact gathers_unknown plain ty

theorem gathers_declaredAs (v : SymValue) (ty : Ty) : (declaredAs v ty).Gathers U := by
  cases v with
  | primitive => exact gathers_cast plain _ ty
  | reference source address =>
    simp only [declaredAs]
    split
    · exact .pure _
    · exact gathers_cast plain _ ty

omit plain in
/-- A new object is at the machine's next address, which is reserved. -/
theorem yields_allocate {ty : Ty} {M M' : Machine} {c c' : Context} {v : SymValue}
    (run : (allocate ty).Yields M c v M' c') :
    ∃ l t, v = .reference ty (.ofInt l M.nextAddress Address.width) ∧
      M'.pending = M.pending ++ [.allocate (M.nextAddress + 1), .constraint t] := by
  obtain ⟨l, _, _, label, run⟩ := yields_bind.1 run
  obtain ⟨N, _, _, get, run⟩ := yields_bind.1 run
  obtain ⟨_, _, _, reserve, run⟩ := yields_bind.1 run
  obtain ⟨_, _, _, allocate, run⟩ := yields_bind.1 run
  obtain ⟨t, _, _, typed, run⟩ := yields_bind.1 run
  obtain ⟨_, _, _, assume, run⟩ := yields_bind.1 run
  obtain ⟨-, rfl, -⟩ := yields_freshLabel.1 label
  obtain ⟨rfl, rfl, -⟩ := yields_get.1 get
  obtain ⟨rfl, -⟩ := yields_modify.1 reserve
  obtain ⟨rfl, -⟩ := yields_modify.1 allocate
  obtain ⟨-, rfl, -⟩ := yields_context.1 typed
  obtain ⟨rfl, -⟩ := yields_modify.1 assume
  obtain ⟨rfl, rfl, -⟩ := yields_pure.1 run
  exact ⟨l, t, rfl, List.append_assoc ..⟩

theorem gathers_allocate (reserve : ∀ n, U (.allocate n)) (ty : Ty) : (allocate ty).Gathers U := by
  intro M c v M' c' run
  obtain ⟨l, t, -, pending⟩ := yields_allocate run
  refine ⟨_, pending, fun u mem => ?_⟩
  rcases List.mem_cons.1 mem with rfl | mem
  · exact reserve _
  · exact List.mem_singleton.1 mem ▸ plain.constraint t

end Machine

namespace Effect

open Machine

variable {m : Method}

omit plain in
/-- A local is looked up without a trace. -/
theorem machine_of_ofLocal {l : Local} {v : SymValue} {M M' : Machine} {c c' : Context}
    (run : (ofLocal m l).Yields M c v M' c') : M' = M := by
  obtain ⟨o, _, _, found, run⟩ := yields_bind.1 run
  obtain ⟨_, _, _, get, found⟩ := yields_bind.1 found
  obtain ⟨-, rfl, -⟩ := yields_get.1 get
  obtain ⟨-, rfl, -⟩ := yields_pure.1 found
  cases o with
  | none => exact absurd run not_yields_throw
  | some v => exact (yields_pure.1 run).2.1

omit plain in
theorem gathers_ofLocal (m : Method) (l : Local) : (ofLocal m l).Gathers U :=
  .of_same fun _ _ _ _ _ run => machine_of_ofLocal run

theorem gathers_ofOperand (m : Method) (a : Operand) : (ofOperand m a).Gathers U := by
  cases a with
  | loc l => exact gathers_ofLocal m l
  | const k => exact gathers_constant plain k

/-- An expression reserves an address only where it makes an object. -/
theorem gathers_ofRvalue (m : Method) {value : Rvalue}
    (reserve : ∀ ty, value = .new ty → ∀ n, U (.allocate n)) : (ofRvalue m value).Gathers U := by
  have operand (a : Operand) : (ofOperand m a).Gathers U := gathers_ofOperand plain m a
  cases value with
  | use a => exact operand a
  | binary op a b ty => exact .bind (operand a) fun _ => .bind (operand b) fun _ => gathers_binary op _ _ ty
  | neg a => exact .bind (operand a) gathers_negate
  | cast a ty => exact .bind (operand a) fun _ => gathers_cast plain _ ty
  | instanceOf => exact gathers_unknown plain .boolean
  | newArray element => exact gathers_unknown plain (.array element)
  | length => exact gathers_unknown plain .int
  | arrayElement _ _ ty => exact gathers_unknown plain ty
  | new ty => exact gathers_allocate plain (reserve ty rfl) ty
  | instanceField base f =>
    exact .bind (gathers_ofLocal m base) fun _ => .bind (.lift _) fun _ => gathers_read _ f
  | staticField f => exact .bind .freshLabel fun _ => gathers_read _ f
  | invoke => exact .throw _

theorem gathers_arguments (m : Method) (call : Invoke) : (arguments m call).Gathers U := by
  have rest (receiver : List SymValue) : (do
      return receiver ++ (← call.args.mapM (ofOperand m)) : Run (List SymValue)).Gathers U :=
    .bind (.mapM (gathers_ofOperand plain m) _) fun _ => .pure _
  simp only [arguments]
  split
  · cases call.base with
    | none => exact .bind (.throw _) rest
    | some l =>
      simp only [pure_bind]
      exact .bind (gathers_ofLocal m l) fun v => rest [v]
  · simp only [pure_bind]
    exact rest []

/-- An assignment binds at most a local of the method. -/
theorem gathers_assign (own : ∀ l v, U (.bind (.ofLocal m l) v)) (place : Place) {value : Run SymValue}
    (h : value.Gathers U) : (assign m place value).Gathers U := by
  cases place with
  | loc l => exact .bind h fun _ => .bind (gathers_declaredAs plain _ _) fun v => .emit (own l v)
  | instanceField base f =>
    exact .bind (gathers_ofLocal m base) fun _ => .bind h fun _ => .bind (.lift _) fun _ => gathers_write plain _ f _
  | staticField f => exact .bind h fun _ => .bind .freshLabel fun _ => gathers_write plain _ f _
  | arrayElement => exact .bind h fun _ => .pure _

theorem gathers_keyTest (key : SymValue) (op : Operator) (n : Int) : (keyTest key op n).Gathers U :=
  .bind (gathers_constant plain _) fun _ => .bind (gathers_binary op key _ .boolean) fun _ => .lift _

theorem gathers_switchCases (key : SymValue) (table : SwitchTable) : (switchCases key table).Gathers U := by
  have test (op : Operator) (n : Int) : (keyTest key op n).Gathers U := gathers_keyTest plain key op n
  have hits (values : List Int) : (keyHits key values).Gathers U := .mapM (test .eq) values
  cases table with
  | table low high targets =>
    have bounds (ts : List Term) : (do
        let below ← keyTest key .lt low
        let above ← keyTest key .gt high
        return (ts.zip targets, .or (← freshLabel) below above) : Run (List (Term × InstrId) × Term)).Gathers U :=
      .bind (test .lt low) fun _ => .bind (test .gt high) fun _ => .bind .freshLabel fun _ => .pure _
    simp only [switchCases]
    split
    · exact .bind (.throw _) fun _ => .bind (hits _) bounds
    · exact .bind (hits _) bounds
  | lookup values targets =>
    simp only [switchCases]
    split
    · exact .bind (.throw _) fun _ => .bind (hits _) fun _ => .bind (.context _) fun _ => .pure _
    · exact .bind (hits _) fun _ => .bind (.context _) fun _ => .pure _

/-- An instruction binds only locals of its method, and reserves an address only where it makes an object. -/
theorem gathers_ofInstruction (own : ∀ l v, U (.bind (.ofLocal m l) v)) {i : Instruction}
    (reserve : ∀ ty, i.rvalue? = some (.new ty) → ∀ n, U (.allocate n)) : (ofInstruction m i).Gathers U := by
  cases i with
  | assign place value =>
    have evaluated : (assign m place (ofRvalue m value)).Gathers U :=
      gathers_assign plain own _ (gathers_ofRvalue plain m fun ty same => reserve ty (congrArg some same))
    cases value with
    | invoke call =>
      cases place with
      | loc l => exact .bind (gathers_arguments plain m call) fun _ => .pure _
      | instanceField | staticField | arrayElement => exact .throw _
    | _ => cases place <;> exact .bind evaluated fun _ => .pure _
  | identity l source =>
    refine .bind (gathers_local? _) fun o => ?_
    cases o with
    | none =>
      have declare : (declare (.ofLocal m l)).Gathers U :=
        .bind (gathers_unknown plain _) fun v => .bind (.emit (own l v)) fun _ => .pure v
      exact .bind (.bind declare fun _ => .pure _) fun _ => .pure _
    | some v => exact .pure _
  | branch condition target =>
    have evaluated : (ofRvalue m condition).Gathers U :=
      gathers_ofRvalue plain m fun ty same => reserve ty (congrArg some same)
    exact .bind evaluated fun _ => .bind (.lift _) fun _ => .bind .freshLabel fun _ => .pure _
  | switch key table default =>
    exact .bind (gathers_ofOperand plain m key) fun _ => .bind (gathers_switchCases plain _ table) fun _ => .pure _
  | invoke call => exact .bind (gathers_arguments plain m call) fun _ => .pure _
  | ret value => exact .bind (gathers_ofOperand plain m value) fun _ => .pure _
  | retVoid => exact .bind .freshLabel fun _ => .pure _
  | throw | goto | nop | monitor => exact .pure _

end Effect

namespace ExecState

open Machine

theorem gathers_unknownResult {result : Option LocalId} (own : ∀ id ∈ result, ∀ v, U (.bind id v)) :
    (unknownResult result).Gathers U := by
  cases result with
  | none => exact .pure _
  | some id => exact .bind (gathers_unknown plain _) fun v => .emit (own id rfl v)

theorem gathers_handedResult (v : SymValue) {result : Option LocalId} (own : ∀ id ∈ result, ∀ v, U (.bind id v)) :
    (handedResult v result).Gathers U := by
  cases result with
  | none => exact .pure _
  | some id => exact .bind (gathers_declaredAs plain v _) fun v' => .emit (own id rfl v')

theorem gathers_bindParameters (ids : List LocalId) (vs : List SymValue) : (bindParameters ids vs).Gathers U := by
  induction ids generalizing vs with
  | nil => exact .pure _
  | cons id ids ih =>
    cases vs with
    | nil => exact .bind (gathers_unknown plain _) fun _ => .bind (ih []) fun _ => .pure _
    | cons v vs => exact .bind (gathers_declaredAs plain v _) fun _ => .bind (ih vs) fun _ => .pure _

theorem gathers_resumed (m : Method) (b : Body) : (resumed m b).Gathers U :=
  .mapM (fun _ => .bind (gathers_unknown plain _) fun _ => .pure _) _

end ExecState
end SinkReach
