import SinkReach.Proofs.Simulation.Machine
import SinkReach.Step.Effect

/-!
An instruction performed on twin states has twin effects. Only a declaration may be performed
differently, namely where the left run has bound the local already; it is treated by itself.
-/
namespace SinkReach

/-- Effects that ask the same of control flow under twin conditions. -/
inductive TwinEffect (S : Scene) (κ : Links) : Effect → Effect → Prop
  | goOn : TwinEffect S κ .goOn .goOn
  | parameter {id : LocalId} : TwinEffect S κ (.parameter id) (.parameter id)
  | branch {a a' b b' : Term} {target : InstrId} : Plain S κ .bool a a' → Plain S κ .bool b b' →
    TwinEffect S κ (.branch a b target) (.branch a' b' target)
  | switch {cases cases' : List (Term × InstrId)} :
    List.Forall₂ (fun x x' => Plain S κ .bool x.1 x'.1 ∧ x.2 = x'.2) cases cases' →
    TwinEffect S κ (.switch cases) (.switch cases')
  | ret {v v' : SymValue} : TwinEffect S κ (.ret v) (.ret v')

variable {S : Scene} {κ : Links} {s s' : SymState} {m : Method}

namespace Agree

theorem freshLabels (n n' : Nat) : Agree S κ s s' (SinkReach.freshLabels n : Run Label)
    (SinkReach.freshLabels n') fun _ _ _ => True := by
  constructor
  intro M M' c c' meets a b M₁ M₁' c₁ c₁' run run'
  obtain ⟨-, rfl, rfl⟩ := Run.yields_context.1 run
  obtain ⟨-, rfl, rfl⟩ := Run.yields_context.1 run'
  exact ⟨κ, κ.le_refl, .relabel .., trivial, meets.relink κ.le_refl (meets.tidy.relabel ..)⟩

theorem mapM {α β γ : Type} {f : α → Run β} {f' : α → Run γ} {post : Links → β → γ → Prop}
    (mono : ∀ κ₁ κ₂ b b', κ₁ ≤ κ₂ → post κ₁ b b' → post κ₂ b b') (xs : List α)
    (h : ∀ x ∈ xs, ∀ κ₁, κ ≤ κ₁ → Agree S κ₁ s s' (f x) (f' x) post) :
    Agree S κ s s' (xs.mapM f) (xs.mapM f') fun κ₁ => List.Forall₂ (post κ₁) := by
  induction xs generalizing κ with
  | nil =>
    rw [List.mapM_nil, List.mapM_nil]
    exact pure .nil
  | cons x xs ih =>
    rw [List.mapM_cons, List.mapM_cons]
    refine (h x List.mem_cons_self κ κ.le_refl).bind fun κ₁ le b b' head => ?_
    refine (ih fun y hy κ₂ le' => h y (List.mem_cons_of_mem _ hy) κ₂ (Links.le_trans le le')).bind
      fun κ₂ le' bs bs' tail => ?_
    exact pure (.cons (mono κ₁ κ₂ b b' le' head) tail)

theorem ofLocal (l : Local) :
    Agree S κ s s' (Effect.ofLocal m l) (Effect.ofLocal m l) (TwinOf S l.ty) := by
  refine (local? (.ofLocal m l)).bind fun κ₁ _ o o' ⟨both, _⟩ => ?_
  cases o with
  | none => exact throw_left
  | some v =>
    cases o' with
    | none => exact throw_right
    | some v' => exact pure (both v v' rfl rfl)

theorem ofOperand (o : Operand) :
    Agree S κ s s' (Effect.ofOperand m o) (Effect.ofOperand m o) (TwinOf S o.ty) := by
  cases o with
  | loc l => exact ofLocal l
  | const k => exact constant k

/-- Twin values, whatever their type. -/
theorem value {ty : Ty} {x x' : Run SymValue} (h : Agree S κ s s' x x' (TwinOf S ty)) :
    Agree S κ s s' x x' (TwinValue S) := h.imp fun _ _ _ _ twin => twin.2

theorem ofRvalue {r : Rvalue} (fields : ∀ f ∈ r.fields, S.fields f)
    (primitive : r.hasPrimitiveResults = true) (equality : r.comparesReferences = true)
    (objects : r.makesObjects = true) :
    Agree S κ s s' (Effect.ofRvalue m r) (Effect.ofRvalue m r) (TwinValue S) := by
  cases r with
  | use a => exact (ofOperand a).value
  | binary op a b ty =>
    refine (ofOperand a).bind fun κ₁ _ v v' ⟨tv, hv⟩ => ?_
    refine (ofOperand b).bind fun κ₂ le w w' ⟨tw, hw⟩ => ?_
    refine (binary (hv.mono le) hw primitive fun kv kw => ?_).value
    rw [tv] at kv
    rw [tw] at kw
    simpa [Rvalue.comparesReferences, kv, kw] using equality
  | neg a => exact (ofOperand a).bind fun κ₁ _ v v' h => (negate h.2).value
  | cast a ty => exact (ofOperand a).bind fun κ₁ _ v v' h => (cast h.2 ty).value
  | instanceOf a ty => exact (unknown .boolean).value
  | new ty =>
    refine (allocate ?_).value
    cases ty with
    | ref | array => rfl
    | _ => cases objects
  | newArray element size => exact (unknown (.array element)).value
  | length a => exact (unknown .int).value
  | instanceField base f =>
    refine (ofLocal base).bind fun κ₁ _ v v' h => ?_
    exact (readField h.2 (fields f List.mem_cons_self)).value
  | staticField f => exact (readStatic (fields f List.mem_cons_self)).value
  | arrayElement base index ty => exact (unknown ty).value
  | invoke call => exact throw_left

theorem assign {place : Place} (fields : ∀ f ∈ place.fields, S.fields f) {value value' : Run SymValue}
    (h : ∀ κ₁, κ ≤ κ₁ → Agree S κ₁ s s' value value' (TwinValue S)) :
    Agree S κ s s' (Effect.assign m place value) (Effect.assign m place value') fun _ _ _ => True := by
  cases place with
  | loc l =>
    refine (h κ κ.le_refl).bind fun κ₁ _ v v' twin => ?_
    exact (declaredAs twin l.ty).bind fun κ₂ _ w w' ⟨ty, twin⟩ => emit (.bind ty twin)
  | instanceField base f =>
    refine (ofLocal base).bind fun κ₁ le b b' hb => ?_
    refine (h κ₁ le).bind fun κ₂ le' v v' twin => ?_
    exact writeField (fields f List.mem_cons_self) (hb.2.mono le') twin
  | staticField f =>
    exact (h κ κ.le_refl).bind fun κ₁ _ v v' twin => writeStatic (fields f List.mem_cons_self) twin
  | arrayElement base index => exact (h κ κ.le_refl).bind fun κ₁ _ _ _ _ => pure trivial

theorem keyTest {key key' : SymValue} (h : TwinValue S κ key key') (op : Operator) (n : Int) :
    Agree S κ s s' (Effect.keyTest key op n) (Effect.keyTest key' op n)
      fun κ₁ t t' => Plain S κ₁ .bool t t' := by
  refine (constant (.int n)).bind fun κ₁ le v v' ⟨ty, hv⟩ => ?_
  refine (binary (h.mono le) hv rfl fun _ reference => ?_).bind fun κ₂ _ w w' ⟨_, hw⟩ => condition hw
  rw [ty] at reference
  cases reference

theorem keyHits {key key' : SymValue} (h : TwinValue S κ key key') (values : List Int) :
    Agree S κ s s' (Effect.keyHits key values) (Effect.keyHits key' values)
      fun κ₁ => List.Forall₂ (Plain S κ₁ .bool) :=
  mapM (fun _ _ _ _ le twin => twin.mono le) values fun n _ _ le => keyTest (h.mono le) .eq n

/-- Cases of a switch and the condition of its default. -/
abbrev TwinCases (S : Scene) (κ : Links) (x x' : List (Term × InstrId) × Term) : Prop :=
  List.Forall₂ (fun x x' => Plain S κ .bool x.1 x'.1 ∧ x.2 = x'.2) x.1 x'.1 ∧
    Plain S κ .bool x.2 x'.2

theorem zip_targets {hits hits' : List Term} (h : List.Forall₂ (Plain S κ .bool) hits hits')
    (targets : List InstrId) :
    List.Forall₂ (fun x x' => Plain S κ .bool x.1 x'.1 ∧ x.2 = x'.2) (hits.zip targets)
      (hits'.zip targets) := by
  induction h generalizing targets with
  | nil => exact .nil
  | cons head _ ih =>
    cases targets with
    | nil => exact .nil
    | cons target targets => exact .cons ⟨head, rfl⟩ (ih targets)

/-- No case is hit. -/
theorem misses {hits hits' : List Term} (h : List.Forall₂ (Plain S κ .bool) hits hits')
    (l l' k k' : Nat) : List.Forall₂ (Plain S κ .bool)
      ((hits.zipIdx k).map fun (t, i) => Term.not (l + 1 + i) t)
      ((hits'.zipIdx k').map fun (t, i) => Term.not (l' + 1 + i) t) := by
  induction h generalizing k k' with
  | nil => exact .nil
  | cons head _ ih => exact .cons head.not (ih (k + 1) (k' + 1))

theorem switchCases {key key' : SymValue} (h : TwinValue S κ key key') (table : SwitchTable) :
    Agree S κ s s' (Effect.switchCases key table) (Effect.switchCases key' table)
      (TwinCases S) := by
  cases table with
  | table low high targets =>
    unfold Effect.switchCases
    simp only
    split
    · exact throw_left
    · refine (keyHits h _).bind fun κ₁ le hits hits' twin => ?_
      refine (keyTest (h.mono le) .lt low).bind fun κ₂ le₂ below below' hb => ?_
      refine (keyTest (h.mono (Links.le_trans le le₂)) .gt high).bind fun κ₃ le₃ above above' ha => ?_
      refine freshLabel.bind fun κ₄ le₄ l l' _ => pure ⟨?_, ?_⟩
      · have le₅ := Links.le_trans le₂ (Links.le_trans le₃ le₄)
        exact zip_targets (twin.imp fun _ _ plain => plain.mono le₅) targets
      · exact (hb.mono (Links.le_trans le₃ le₄)).or (ha.mono le₄)
  | lookup values targets =>
    unfold Effect.switchCases
    simp only
    split
    · exact throw_left
    · refine (keyHits h values).bind fun κ₁ le hits hits' twin => ?_
      refine (freshLabels _ _).bind fun κ₂ le₂ l l' _ => ?_
      have twin := twin.imp fun _ _ plain => plain.mono le₂
      exact pure ⟨zip_targets twin targets, Twin.join (misses twin l l' 0 0)⟩

end Agree

/-- The fields that an instruction uses are those of the scene, and its expression keeps to the types. -/
structure Instruction.Regular (S : Scene) (i : Instruction) : Prop where
  callFree : i.call? = none
  fields : ∀ f ∈ i.fields, S.fields f
  primitive : ∀ r, i.rvalue? = some r → r.hasPrimitiveResults = true
  equality : ∀ r, i.rvalue? = some r → r.comparesReferences = true
  objects : ∀ r, i.rvalue? = some r → r.makesObjects = true

theorem Effect.ofInstruction_assign (m : Method) (place : Place) {value : Rvalue}
    (other : ∀ call, value ≠ .invoke call) : Effect.ofInstruction m (.assign place value) = (do
      assign m place (ofRvalue m value)
      return goOn) := by
  cases value with
  | invoke call => exact absurd rfl (other call)
  | _ => cases place <;> rfl

namespace Agree

/-- Every instruction but a declaration has twin effects. -/
theorem ofInstruction {i : Instruction} (h : i.Regular S) (other : ∀ l source, i ≠ .identity l source) :
    Agree S κ s s' (Effect.ofInstruction m i) (Effect.ofInstruction m i) (TwinEffect S) := by
  cases i with
  | identity l source => exact absurd rfl (other l source)
  | assign place value =>
    have run : ∀ κ₁, κ ≤ κ₁ → Agree S κ₁ s s' (Effect.ofRvalue m value) (Effect.ofRvalue m value)
        (TwinValue S) := fun κ₁ _ => ofRvalue (fun f hf => h.fields f (List.mem_append_right _ hf))
      (h.primitive value rfl) (h.equality value rfl) (h.objects value rfl)
    have other : ∀ call, value ≠ .invoke call := by
      rintro call rfl
      cases h.callFree
    rw [Effect.ofInstruction_assign m place other]
    exact (assign (fun f hf => h.fields f (List.mem_append_left _ hf)) run).bind
      fun _ _ _ _ _ => pure .goOn
  | branch condition target =>
    refine (ofRvalue h.fields (h.primitive _ rfl) (h.equality _ rfl) (h.objects _ rfl)).bind
      fun κ₁ _ v v' hv => ?_
    refine (Agree.condition hv).bind fun κ₂ _ t t' plain => ?_
    refine freshLabel.bind fun κ₃ le l l' _ => pure (.branch (plain.mono le) (plain.mono le).not)
  | switch key table default =>
    refine (ofOperand key).bind fun κ₁ _ v v' hv => ?_
    refine (switchCases hv.2 table).bind fun κ₂ _ x x' ⟨cases, otherwise⟩ => ?_
    exact pure (.switch (List.rel_append cases (.cons ⟨otherwise, rfl⟩ .nil)))
  | invoke call => exact nomatch h.callFree
  | ret value => exact (ofOperand value).bind fun _ _ _ _ _ => pure .ret
  | retVoid => exact freshLabel.bind fun _ _ _ _ _ => pure .ret
  | throw | goto | nop | monitor => exact pure .goOn

end Agree
end SinkReach
