import SinkReach.Proofs.Step.Gathering
import SinkReach.Proofs.Symbolic.Contract
import SinkReach.Proofs.Symbolic.State

/-!
Which locals a run of the machine binds. All operations but assignments to locals leave the locals alone,
so that an instruction binds none but locals of its own method, and a call or a return binds none at all.
Whatever is not bound reads the same after the updates.
-/
namespace SinkReach

variable {S : LocalId → Prop} {us : List Update} {id : LocalId}

/-- The updates bind only locals of a set. -/
def Update.BindOnly (S : LocalId → Prop) (us : List Update) : Prop :=
  ∀ id v, Update.bind id v ∈ us → S id

theorem Update.bindOnly_nil : BindOnly S [] := fun _ _ mem => nomatch mem

theorem Update.BindOnly.append {more : List Update} (h : BindOnly S us) (h' : BindOnly S more) :
    BindOnly S (us ++ more) := fun id v mem =>
  (List.mem_append.1 mem).elim (h id v) (h' id v)

/-- A local that is not bound reads as before. -/
theorem SymState.local?_updateAll (h : Update.BindOnly S us) (other : ¬ S id) (l : Label) (s : SymState) :
    (s.updateAll l us).memory.local? id = s.memory.local? id := by
  induction us generalizing l s with
  | nil => rfl
  | cons u us ih =>
    refine (ih (fun id v mem => h id v (List.mem_cons_of_mem _ mem)) _ _).trans ?_
    cases u with
    | bind id' v =>
      refine (Memory.local?_bind ..).trans (if_neg ?_)
      rintro rfl
      exact other (h id' v List.mem_cons_self)
    | constraint | allocate | store | set => rfl

theorem SymState.local?_updateAll_bind (l : Label) (s : SymState) (us : List Update) (id : LocalId)
    (v : SymValue) : (s.updateAll l (us ++ [.bind id v])).memory.local? id = some v := by
  induction us generalizing l s with
  | nil => exact (Memory.local?_bind ..).trans (if_pos rfl)
  | cons u us ih => exact ih ..

/-- A local that stands in none of the bindings reads as before. -/
theorem Memory.local?_bindAll {m : Memory} {bs : List (LocalId × SymValue)} (other : ∀ b ∈ bs, b.1 ≠ id) :
    (m.bindAll bs).local? id = m.local? id := by
  induction bs generalizing m with
  | nil => rfl
  | cons b bs ih =>
    obtain ⟨first, rest⟩ := List.forall_mem_cons.1 other
    rw [bindAll_cons, ih rest, local?_bind, if_neg first]

/-- Whatever the run gathers binds only locals of a set. -/
def Run.Binds {α : Type} (S : LocalId → Prop) (x : Run α) : Prop :=
  x.Ensures (fun M => Update.BindOnly S M.pending) (fun _ => True) fun _ => True

/-- An effect that binds no local outside a set. -/
def Update.BindsIn (S : LocalId → Prop) (u : Update) : Prop := ∀ id v, u = .bind id v → S id

theorem Update.BindsIn.plain : Plain (BindsIn S) where
  constraint _ _ _ h := nomatch h
  store _ _ _ _ _ h := nomatch h

theorem Update.BindsIn.bind (h : S id) (v : SymValue) : BindsIn S (.bind id v) := by
  intro id' v' same
  cases same
  exact h

theorem Update.BindsIn.allocate (n : Nat) : BindsIn S (.allocate n) := fun _ _ h => nomatch h

theorem Run.Gathers.binds {α : Type} {x : Run α} (h : x.Gathers (Update.BindsIn S)) : x.Binds S := by
  intro M c bound
  cases run : (x.run.run M).run c with
  | mk result c' =>
    obtain ⟨_ | a, M'⟩ := result
    · trivial
    · obtain ⟨us, eq, kinds⟩ := h M c a M' c' run
      refine ⟨?_, trivial⟩
      show Update.BindOnly S M'.pending
      rw [eq]
      exact bound.append fun id v mem => kinds _ mem id v rfl

theorem Run.Binds.of_yields {α : Type} {x : Run α} {M M' : Machine} {c c' : Context} {a : α} (h : x.Binds S)
    (run : x.Yields M c a M' c') (bound : Update.BindOnly S M.pending) : Update.BindOnly S M'.pending :=
  (Ensures.of_yields h bound run).1

open Run

namespace Effect

variable {m : Method}

/-- An instruction binds only locals of its method. -/
theorem binds_ofInstruction (own : ∀ l, S (.ofLocal m l)) (i : Instruction) : (ofInstruction m i).Binds S :=
  (gathers_ofInstruction Update.BindsIn.plain (fun l v => .bind (own l) v)
    fun _ _ n => Update.BindsIn.allocate n).binds

theorem binds_arguments (m : Method) (call : Invoke) : (arguments m call).Binds S :=
  (gathers_arguments Update.BindsIn.plain m call).binds

variable {i : Instruction} {M M' : Machine} {c c' : Context}

/-- A call binds nothing itself, and its result goes to a local of the method. -/
theorem yields_call {callee : Method} {vs : List SymValue} {result : Option LocalId}
    (run : (ofInstruction m i).Yields M c (.call callee vs result) M' c') :
    (Update.BindOnly S M.pending → Update.BindOnly S M'.pending) ∧ ∀ id ∈ result, id.method = m := by
  cases called : i.call? with
  | none => exact absurd rfl (ofInstruction_ne_call called run callee vs result)
  | some _ =>
    cases i with
    | assign place value =>
      cases value with
      | invoke call =>
        cases place with
        | loc l =>
          obtain ⟨_, _, _, arguments, run⟩ := yields_bind.1 run
          obtain ⟨same, rfl, rfl⟩ := yields_pure.1 run
          cases same
          refine ⟨(binds_arguments m call).of_yields arguments, fun id mem => ?_⟩
          cases mem
          rfl
        | instanceField | staticField | arrayElement => exact absurd run not_yields_throw
      | _ => cases called
    | invoke call =>
      obtain ⟨_, _, _, arguments, run⟩ := yields_bind.1 run
      obtain ⟨same, rfl, rfl⟩ := yields_pure.1 run
      cases same
      exact ⟨(binds_arguments m call).of_yields arguments, fun _ mem => nomatch mem⟩
    | _ => cases called

/-- A return binds nothing. -/
theorem yields_ret {v : SymValue} (run : (ofInstruction m i).Yields M c (.ret v) M' c') :
    (Update.BindOnly S M.pending → Update.BindOnly S M'.pending) ∧ i.way = .out := by
  have callFree : i.call? = none := by
    cases i with
    | assign place value =>
      cases value with
      | invoke call =>
        cases place with
        | loc l =>
          obtain ⟨_, _, _, -, run⟩ := yields_bind.1 run
          cases (yields_pure.1 run).1
        | instanceField | staticField | arrayElement => exact absurd run not_yields_throw
      | _ => rfl
    | invoke call =>
      obtain ⟨_, _, _, -, run⟩ := yields_bind.1 run
      cases (yields_pure.1 run).1
    | _ => rfl
  have way : i.way = .out := (Option.some.inj (ofInstruction_way callFree run)).symm
  refine ⟨?_, way⟩
  cases i with
  | ret value =>
    have gathers : (ofInstruction m (.ret value)).Gathers (Update.BindsIn S) :=
      .bind (gathers_ofOperand Update.BindsIn.plain m value) fun _ => .pure _
    exact gathers.binds.of_yields run
  | retVoid =>
    have gathers : (ofInstruction m .retVoid).Gathers (Update.BindsIn S) := .bind .freshLabel fun _ => .pure _
    exact gathers.binds.of_yields run
  | _ => cases way

end Effect

namespace ExecState

open Machine

theorem binds_unknownResult {result : Option LocalId} (h : ∀ id ∈ result, S id) :
    (unknownResult result).Binds S :=
  (gathers_unknownResult Update.BindsIn.plain fun id mem => .bind (h id mem)).binds

theorem binds_bindParameters (ids : List LocalId) (vs : List SymValue) : (bindParameters ids vs).Binds S :=
  (gathers_bindParameters Update.BindsIn.plain ids vs).binds

variable {M M' : Machine} {c c' : Context}

/-- The bindings of parameters are those of the locals given. -/
theorem bindParameters_ids {ids : List LocalId} {vs : List SymValue} {bs : List (LocalId × SymValue)}
    (run : (bindParameters ids vs).Yields M c bs M' c') : bs.map (·.1) = ids := by
  induction ids generalizing vs bs M c M' c' with
  | nil =>
    obtain ⟨rfl, -, -⟩ := yields_pure.1 run
    rfl
  | cons id ids ih =>
    cases vs with
    | nil | cons =>
      obtain ⟨v, _, _, -, run⟩ := yields_bind.1 run
      obtain ⟨bs', _, _, others, run⟩ := yields_bind.1 run
      obtain ⟨rfl, -, -⟩ := yields_pure.1 run
      rw [List.map_cons, ih others]

/-- What a return hands over is the value as the local's type has it, and nothing else is bound. -/
theorem yields_handedResult {v : SymValue} {result : Option LocalId} {s : SymState}
    (run : (handedResult v result).Yields (.start s) c () M' c') :
    Update.BindOnly (· ∈ result) M'.pending ∧ ∀ id ∈ result, ∃ v' M₁,
      (declaredAs v id.ty).Yields (.start s) c v' M₁ c' ∧ M'.pending = M₁.pending ++ [.bind id v'] := by
  cases result with
  | none =>
    obtain ⟨-, rfl, -⟩ := yields_pure.1 run
    exact ⟨Update.bindOnly_nil, fun _ mem => nomatch mem⟩
  | some id =>
    have binds : (handedResult v (some id)).Binds (· ∈ some id) :=
      (gathers_handedResult Update.BindsIn.plain v fun _ mem => .bind mem).binds
    refine ⟨binds.of_yields run Update.bindOnly_nil, fun id' mem => ?_⟩
    cases mem
    obtain ⟨v', M₁, c₁, declared, run⟩ := yields_bind.1 run
    obtain ⟨rfl, rfl⟩ := yields_modify.1 run
    exact ⟨v', M₁, declared, rfl⟩

end ExecState
end SinkReach
