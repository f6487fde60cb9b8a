import SinkReach.Proofs.Step.Jumping
import SinkReach.Proofs.Step.Transition

/-!
Branches and switches split what can happen. Whatever satisfies a state and what its instruction assumes
satisfies just one of the states that follow. It is the one where the program would have jumped to, unless a
branch puts a truth value beside a number that is neither zero nor one: the machine compares the numbers, and
the state that follows is chosen by the truth value that the number is not zero.
-/
namespace SinkReach

theorem SymState.satisfied_assume {σ : Assignment} {s : SymState} {c : Term} :
    (s.assume c).Satisfied σ ↔ s.Satisfied σ ∧ c.denote σ.valuation = some (.bool true) := by
  rw [Satisfied, assume, List.forall_mem_append, List.forall_mem_singleton, Term.holds_iff_denote]
  rfl

theorem SymState.satisfied_updateAll {σ : Assignment} {s : SymState} {us : List Update} {l : Label} :
    (s.updateAll l us).Satisfied σ ↔ s.Satisfied σ ∧ ∀ t ∈ Update.conditions us, t.Holds σ := by
  rw [Satisfied, constraints_updateAll, List.forall_mem_append]
  rfl

namespace ExecState

variable {σ : Assignment} {n : Node} {ns : List Node} {fs : List ExecState}

/-- Of the states just one is satisfied, and it stands at the node. -/
def OnlyAt (σ : Assignment) (n : Node) (fs : List ExecState) : Prop :=
  ∃ before f after, fs = before ++ f :: after ∧ f.node = n ∧ f.symbolic.Satisfied σ ∧
    ∀ g ∈ before ++ after, ¬ g.symbolic.Satisfied σ

theorem onlyAt_of_nodes (nodes : fs.map (·.node) = ns) (nodup : ns.Nodup) (mem : n ∈ ns)
    (satisfied : ∀ f ∈ fs, f.symbolic.Satisfied σ ↔ f.node = n) : OnlyAt σ n fs := by
  subst nodes
  obtain ⟨f, listed, rfl⟩ := List.mem_map.1 mem
  obtain ⟨before, after, rfl⟩ := List.append_of_mem listed
  refine ⟨before, f, after, rfl, rfl, (satisfied f listed).2 rfl, fun g other holds => ?_⟩
  have also : g ∈ before ++ f :: after := by
    simp only [List.mem_append, List.mem_cons] at other ⊢
    tauto
  have same := (satisfied g also).1 holds
  rw [List.map_append, List.map_cons, List.nodup_append, List.nodup_cons] at nodup
  obtain ⟨-, ⟨fresh, -⟩, apart⟩ := nodup
  rcases List.mem_append.1 other with earlier | later
  · exact apart _ (List.mem_map_of_mem earlier) _ List.mem_cons_self same
  · exact fresh (same ▸ List.mem_map_of_mem (f := (·.node)) later)

/-- The only state satisfied stands at one node. -/
theorem OnlyAt.unique {k : Node} (h : OnlyAt σ n fs) (h' : OnlyAt σ k fs) : n = k := by
  obtain ⟨before, f, after, rfl, rfl, -, others⟩ := h
  obtain ⟨before', g, after', same, rfl, holds, -⟩ := h'
  have listed : g ∈ before ++ f :: after := by
    rw [same]
    exact List.mem_append_right _ List.mem_cons_self
  by_contra apart
  refine others g ?_ holds
  simp only [List.mem_append, List.mem_cons] at listed ⊢
  rcases listed with earlier | rfl | later
  · exact .inl earlier
  · exact absurd rfl apart
  · exact .inr later

section Successors

variable {w w' : World} {x f : ExecState} {b : Body} {inst : Instance ExecState} {us : List Update}
  {t : SymState} {cases : List (Term × InstrId)} {condition : Term} {l : Label} {i target : InstrId} {r : Bool}

theorem successors_whole {s : Instances ExecState} (placed : s.of n = .ok inst) (whole : inst.graph = b.graph)
    (found : s.successors n = .ok ns) :
    ns.Nodup ∧ ∀ j, n.withInstr j ∈ ns ↔ j ∈ b.successorsOf n.instr := by
  obtain ⟨inst', placed', rest⟩ := except_bind_ok.1 found
  cases placed.symm.trans placed'
  cases rest
  have injective : Function.Injective n.withInstr := fun i j same => congrArg Node.instr same
  refine ⟨List.Nodup.map injective (whole ▸ b.graph_within.nodup_successors n.instr), fun j => ?_⟩
  rw [List.mem_map_of_injective injective, whole]
  exact Body.graph_edge

theorem eq_withInstr_iff {s : Instances ExecState} {k : Node} (found : s.successors n = .ok ns) (mem : k ∈ ns)
    (j : InstrId) : k = n.withInstr j ↔ k.instr = j := by
  constructor
  · intro same
    exact congrArg Node.instr same
  · intro same
    rw [← same]
    exact Instances.eq_withInstr_of_mem found mem

theorem AfterSwitch.nodes (h : AfterSwitch x t cases ns fs) : fs.map (·.node) = ns := by
  induction h with
  | nil => rfl
  | cons l _ _ ih => exact congrArg₂ List.cons rfl ih

/-- After a switch only the state at the target chosen is satisfied. -/
theorem afterSwitch_onlyAt (h : (x.afterSwitch us cases).run.run w = (.ok fs, w'))
    (placed : w.calls.of x.node = .ok inst) (whole : inst.graph = b.graph)
    (edge : target ∈ b.successorsOf x.node.instr) (chosen : Effect.Chosen σ.valuation cases target)
    (updated : ∀ l, (x.symbolic.updateAll l us).Satisfied σ) : OnlyAt σ (x.node.withInstr target) fs := by
  obtain ⟨ns, labels, found, -, after⟩ := afterSwitch_ok h
  obtain ⟨nodup, edges⟩ := successors_whole placed whole found
  apply onlyAt_of_nodes (AfterSwitch.nodes after) nodup ((edges target).2 edge)
  intro f mem
  obtain ⟨k, listed, l, rfl⟩ := AfterSwitch.mem after mem
  apply SymState.satisfied_assume.trans
  rw [and_iff_right (updated _), chosen.denote_orAll_iff l k.instr]
  exact (eq_withInstr_iff found listed target).symm

/-- The condition of a side of a branch is true if and only if that is the side the branch takes. -/
theorem denote_side {next : InstrId} (differ : target ≠ next) (value : condition.denote σ.valuation = some (.bool r))
    (side : i = next ∨ i = target) :
    (if i = target then condition else .not l condition).denote σ.valuation = some (.bool true) ↔
      i = if r then target else next := by
  by_cases taken : i = target
  · rw [if_pos taken, value, taken]
    cases r with
    | true => simp
    | false => simp [differ]
  · rw [if_neg taken, Term.denote_not_iff, value, side.resolve_right taken]
    cases r with
    | true => simpa using differ.symm
    | false => simp

/-- After a branch only the state on the side of the condition's value is satisfied. -/
theorem afterBranch_onlyAt
    (h : (x.afterBranch us b condition (.not l condition) target).run.run w = (.ok fs, w'))
    (placed : w.calls.of x.node = .ok inst) (whole : inst.graph = b.graph)
    (targets : b.successorsOf x.node.instr = firstOnly [x.node.instr + 1, target])
    (value : condition.denote σ.valuation = some (.bool r))
    (updated : ∀ l, (x.symbolic.updateAll l us).Satisfied σ) :
    OnlyAt σ (x.node.withInstr (if r then target else x.node.instr + 1)) fs := by
  obtain ⟨ns, found, -, rfl⟩ := afterBranch_ok h
  obtain ⟨nodup, edges⟩ := successors_whole placed whole found
  have sides (j : InstrId) : j ∈ b.successorsOf x.node.instr ↔ j = x.node.instr + 1 ∨ j = target := by
    rw [targets, mem_firstOnly_iff, List.mem_cons, List.mem_singleton]
  have nodes {state : Node → SymState} : (ns.map fun k => x.advance k (state k)).map (·.node) = ns := by
    rw [List.map_map]
    exact List.map_id ns
  apply onlyAt_of_nodes nodes nodup
  · apply (edges _).2
    apply (sides _).2
    cases r with
    | true => exact .inr rfl
    | false => exact .inl rfl
  · intro f mem
    obtain ⟨k, listed, rfl⟩ := List.mem_map.1 mem
    have edge := (edges k.instr).1 (Instances.eq_withInstr_of_mem found listed ▸ listed)
    have side := (sides k.instr).1 edge
    apply Iff.trans _ (eq_withInstr_iff found listed _).symm
    show (if _ then _ else _ : SymState).Satisfied σ ↔ _
    by_cases falls : target = x.node.instr + 1
    · -- The branch leads to the next instruction either way, and no condition is assumed.
      have only : b.successorsOf x.node.instr = [target] := by simp [targets, falls, firstOnly]
      rw [only] at edge
      rw [if_pos only, ← falls, ite_self]
      exact iff_of_true (updated _) (List.mem_singleton.1 edge)
    · have several : b.successorsOf x.node.instr ≠ [target] := by
        intro only
        have next := (sides (x.node.instr + 1)).2 (.inl rfl)
        rw [only] at next
        exact falls (List.mem_singleton.1 next).symm
      rw [if_neg several, SymState.satisfied_assume, and_iff_right (updated _)]
      exact denote_side falls value side

end Successors

end ExecState

/-- Branches that are not last, and switches over numbers no wider than an `int`. -/
def Instruction.splits (count : Nat) (i : InstrId) : Instruction → Bool
  | branch _ _ => decide (i + 1 < count)
  | switch key table _ => key.ty.isIntegral && table.isProper
  | _ => false

namespace ExecState

variable {F : Field → Prop} {q : Query} {limit : Nat} {b : Body} {inst : Instance ExecState} {i : Instruction}
  {x : ExecState} {w w' : World} {fs : List ExecState}

theorem satisfied_pending {us : List Update} {σ : Assignment} (satisfied : x.symbolic.Satisfied σ)
    (assumed : ∀ t ∈ Update.conditions us, t.Holds σ) (l : Label) : (x.symbolic.updateAll l us).Satisfied σ :=
  SymState.satisfied_updateAll.2 ⟨satisfied, assumed⟩

/-- The states that follow a branch stand on its sides, and the condition's value says which one is satisfied. -/
theorem next_branch {condition : Rvalue} {target : InstrId} (body : q.body x.node.method = .ok b)
    (derived : b.successors = deriveSuccessors b.instructions)
    (found : b.instruction? x.node.instr = some (.branch condition target)) (next : x.node.instr + 1 < b.length)
    (placed : w.calls.of x.node = .ok inst) (whole : inst.graph = b.graph)
    (step : (x.next q limit).run.run w = (.ok fs, w')) :
    ∃ e M c v t c₁, (Effect.ofInstruction x.node.method (.branch condition target)).Yields (.start x.symbolic) w.context
        e M c ∧
      (Effect.ofRvalue x.node.method condition).Yields (.start x.symbolic) w.context v M c₁ ∧
      Machine.condition v = .ok t ∧
      ∀ (σ : Assignment) (r : Bool), x.symbolic.Satisfied σ → (∀ t ∈ Update.conditions M.pending, t.Holds σ) →
        t.denote σ.valuation = some (.bool r) →
        OnlyAt σ (x.node.withInstr (if r then target else x.node.instr + 1)) fs := by
  obtain ⟨b', i', e, M, c, body', found', run, rest⟩ := next_ok step
  cases body.symm.trans body'
  cases found.symm.trans found'
  obtain ⟨v, t, l, c₁, evaluated, bool, rfl⟩ := Effect.yields_branch run
  refine ⟨_, M, c, v, t, c₁, run, evaluated, bool, fun σ r satisfied assumed value => ?_⟩
  refine afterBranch_onlyAt rest placed whole ?_ value (satisfied_pending satisfied assumed)
  rw [Body.successorsOf_derived derived found, Instruction.targets, if_pos next, List.singleton_append]

/-- The states that follow a branch or a switch split the assignments that satisfy the state and what the
instruction assumes: each of them satisfies just one, at one of the instruction's targets. That is where the
program jumps to, and it does so whatever is assigned if the instruction is a test, unless a truth value stands
beside a number that is none. -/
theorem next_splits (body : q.body x.node.method = .ok b)
    (derived : b.successors = deriveSuccessors b.instructions) (found : b.instruction? x.node.instr = some i)
    (splits : i.splits b.length x.node.instr = true) (placed : w.calls.of x.node = .ok inst)
    (whole : inst.graph = b.graph) (state : x.symbolic.WellTyped F)
    (step : (x.next q limit).run.run w = (.ok fs, w')) :
    ∃ e M c vs, (Effect.ofInstruction x.node.method i).Yields (.start x.symbolic) w.context e M c ∧
      Effect.Reads x.node.method x.symbolic w.context i vs ∧
      ∀ σ : Assignment, σ.WellSorted (vs.map (·.term)) → x.symbolic.Satisfied σ →
        (∀ t ∈ Update.conditions M.pending, t.Holds σ) →
        (∃ j ∈ i.targets b.length x.node.instr, OnlyAt σ (x.node.withInstr j) fs) ∧
        (i.tests = true → ∃ j, Effect.Jumps x.node.method x.symbolic w.context σ x.node.instr i j) ∧
        ∀ j, Effect.Jumps x.node.method x.symbolic w.context σ x.node.instr i j →
          ¬ Effect.Blurred x.node.method x.symbolic w.context σ i → OnlyAt σ (x.node.withInstr j) fs := by
  cases i with
  | branch condition target =>
    have next : x.node.instr + 1 < b.length := of_decide_eq_true splits
    obtain ⟨e, M, c, v, t, c₁, run, evaluated, bool, only⟩ := next_branch body derived found next placed whole step
    obtain ⟨vs, M₁, c₂, operands⟩ := Effect.exists_reads evaluated
    refine ⟨e, M, c, v :: vs, run, .branch evaluated operands, fun σ bound satisfied assumed => ⟨?_, ?_, ?_⟩⟩
    · obtain ⟨-, sorted⟩ := (Effect.ensures_ofRvalue_sorted _ condition).of_yields (.start state) evaluated
      obtain ⟨rfl, sort⟩ := Machine.condition_ok bool
      obtain ⟨r, value⟩ := bound.condition List.mem_cons_self ⟨sort, sorted⟩
      refine ⟨_, ?_, only σ r satisfied assumed value⟩
      rw [Instruction.targets, if_pos next, List.singleton_append, mem_firstOnly_iff]
      cases r with
      | true => exact List.mem_cons_of_mem _ List.mem_cons_self
      | false => exact List.mem_cons_self
    · intro tests
      exact Effect.exists_jumps state tests evaluated bool operands bound
    · intro j jumps clear
      obtain ⟨r, rfl, value⟩ := jumps.denote state evaluated bool clear
      exact only σ r satisfied assumed value
  | switch key table default =>
    obtain ⟨b', i', e, M, c, body', found', run, rest⟩ := next_ok step
    cases body.symm.trans body'
    cases found.symm.trans found'
    obtain ⟨integral, proper⟩ := Bool.and_eq_true_iff.1 splits
    obtain ⟨v, r, M₁, c₁, evaluated, tested, rfl⟩ := Effect.yields_switch run
    obtain ⟨k, u, rfl, sorted⟩ := Effect.integer_of_key state evaluated integral
    refine ⟨_, M, c, _, run, .switch evaluated, fun σ bound satisfied assumed => ?_⟩
    obtain ⟨n, shows⟩ := IntegerTy.exists_shows sorted bound
    have only {j : InstrId} (jumps : Effect.Jumps x.node.method x.symbolic w.context σ x.node.instr
        (.switch key table default) j) :
        j ∈ table.targets ++ [default] ∧ OnlyAt σ (x.node.withInstr j) fs := by
      obtain ⟨edge, chosen⟩ := jumps.chosen proper sorted evaluated tested
      refine ⟨edge, afterSwitch_onlyAt rest placed whole ?_ chosen (satisfied_pending satisfied assumed)⟩
      rw [Body.successorsOf_derived derived found, Instruction.targets, mem_firstOnly_iff]
      exact edge
    refine ⟨?_, fun _ => ⟨_, .switch evaluated shows⟩, fun j jumps _ => (only jumps).2⟩
    obtain ⟨edge, alone⟩ := only (.switch evaluated shows)
    exact ⟨_, mem_firstOnly_iff.2 edge, alone⟩
  | _ => cases splits

section FirstInstruction

/-- A path that asks for the second instruction of a body. -/
def firstQuery (b : Body) : Query where
  program := .ofBodies [b] []
  path := ⟨[⟨.sink, b.method, 1, none, none⟩], List.cons_ne_nil _ _⟩

/-- A body is entered with one local known. -/
def firstState (b : Body) (x : Local) (v : SymValue) : ExecState :=
  { initial ⟨0, b.method, 0⟩ with symbolic := ⟨[], .bind .empty (.ofLocal b.method x) v, 1⟩ }

def firstWorld (b : Body) : World := ⟨⟨[⟨b.method, b.graph, {}⟩]⟩, {}⟩

variable {b : Body} {x : Local} {v : SymValue}

theorem exists_next (succeeds : (((firstState b x v).next (firstQuery b) 1).run.run (firstWorld b)).1.toOption.isSome) :
    ∃ fs w', ((firstState b x v).next (firstQuery b) 1).run.run (firstWorld b) = (.ok fs, w') := by
  revert succeeds
  rcases ((firstState b x v).next (firstQuery b) 1).run.run (firstWorld b) with ⟨_ | fs, w'⟩
  · exact fun none => nomatch none
  · exact fun _ => ⟨fs, w', rfl⟩

/-- An effect that buffers no conditions assumes nothing. -/
theorem assumes_nothing {α : Type} {run : Run α} {a : α} {M M' : Machine} {c c' : Context} (h : run.Yields M c a M' c')
    (none : (Update.conditions ((run.run.run M).run c).1.2.pending).isEmpty = true) :
    ∀ t ∈ Update.conditions M'.pending, t.Holds σ := by
  rw [h, List.isEmpty_iff] at none
  rw [none]
  exact List.forall_mem_nil _

end FirstInstruction

section Letters

/-- Two of the three ways of the switch lead to one target. -/
def spellingBody : Body where
  method := ⟨"A", "spell", [.char], .void⟩
  locals := [⟨"k", .char⟩]
  instructions := [.switch (.loc ⟨"k", .char⟩) (.table 97 98 [1, 2]) 1, .retVoid, .retVoid]
  successors := [[1, 2], [], []]
  nonempty := List.cons_ne_nil _ _
  successors_length := rfl
  edges_lt := by decide

def spellingKey : SymValue := .primitive .char (.var 1 "letter" (.bitVec 16))

def spellingState : ExecState := firstState spellingBody ⟨"k", .char⟩ spellingKey

def letterB : Assignment := .ofList [("letter", .bitVec 98 16)]

/-- With the second letter for its key the switch goes to its second target only. -/
theorem next_splits_letters :
    ∃ fs w', (spellingState.next (firstQuery spellingBody) 1).run.run (firstWorld spellingBody) = (.ok fs, w') ∧
      OnlyAt letterB ⟨0, spellingBody.method, 2⟩ fs := by
  obtain ⟨fs, w', step⟩ := exists_next (b := spellingBody) (x := ⟨"k", .char⟩) (v := spellingKey) (by decide +kernel)
  have memory : spellingState.symbolic.memory.WellTyped fun _ => True :=
    Memory.WellTyped.empty.bind (.primitive rfl (.var "letter" rfl))
  have state : spellingState.symbolic.WellTyped fun _ => True := ⟨memory, List.forall_mem_nil _⟩
  obtain ⟨e, M, c, vs, run, reads, only⟩ := next_splits rfl rfl rfl rfl rfl rfl state step
  have key : (Effect.ofOperand spellingBody.method (.loc ⟨"k", .char⟩)).Yields (.start spellingState.symbolic)
      (firstWorld spellingBody).context spellingKey (.start spellingState.symbolic)
      (firstWorld spellingBody).context := rfl
  obtain rfl : vs = [spellingKey] := by
    cases reads with
    | switch run' => rw [(run'.unique key).1]
  have sorted : letterB.WellSorted [spellingKey.term] := by
    intro x hx
    obtain rfl : x = ("letter", .bitVec 16) := List.mem_singleton.1 hx
    exact ⟨.bitVec 98 16, rfl, rfl⟩
  obtain ⟨-, -, jumps⟩ := only letterB sorted (List.forall_mem_nil _) (assumes_nothing run (by decide +kernel))
  exact ⟨fs, w', step, jumps 2 (.switch (k := .char) (n := 98) key ⟨by decide, rfl⟩) fun blurred => nomatch blurred⟩

end Letters

section Truths

/-- A truth value is compared with two. -/
def isTwo : Rvalue := .binary .eq (.loc ⟨"z", .boolean⟩) (.const (.int 2)) .boolean

def countingBody : Body where
  method := ⟨"A", "count", [.boolean], .void⟩
  locals := [⟨"z", .boolean⟩]
  instructions := [.branch isTwo 2, .retVoid, .retVoid]
  successors := [[1, 2], [], []]
  nonempty := List.cons_ne_nil _ _
  successors_length := rfl
  edges_lt := by decide

def flag : SymValue := .primitive .boolean (.var 1 "flag" .bool)

def flagState : ExecState := firstState countingBody ⟨"z", .boolean⟩ flag

def flagged : Assignment := .ofList [("flag", .bool true)]

/-- A true truth value is one and not two, and the program goes on with the next instruction; but what satisfies
the state satisfies none but the one at the branch's target. -/
theorem next_blurs_truths :
    ∃ fs w', (flagState.next (firstQuery countingBody) 1).run.run (firstWorld countingBody) = (.ok fs, w') ∧
      Effect.Jumps countingBody.method flagState.symbolic (firstWorld countingBody).context flagged 0
        (.branch isTwo 2) 1 ∧
      OnlyAt flagged ⟨0, countingBody.method, 2⟩ fs ∧ ¬ OnlyAt flagged ⟨0, countingBody.method, 1⟩ fs := by
  obtain ⟨fs, w', step⟩ := exists_next (b := countingBody) (x := ⟨"z", .boolean⟩) (v := flag) (by decide +kernel)
  obtain ⟨e, M, c, u, t, c₁, run, evaluated, bool, only⟩ := next_branch rfl rfl rfl (by decide) rfl rfl step
  have value : t.denote flagged.valuation = some (.bool true) := by
    have known : ((Except.ok u >>= Machine.condition).toOption.bind (·.denote flagged.valuation)).bind Value.bool? =
        some true := by
      refine (congrArg (fun outcome => ((outcome.1.1 >>= Machine.condition).toOption.bind
        (·.denote flagged.valuation)).bind Value.bool?) evaluated).symm.trans ?_
      decide +kernel
    rw [except_bind_ok.2 ⟨u, rfl, bool⟩] at known
    obtain ⟨x, value, truth⟩ := Option.bind_eq_some_iff.1 known
    cases x with
    | bool b =>
      cases truth
      exact value
    | _ => cases truth
  have target : OnlyAt flagged ⟨0, countingBody.method, 2⟩ fs :=
    only flagged true (List.forall_mem_nil _) (assumes_nothing run (by decide +kernel)) value
  refine ⟨fs, w', step, ?_, target, fun next => nomatch target.unique next⟩
  have truth : flag.Shows flagged (.integer .int 1) := .truth (b := true) rfl
  have two (l : Label) : (SymValue.primitive .int (.ofInt l 2 32)).Shows flagged (.integer .int 2) :=
    .integer (k := .int) ⟨by decide, rfl⟩
  obtain ⟨l, M', c', operands⟩ : ∃ l M' c', (isTwo.operands.mapM (Effect.ofOperand countingBody.method)).Yields
      (.start flagState.symbolic) (firstWorld countingBody).context [flag, .primitive .int (.ofInt l 2 32)] M' c' :=
    ⟨_, _, _, rfl⟩
  exact .test (r := false) operands (.cons truth (.cons (two _) .nil)) rfl

end Truths

end ExecState

end SinkReach
