import Mathlib.Data.List.Nodup
import SinkReach.Program.Body
import SinkReach.Proofs.Symbolic.KeyTest

/-!
What the effects of instructions guarantee: the two conditions of a branch and the conditions of the
cases of a switch exclude each other, an instruction that just goes on has one target at most, and the
values that calls and returns hand over keep to their types.
-/
namespace SinkReach

open Run (Keeps)

/-- Numbers of `int` that are told apart. -/
def SwitchTable.isProper : SwitchTable → Bool
  | table low high _ => Bits.isInt low && Bits.isInt high
  | lookup values _ => values.all Bits.isInt && decide values.Nodup

/-- Switches are over numbers no wider than an `int`. -/
def Instruction.switchesOnNumbers : Instruction → Bool
  | switch key table _ => key.ty.isIntegral && table.isProper
  | _ => true

namespace Term

variable {t a b : Term} {hits : List Term} {l : Label}

theorem Excludes.or (ha : t.Excludes a) (hb : t.Excludes b) : t.Excludes (or l a b) := by
  intro ρ ht h
  obtain ⟨u, mem, hu⟩ := exists_of_denote_orAll h
  rcases List.mem_cons.1 mem with rfl | mem
  · exact ha ρ ht hu
  · cases List.mem_singleton.1 mem
    exact hb ρ ht hu

/-- A term excludes that none of several terms is true if it is one of them. -/
theorem excludes_none (mem : t ∈ hits) :
    t.Excludes (andAll l (hits.zipIdx.map fun (u, i) => not (l + 1 + i) u)) := by
  intro ρ ht h
  obtain ⟨i, found⟩ := List.mem_iff_getElem?.1 mem
  have listed : not (l + 1 + i) t ∈ hits.zipIdx.map fun (u, i) => not (l + 1 + i) u :=
    List.mem_map.2 ⟨(t, i), List.mem_zipIdx_iff_getElem?.2 found, rfl⟩
  exact excludes_not ρ ht (denote_andAll_iff.1 h _ listed)

end Term

namespace Effect

open Term (Excludes)

variable {F : Field → Prop} {s : Ty} {a : Term}

/-- The tests of a key against different numbers exclude each other. -/
theorem pairwise_hits (bits : a.IsBits) {values : List Int} {hits : List Term}
    (tests : List.Forall₂ (TestsKey s a .eq) values hits) (ints : ∀ n ∈ values, Bits.isInt n = true)
    (nodup : values.Nodup) :
    hits.Pairwise Excludes ∧ ∀ t ∈ hits, ∃ n ∈ values, TestsKey s a .eq n t := by
  induction tests with
  | nil => exact ⟨.nil, fun _ h => nomatch h⟩
  | @cons n t values hits test _ ih =>
    obtain ⟨fresh, nodup⟩ := List.nodup_cons.1 nodup
    obtain ⟨pairwise, tested⟩ := ih (fun m mem => ints m (List.mem_cons_of_mem _ mem)) nodup
    refine ⟨List.pairwise_cons.2 ⟨fun u hu => ?_, pairwise⟩, fun u hu => ?_⟩
    · obtain ⟨m, mem, test'⟩ := tested u hu
      have other : n ≠ m := fun same => fresh (same ▸ mem)
      exact test.eq_excludes_eq bits (ints n List.mem_cons_self) (ints m (List.mem_cons_of_mem _ mem))
        other test'
    · rcases List.mem_cons.1 hu with rfl | hu
      · exact ⟨n, List.mem_cons_self, test⟩
      · obtain ⟨m, mem, test'⟩ := tested u hu
        exact ⟨m, List.mem_cons_of_mem _ mem, test'⟩

theorem keeps_keyHits (bits : a.IsBits) {values : List Int} (ints : ∀ n ∈ values, Bits.isInt n = true) :
    Keeps F (keyHits (.primitive s a) values) (List.Forall₂ (TestsKey s a .eq) values) :=
  Keeps.mapM fun n mem => keeps_keyTest bits (ints n mem) rfl

/-- The conditions of the cases and of the default exclude each other. -/
def Apart (cases : List (Term × InstrId)) (otherwise : Term) : Prop :=
  (cases.map (·.1) ++ [otherwise]).Pairwise Excludes

theorem apart_zip {hits : List Term} {targets : List InstrId} {otherwise : Term}
    (length : hits.length = targets.length) (pairwise : hits.Pairwise Excludes)
    (default : ∀ t ∈ hits, t.Excludes otherwise) : Apart (hits.zip targets) otherwise := by
  unfold Apart
  rw [List.map_fst_zip (Nat.le_of_eq length)]
  refine List.pairwise_append.2 ⟨pairwise, List.pairwise_singleton .., fun t ht u hu => ?_⟩
  cases List.mem_singleton.1 hu
  exact default t ht

theorem keeps_switchCases (bits : a.IsBits) {table : SwitchTable} (proper : table.isProper = true) :
    Keeps F (switchCases (.primitive s a) table) fun r => Apart r.1 r.2 := by
  cases table with
  | table low high targets =>
    obtain ⟨lowInt, highInt⟩ := Bool.and_eq_true_iff.1 proper
    simp only [switchCases]
    split
    · exact Keeps.bind (P := fun _ => False) (Keeps.throw _) fun _ never => never.elim
    next size =>
      have between : ∀ n ∈ (List.range targets.length).map (fun (i : Nat) => low + i), low ≤ n ∧ n ≤ high := by
        intro n mem
        obtain ⟨i, less, rfl⟩ := List.mem_map.1 mem
        have less := List.mem_range.1 less
        have size := Decidable.of_not_not size
        omega
      have ints : ∀ n ∈ (List.range targets.length).map (fun (i : Nat) => low + i), Bits.isInt n = true := by
        intro n mem
        have := between n mem
        unfold Bits.isInt at lowInt highInt ⊢
        rw [decide_eq_true_iff] at lowInt highInt ⊢
        omega
      have nodup : ((List.range targets.length).map fun (i : Nat) => low + (i : Int)).Nodup :=
        List.nodup_range.map fun i j (same : low + (i : Int) = low + j) => by omega
      refine Keeps.bind (keeps_keyHits bits ints) fun hits tests => ?_
      refine Keeps.bind (keeps_keyTest bits lowInt rfl) fun below testsBelow => ?_
      refine Keeps.bind (keeps_keyTest bits highInt rfl) fun above testsAbove => ?_
      refine Keeps.bind Keeps.freshLabel fun l _ => Keeps.pure ?_
      obtain ⟨pairwise, tested⟩ := pairwise_hits bits tests ints nodup
      refine apart_zip (by simpa using tests.length_eq.symm) pairwise fun t ht => ?_
      obtain ⟨n, mem, test⟩ := tested t ht
      obtain ⟨fromLow, toHigh⟩ := between n mem
      exact (test.eq_excludes_lt bits (ints n mem) lowInt fromLow testsBelow).or
        (test.eq_excludes_gt bits (ints n mem) highInt toHigh testsAbove)
  | lookup values targets =>
    obtain ⟨all, nodup⟩ := Bool.and_eq_true_iff.1 proper
    have ints := List.all_eq_true.1 all
    simp only [switchCases]
    split
    · exact Keeps.bind (P := fun _ => False) (Keeps.throw _) fun _ never => never.elim
    next size =>
      refine Keeps.bind (keeps_keyHits bits ints) fun hits tests => ?_
      refine Keeps.bind (P := fun _ => True) (Keeps.context fun _ => trivial) fun l _ => Keeps.pure ?_
      obtain ⟨pairwise, -⟩ := pairwise_hits bits tests ints (of_decide_eq_true nodup)
      have length : hits.length = targets.length := tests.length_eq.symm.trans (Decidable.of_not_not size)
      exact apart_zip length pairwise fun t ht => Term.excludes_none ht

/-- A reference is not comparable with a number. -/
theorem keeps_keyTest_reference {ty : Ty} {x : Term} {op : Operator} {n : Int} :
    Keeps F (keyTest (.reference ty x) op n) fun _ => False := by
  refine Keeps.bind (P := fun v => ∃ t, v = .primitive .int t) ?_ fun v number => ?_
  · exact Keeps.bind Keeps.freshLabel fun l _ => Keeps.pure ⟨_, rfl⟩
  · obtain ⟨t, rfl⟩ := number
    refine Keeps.bind (P := fun _ => False) ?_ fun _ never => never.elim
    exact Keeps.bind Keeps.freshLabel fun l _ => Keeps.lift fun _ result => nomatch result

/-- A switch on a reference has no case. -/
theorem keeps_switchCases_reference {ty : Ty} {x : Term} (table : SwitchTable) :
    Keeps F (switchCases (.reference ty x) table) fun r => Apart r.1 r.2 := by
  cases table with
  | table low high targets =>
    simp only [switchCases]
    split
    · exact Keeps.bind (P := fun _ => False) (Keeps.throw _) fun _ never => never.elim
    · refine Keeps.bind (P := fun _ => True) ?_ fun hits _ => ?_
      · exact (Keeps.mapM fun _ _ => keeps_keyTest_reference).mono fun _ _ => trivial
      · exact Keeps.bind keeps_keyTest_reference fun _ never => never.elim
  | lookup values targets =>
    simp only [switchCases]
    split
    · exact Keeps.bind (P := fun _ => False) (Keeps.throw _) fun _ never => never.elim
    · refine Keeps.bind (Keeps.mapM fun _ _ => keeps_keyTest_reference) fun hits none => ?_
      refine Keeps.bind (P := fun _ => True) (Keeps.context fun _ => trivial) fun l _ => Keeps.pure ?_
      cases none with
      | nil => exact List.pairwise_singleton ..
      | cons never => exact never.elim

/-- What an effect of an instruction guarantees. -/
def Guarantees (i : Instruction) : Effect → Prop
  | goOn => ∀ count k, (i.targets count k).length ≤ 1
  | parameter _ => True
  | branch onTrue onFalse target => (∃ condition, i = .branch condition target) ∧ onTrue.Excludes onFalse
  | switch cases => (cases.map (·.1)).Pairwise Excludes
  | call _ arguments _ => ∀ v ∈ arguments, v.HasBits
  | ret v => v.HasBits

theorem keeps_ofLocal (m : Method) (l : Local) : Keeps F (ofLocal m l) fun v => v.Fits l.ty := by
  refine Keeps.bind (Machine.keeps_local? _) fun o fits => ?_
  cases o with
  | none => exact Keeps.throw _
  | some v => exact Keeps.pure (fits v rfl)

theorem keeps_ofOperand (m : Method) (o : Operand) : Keeps F (ofOperand m o) fun v => v.Fits o.ty := by
  cases o with
  | loc l => exact keeps_ofLocal m l
  | const k => exact Machine.keeps_constant k

theorem keeps_ofRvalue (agree : Field.Agree F) (m : Method) {value : Rvalue}
    (named : ∀ f ∈ value.fields, F f) : Keeps F (ofRvalue m value) SymValue.HasBits := by
  cases value with
  | use o => exact (keeps_ofOperand m o).mono fun _ fits => fits.2
  | binary op x y ty =>
    refine Keeps.bind (keeps_ofOperand m x) fun v _ => ?_
    refine Keeps.bind (keeps_ofOperand m y) fun w _ => ?_
    exact Machine.keeps_binary op v w ty
  | neg o => exact Keeps.bind (keeps_ofOperand m o) fun v fits => Machine.keeps_negate fits.2
  | cast o ty =>
    refine Keeps.bind (keeps_ofOperand m o) fun v fits => ?_
    exact (Machine.keeps_cast fits.2 ty).mono fun _ fits => fits.2
  | instanceOf _ _ => exact (Machine.keeps_unknown .boolean).mono fun _ fits => fits.2
  | newArray element _ => exact (Machine.keeps_unknown (.array element)).mono fun _ fits => fits.2
  | length _ => exact (Machine.keeps_unknown .int).mono fun _ fits => fits.2
  | arrayElement _ _ ty => exact (Machine.keeps_unknown ty).mono fun _ fits => fits.2
  | new ty => exact Machine.keeps_allocate ty
  | instanceField base f =>
    refine Keeps.bind (keeps_ofLocal m base) fun v _ => ?_
    refine Keeps.bind (P := fun _ => True) (Keeps.lift fun _ _ => trivial) fun address _ => ?_
    exact Machine.keeps_read agree (named f List.mem_cons_self) address
  | staticField f =>
    refine Keeps.bind Keeps.freshLabel fun l _ => ?_
    exact Machine.keeps_read agree (named f List.mem_cons_self) _
  | invoke c => exact Keeps.throw _

theorem keeps_assign (m : Method) {place : Place} (named : ∀ f ∈ place.fields, F f) {value : Run SymValue}
    (h : Keeps F value SymValue.HasBits) : Keeps F (assign m place value) fun _ => True := by
  cases place with
  | loc l =>
    refine Keeps.bind h fun v bits => ?_
    refine Keeps.bind (Machine.keeps_declaredAs bits _) fun w fits => ?_
    exact Keeps.emit (.bind fits)
  | instanceField base f =>
    refine Keeps.bind (keeps_ofLocal m base) fun object _ => ?_
    refine Keeps.bind h fun v _ => ?_
    refine Keeps.bind (P := fun _ => True) (Keeps.lift fun _ _ => trivial) fun address _ => ?_
    exact Machine.keeps_write (named f List.mem_cons_self) address v
  | staticField f =>
    refine Keeps.bind h fun v _ => ?_
    refine Keeps.bind Keeps.freshLabel fun l _ => ?_
    exact Machine.keeps_write (named f List.mem_cons_self) _ v
  | arrayElement => exact Keeps.bind h fun _ _ => Keeps.pure trivial

theorem keeps_arguments (m : Method) (c : Invoke) :
    Keeps F (arguments m c) fun vs => ∀ v ∈ vs, v.HasBits := by
  have operands : Keeps F (c.args.mapM (ofOperand m)) fun vs => ∀ v ∈ vs, v.HasBits :=
    Keeps.mapM_forall fun o _ => (keeps_ofOperand m o).mono fun _ fits => fits.2
  have rest : ∀ receiver : List SymValue, (∀ v ∈ receiver, v.HasBits) →
      Keeps F (do return receiver ++ (← c.args.mapM (ofOperand m))) fun vs => ∀ v ∈ vs, v.HasBits := by
    intro receiver bits
    refine Keeps.bind operands fun vs bits' => Keeps.pure ?_
    exact List.forall_mem_append.2 ⟨bits, bits'⟩
  simp only [arguments]
  split
  · cases c.base with
    | none => exact Keeps.bind (P := fun _ => False) (Keeps.throw _) fun _ never => never.elim
    | some l =>
      simp only [pure_bind]
      exact Keeps.bind (keeps_ofLocal m l) fun v fits => rest [v] (List.forall_mem_singleton.2 fits.2)
  · simp only [pure_bind]
    exact rest [] fun _ h => nomatch h

/-- Whatever an instruction does keeps to the types, and its effect guarantees what a step relies on. -/
theorem keeps_ofInstruction (agree : Field.Agree F) (m : Method) {i : Instruction}
    (named : ∀ f ∈ i.fields, F f) (numbers : i.switchesOnNumbers = true) :
    Keeps F (ofInstruction m i) (Guarantees i) := by
  have falls : ∀ count k : Nat, (if k + 1 < count then [k + 1] else []).length ≤ 1 := by
    intro count k
    split
    · exact Nat.le_refl 1
    · exact Nat.zero_le 1
  cases i with
  | assign place value =>
    by_cases call : ∃ c, value = .invoke c
    · obtain ⟨c, rfl⟩ := call
      cases place with
      | loc l => exact Keeps.bind (keeps_arguments m c) fun vs bits => Keeps.pure bits
      | instanceField | staticField | arrayElement => exact Keeps.throw _
    · have same : ofInstruction m (.assign place value) = do
          assign m place (ofRvalue m value)
          return goOn := by
        cases place <;> cases value <;> first | rfl | exact absurd ⟨_, rfl⟩ call
      rw [same]
      have named' := List.forall_mem_append.1 named
      refine Keeps.bind (keeps_assign m named'.1 (keeps_ofRvalue agree m named'.2)) fun _ _ => ?_
      exact Keeps.pure falls
  | identity l source =>
    refine Keeps.bind (Machine.keeps_local? _) fun o _ => ?_
    cases o with
    | some v => exact Keeps.pure trivial
    | none =>
      refine Keeps.bind (P := fun _ => True) ?_ fun _ _ => Keeps.pure trivial
      exact Keeps.bind (Machine.keeps_declare (.ofLocal m l)) fun _ _ => Keeps.pure trivial
  | branch condition target =>
    refine Keeps.bind (keeps_ofRvalue agree m named) fun v _ => ?_
    refine Keeps.bind (P := fun _ => True) (Keeps.lift fun _ _ => trivial) fun onTrue _ => ?_
    refine Keeps.bind Keeps.freshLabel fun l _ => Keeps.pure ?_
    exact ⟨⟨condition, rfl⟩, Term.excludes_not⟩
  | switch key table default =>
    obtain ⟨integral, proper⟩ := Bool.and_eq_true_iff.1 numbers
    refine Keeps.bind (keeps_ofOperand m key) fun v fits => ?_
    have cases : Keeps F (switchCases v table) fun r => Apart r.1 r.2 := by
      cases v with
      | reference => exact keeps_switchCases_reference table
      | primitive s a =>
        have same : s = key.ty := fits.1
        exact keeps_switchCases (fits.2 s a rfl (same ▸ integral)) proper
    refine Keeps.bind cases fun r apart => Keeps.pure ?_
    show ((r.1 ++ [(r.2, default)]).map (·.1)).Pairwise Excludes
    rw [List.map_append]
    exact apart
  | invoke c => exact Keeps.bind (keeps_arguments m c) fun vs bits => Keeps.pure bits
  | ret value => exact Keeps.bind (keeps_ofOperand m value) fun v fits => Keeps.pure fits.2
  | retVoid =>
    refine Keeps.bind Keeps.freshLabel fun l _ => Keeps.pure ?_
    exact SymValue.hasBits_primitive fun h => nomatch h
  | throw | goto => exact Keeps.pure fun _ _ => by simp [Instruction.targets]
  | nop | monitor => exact Keeps.pure falls

end Effect
end SinkReach
