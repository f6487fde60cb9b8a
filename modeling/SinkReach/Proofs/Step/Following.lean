import Mathlib.Data.List.Pairwise
import Mathlib.Data.List.Perm.Subperm
import SinkReach.Proofs.Route.Edges
import SinkReach.Proofs.Step.Effect
import SinkReach.Proofs.Step.Next

/-!
The states that follow a state. Each of them assumes all that the state did, keeps to the types and is at
a node of its instance, and the path conditions of any two of them exclude each other.
-/
namespace SinkReach

/-- Successors follow from the instructions, switches are over numbers, and fields of one class and name
have one type. -/
structure Program.Regular (p : Program) : Prop where
  derived : ∀ m b, p.body? m = some b → b.successors = deriveSuccessors b.instructions
  numbers : ∀ m b, p.body? m = some b → ∀ i ∈ b.instructions, i.switchesOnNumbers = true
  fields : ∀ m b m' b', p.body? m = some b → p.body? m' = some b' → ∀ f ∈ b.fields, ∀ g ∈ b'.fields,
    f.className = g.className → f.name = g.name → f.ty = g.ty

/-- Fields that the program reads or writes. -/
def Program.Names (p : Program) (f : Field) : Prop := ∃ m b, p.body? m = some b ∧ f ∈ b.fields

theorem Query.body_ok {q : Query} {m : Method} {b : Body} (h : q.body m = .ok b) :
    q.program.body? m = some b := by
  unfold Query.body at h
  split at h
  next found =>
    cases h
    exact found
  next => cases h

theorem Program.Regular.agree {p : Program} (h : p.Regular) : Field.Agree p.Names := by
  rintro f g ⟨m, b, found, hf⟩ ⟨m', b', found', hg⟩
  exact h.fields m b m' b' found found' f hf g hg

section Targets

theorem mem_firstOnly {i : InstrId} {is : List InstrId} (h : i ∈ firstOnly is) : i ∈ is := by
  induction is with
  | nil => exact h
  | cons j js ih =>
    rcases List.mem_cons.1 h with rfl | rest
    · exact List.mem_cons_self
    · exact List.mem_cons_of_mem _ (ih (List.mem_filter.1 rest).1)

theorem mem_firstOnly_iff {i : InstrId} {is : List InstrId} : i ∈ firstOnly is ↔ i ∈ is := by
  refine ⟨mem_firstOnly, fun mem => ?_⟩
  induction is with
  | nil => cases mem
  | cons j js ih =>
    by_cases same : i = j
    · exact same ▸ List.mem_cons_self
    · have rest := (List.mem_cons.1 mem).resolve_left same
      exact List.mem_cons_of_mem _ (List.mem_filter.2 ⟨ih rest, by simp [same]⟩)

theorem Body.successorsOf_derived {b : Body} (derived : b.successors = deriveSuccessors b.instructions)
    {k : InstrId} {i : Instruction} (found : b.instruction? k = some i) :
    b.successorsOf k = i.targets b.length k := by
  unfold Body.instruction? at found
  unfold Body.successorsOf
  rw [derived, deriveSuccessors, List.getElem?_map, List.getElem?_zipIdx, found]
  simp only [Option.map_some, Option.getD_some, Nat.zero_add]
  rfl

/-- Of two different targets of a branch just one is where it jumps to. -/
theorem Instruction.branch_targets {condition : Rvalue} {target count k i j : Nat}
    (hi : i ∈ (Instruction.branch condition target).targets count k)
    (hj : j ∈ (Instruction.branch condition target).targets count k) (other : i ≠ j) :
    i = target ↔ j ≠ target := by
  have either : ∀ n : Nat, n ∈ (Instruction.branch condition target).targets count k →
      n = k + 1 ∨ n = target := by
    intro n hn
    rcases List.mem_append.1 (mem_firstOnly hn) with next | jump
    · split at next
      · exact .inl (List.mem_singleton.1 next)
      · cases next
    · exact .inr (List.mem_singleton.1 jump)
  have := either i hi
  have := either j hj
  omega

end Targets

section Placing

variable {q : Query} {n k : Node} {ns : List Node} {b : Body} {s : Instances ExecState}

/-- The node belongs to an instance of its method. -/
def Instances.Places (s : Instances ExecState) (n : Node) : Prop :=
  ∃ i, s.all[n.callId]? = some i ∧ i.method = n.method

/-- Every instance has the graph of its method. -/
def Instances.Drawn (q : Query) (s : Instances ExecState) : Prop :=
  ∀ i ∈ s.all, q.graph i.method = .ok i.graph

theorem Instances.places_of_of {i : Instance ExecState} (h : s.of n = .ok i) :
    s.all[n.callId]? = some i ∧ i.method = n.method := by
  unfold Instances.of at h
  split at h
  · cases h
  · split at h
    next found same =>
      cases h
      exact ⟨found, same⟩
    next => cases h

theorem Instances.Places.withNew (h : s.Places n) (m : Method) (g : Digraph) : (s.withNew m g).Places n := by
  obtain ⟨i, found, method⟩ := h
  exact ⟨i, List.getElem?_append_left (List.getElem?_eq_some_iff.1 found).1 ▸ found, method⟩

theorem Instances.places_new (s : Instances ExecState) (m : Method) (g : Digraph) (i : InstrId) :
    (s.withNew m g).Places ⟨s.count, m, i⟩ := by
  refine ⟨⟨m, g, {}⟩, ?_, rfl⟩
  show (s.all ++ [_])[s.all.length]? = _
  rw [List.getElem?_append_right (Nat.le_refl _), Nat.sub_self]
  rfl

theorem Instances.Drawn.withNew (h : s.Drawn q) {m : Method} {g : Digraph} (graph : q.graph m = .ok g) :
    (s.withNew m g).Drawn q := by
  intro i mem
  rcases List.mem_append.1 mem with mem | mem
  · exact h i mem
  · cases List.mem_singleton.1 mem
    exact graph

/-- Successors of a node are successors of its instruction, none of them twice. -/
theorem Instances.Drawn.successors (h : s.Drawn q) (body : q.body n.method = .ok b)
    (found : s.successors n = .ok ns) :
    ns.Pairwise (fun k k' => k.instr ≠ k'.instr) ∧
      ∀ k ∈ ns, k.instr ∈ b.successorsOf n.instr ∧ s.Places k := by
  obtain ⟨i, inst, rest⟩ := except_bind_ok.1 found
  cases rest
  obtain ⟨at', method⟩ := Instances.places_of_of inst
  have graph := h i (List.mem_of_getElem? at')
  rw [method] at graph
  have within := Query.graph_within body graph
  refine ⟨List.pairwise_map.2 (within.nodup_successors n.instr), fun k mem => ?_⟩
  obtain ⟨j, edge, rfl⟩ := List.mem_map.1 mem
  exact ⟨within.edges _ j edge, i, at', method⟩

theorem Instances.places_successors (found : s.successors n = .ok ns) : ∀ k ∈ ns, s.Places k := by
  obtain ⟨i, inst, rest⟩ := except_bind_ok.1 found
  cases rest
  intro k mem
  obtain ⟨j, -, rfl⟩ := List.mem_map.1 mem
  obtain ⟨at', method⟩ := Instances.places_of_of inst
  exact ⟨i, at', method⟩

theorem Instances.places_first? {o : Option Node} (found : s.first? n = .ok o) :
    ∀ k ∈ o, s.Places k := by
  obtain ⟨ns, successors, rfl⟩ := Instances.first?_ok found
  exact fun k mem => Instances.places_successors successors k (List.mem_of_mem_head? mem)

/-- Where the instruction has one target at most, so has the node. -/
theorem pairwise_of_target {P : Node → Node → Prop} {targets : List InstrId}
    (nodup : ns.Pairwise fun k k' => k.instr ≠ k'.instr) (within : ∀ k ∈ ns, k.instr ∈ targets)
    (single : targets.length ≤ 1) : ns.Pairwise P := by
  have distinct : (ns.map (·.instr)).Nodup := List.pairwise_map.2 nodup
  have sub : ns.map (·.instr) ⊆ targets := by
    intro j mem
    obtain ⟨k, listed, rfl⟩ := List.mem_map.1 mem
    exact within k listed
  have short := (distinct.subperm sub).length_le
  rw [List.length_map] at short
  match ns, Nat.le_trans short single with
  | [], _ => exact .nil
  | [n], _ => exact List.pairwise_singleton ..

end Placing

namespace SymState

variable {F : Field → Prop} {s t u : SymState}

/-- No valuation satisfies both path conditions. -/
def Excludes (s t : SymState) : Prop := ∀ ρ : Valuation, ρ.Models s.constraints → ¬ ρ.Models t.constraints

theorem Excludes.symm (h : s.Excludes t) : t.Excludes s := fun ρ ht hs => h ρ hs ht

theorem excludes_of_terms {a b : Term} (h : a.Excludes b) (ha : a ∈ s.constraints) (hb : b ∈ t.constraints) :
    s.Excludes t := fun ρ hs ht => h ρ (hs a ha) (ht b hb)

/-- A state that assumes all that another one did, and keeps to the types. -/
structure GoesOn (F : Field → Prop) (s t : SymState) : Prop where
  constraints : s.constraints ⊆ t.constraints
  bits : t.memory.HasBits F

theorem Excludes.goesOn (h : s.Excludes u) (goes : s.GoesOn F t) : t.Excludes u :=
  fun ρ ht => h ρ fun c mem => ht c (goes.constraints mem)

theorem GoesOn.refl (bits : s.memory.HasBits F) : s.GoesOn F s := ⟨List.Subset.refl _, bits⟩

theorem GoesOn.updateAll (h : s.GoesOn F t) (agree : Field.Agree F) {us : List Update}
    (updates : ∀ u ∈ us, u.HasBits F) (l : Label) : s.GoesOn F (t.updateAll l us) := by
  refine ⟨?_, updateAll_hasBits agree updates h.bits l⟩
  rw [constraints_updateAll]
  exact List.Subset.trans h.constraints (List.subset_append_left ..)

theorem mem_assume (s : SymState) (c : Term) : c ∈ (s.assume c).constraints :=
  List.mem_append_right _ List.mem_cons_self

theorem GoesOn.assume (h : s.GoesOn F t) (c : Term) : s.GoesOn F (t.assume c) :=
  ⟨List.Subset.trans h.constraints (List.subset_append_left ..), h.bits⟩

theorem GoesOn.withMemory (h : s.GoesOn F t) {m : Memory} (bits : m.HasBits F) : s.GoesOn F (t.withMemory m) :=
  ⟨h.constraints, bits⟩

end SymState

section Bindings

variable {F : Field → Prop}

theorem keeps_unknownResult (result : Option LocalId) :
    (ExecState.unknownResult result).Keeps F fun _ => True := by
  cases result with
  | none => exact .pure trivial
  | some id => exact .bind (Machine.keeps_unknown id.ty) fun v fits => .emit (.bind fits)

theorem keeps_handedResult {v : SymValue} (bits : v.HasBits) (result : Option LocalId) :
    (ExecState.handedResult v result).Keeps F fun _ => True := by
  cases result with
  | none => exact .pure trivial
  | some id => exact .bind (Machine.keeps_declaredAs bits id.ty) fun w fits => .emit (.bind fits)

theorem keeps_bindParameters (ids : List LocalId) {arguments : List SymValue}
    (bits : ∀ v ∈ arguments, v.HasBits) :
    (ExecState.bindParameters ids arguments).Keeps F fun bs => ∀ b ∈ bs, b.2.Fits b.1.ty := by
  induction ids generalizing arguments with
  | nil => exact .pure fun _ h => nomatch h
  | cons id ids ih =>
    cases arguments with
    | nil =>
      refine .bind (Machine.keeps_unknown id.ty) fun v fits => ?_
      exact .bind (ih bits) fun bs fit => .pure (List.forall_mem_cons.2 ⟨fits, fit⟩)
    | cons a arguments =>
      obtain ⟨first, rest⟩ := List.forall_mem_cons.1 bits
      refine .bind (Machine.keeps_declaredAs first id.ty) fun v fits => ?_
      exact .bind (ih rest) fun bs fit => .pure (List.forall_mem_cons.2 ⟨fits, fit⟩)

theorem keeps_resumed (m : Method) (b : Body) :
    (ExecState.resumed m b).Keeps F fun bs => ∀ b ∈ bs, b.2.Fits b.1.ty :=
  .mapM_forall fun _ _ => .bind (Machine.keeps_unknown _) fun _ fits => .pure fits

end Bindings

/-- What is true of the states that follow a state, and of the instances after the step. -/
structure Followed (F : Field → Prop) (q : Query) (w w' : World) (x : ExecState) (fs : List ExecState) :
    Prop where
  calls : w'.calls = w.calls ∨ ∃ m g, q.graph m = .ok g ∧ w'.calls = w.calls.withNew m g
  placed : ∀ f ∈ fs, w'.calls.Places f.node
  goesOn : ∀ f ∈ fs, x.symbolic.GoesOn F f.symbolic
  apart : fs.Pairwise fun f g => f.symbolic.Excludes g.symbolic

namespace Followed

variable {F : Field → Prop} {q : Query} {w w' : World} {x f : ExecState} {fs : List ExecState}

/-- At most one state follows, in the same instances. -/
theorem of_option {o : Option ExecState} (calls : w'.calls = w.calls)
    (one : ∀ f ∈ o, w.calls.Places f.node ∧ x.symbolic.GoesOn F f.symbolic) :
    Followed F q w w' x o.toList := by
  refine ⟨.inl calls, fun f mem => ?_, fun f mem => ?_, ?_⟩
  · exact calls ▸ (one f (Option.mem_toList.1 mem)).1
  · exact (one f (Option.mem_toList.1 mem)).2
  · cases o with
    | none => exact .nil
    | some f => exact List.pairwise_singleton ..

/-- One state follows, at a node of a new instance. -/
theorem of_new {m : Method} {g : Digraph} {i : InstrId} (graph : q.graph m = .ok g)
    (calls : w'.calls = w.calls.withNew m g) (node : f.node = ⟨w.calls.count, m, i⟩)
    (goes : x.symbolic.GoesOn F f.symbolic) : Followed F q w w' x [f] := by
  refine ⟨.inr ⟨m, g, graph, calls⟩, List.forall_mem_singleton.2 ?_, List.forall_mem_singleton.2 goes,
    List.pairwise_singleton ..⟩
  rw [calls, node]
  exact w.calls.places_new m g i

/-- States follow at successors of the node. -/
theorem of_nodes {ns : List Node} {state : Node → SymState} (calls : w'.calls = w.calls)
    (placed : ∀ n ∈ ns, w.calls.Places n) (goes : ∀ n ∈ ns, x.symbolic.GoesOn F (state n))
    (apart : ns.Pairwise fun n n' => (state n).Excludes (state n')) :
    Followed F q w w' x (ns.map fun n => x.advance n (state n)) := by
  refine ⟨.inl calls, fun f mem => ?_, fun f mem => ?_, List.pairwise_map.2 apart⟩
  · obtain ⟨n, hn, rfl⟩ := List.mem_map.1 mem
    exact calls ▸ placed n hn
  · obtain ⟨n, hn, rfl⟩ := List.mem_map.1 mem
    exact goes n hn

end Followed

section Switching

open ExecState

variable {x f : ExecState} {t : SymState} {cases : List (Term × InstrId)} {ns : List Node}
  {fs : List ExecState}

/-- Cases to different targets exclude each other. -/
theorem excludes_of_targets (apart : (cases.map (·.1)).Pairwise Term.Excludes) {c c' : Term × InstrId}
    (hc : c ∈ cases) (hc' : c' ∈ cases) (other : c.2 ≠ c'.2) : c.1.Excludes c'.1 := by
  have symm : Std.Symm fun c c' : Term × InstrId => c.1.Excludes c'.1 :=
    ⟨fun _ _ h ρ hc' hc => h ρ hc hc'⟩
  exact (List.pairwise_map.1 apart).forall hc hc' fun same => other (same ▸ rfl)

theorem excludes_orAll (apart : (cases.map (·.1)).Pairwise Term.Excludes) {i j : InstrId} (other : i ≠ j)
    (l l' : Label) : (Term.orAll l ((casesAt cases i).map (·.1))).Excludes
      (Term.orAll l' ((casesAt cases j).map (·.1))) := by
  intro ρ hi hj
  obtain ⟨a, ha, true⟩ := Term.exists_of_denote_orAll hi
  obtain ⟨b, hb, true'⟩ := Term.exists_of_denote_orAll hj
  obtain ⟨c, hc, rfl⟩ := List.mem_map.1 ha
  obtain ⟨c', hc', rfl⟩ := List.mem_map.1 hb
  obtain ⟨hc, target⟩ := List.mem_filter.1 hc
  obtain ⟨hc', target'⟩ := List.mem_filter.1 hc'
  have differ : c.2 ≠ c'.2 := by
    rw [of_decide_eq_true target, of_decide_eq_true target']
    exact other
  exact excludes_of_targets apart hc hc' differ ρ true true'

theorem AfterSwitch.mem (h : AfterSwitch x t cases ns fs) (mem : f ∈ fs) : ∃ n ∈ ns, ∃ l,
    f = x.advance n (t.assume (.orAll l ((casesAt cases n.instr).map (·.1)))) := by
  induction h with
  | nil => cases mem
  | @cons n ns fs l _ _ ih =>
    rcases List.mem_cons.1 mem with rfl | mem
    · exact ⟨n, List.mem_cons_self, l, rfl⟩
    · obtain ⟨n', hn', rest⟩ := ih mem
      exact ⟨n', List.mem_cons_of_mem _ hn', rest⟩

theorem AfterSwitch.apart (h : AfterSwitch x t cases ns fs) (apart : (cases.map (·.1)).Pairwise Term.Excludes)
    (nodup : ns.Pairwise fun k k' => k.instr ≠ k'.instr) :
    fs.Pairwise fun f g => f.symbolic.Excludes g.symbolic := by
  induction h with
  | nil => exact .nil
  | @cons n ns fs l _ after ih =>
    obtain ⟨fresh, nodup⟩ := List.pairwise_cons.1 nodup
    refine List.pairwise_cons.2 ⟨fun g hg => ?_, ih nodup⟩
    obtain ⟨n', hn', l', rfl⟩ := AfterSwitch.mem after hg
    exact SymState.excludes_of_terms (excludes_orAll apart (fresh n' hn') l l')
      (SymState.mem_assume ..) (SymState.mem_assume ..)

end Switching

section Stepping

open ExecState

variable {q : Query} {limit : Nat} {w w' : World} {x : ExecState} {fs : List ExecState} {b : Body}
  {i : Instruction} {us : List Update}

theorem excludes_branch {a a' : Term} (h : a.Excludes a') {p p' : Prop} [Decidable p] [Decidable p']
    (one : p ↔ ¬ p') : (if p then a else a').Excludes (if p' then a else a') := by
  by_cases hp : p
  · rw [if_pos hp, if_neg (one.1 hp)]
    exact h
  · rw [if_neg hp, if_pos (Decidable.of_not_not fun hn => hp (one.2 hn))]
    exact fun ρ ha' ha => h ρ ha ha'

/-- Where an effect says to go, states follow that exclude each other. -/
theorem ExecState.proceed_followed (regular : q.program.Regular) (drawn : w.calls.Drawn q)
    (body : q.body x.node.method = .ok b) (targets : b.successorsOf x.node.instr = i.targets b.length x.node.instr)
    (bits : x.symbolic.memory.HasBits q.program.Names) (updates : ∀ u ∈ us, u.HasBits q.program.Names)
    {e : Effect} (guarantees : e.Guarantees i) (h : (x.proceed q limit b us e).run.run w = (.ok fs, w')) :
    Followed q.program.Names q w w' x fs := by
  have agree := regular.agree
  have updated : ∀ l, x.symbolic.GoesOn q.program.Names (x.symbolic.updateAll l us) :=
    fun l => (SymState.GoesOn.refl bits).updateAll agree updates l
  cases proceed_ok h with
  | goOn found =>
    obtain ⟨nodup, within⟩ := drawn.successors body found
    refine Followed.of_nodes rfl (fun n hn => (within n hn).2) (fun _ _ => updated _) ?_
    exact pairwise_of_target nodup (fun n hn => targets ▸ (within n hn).1) (guarantees _ _)
  | parameter _ first =>
    refine Followed.of_option rfl fun f mem => ?_
    obtain ⟨n, hn, rfl⟩ := Option.map_eq_some_iff.1 mem
    exact ⟨Instances.places_first? first n hn, updated _⟩
  | branch found =>
    obtain ⟨⟨condition, rfl⟩, excludes⟩ := guarantees
    obtain ⟨nodup, within⟩ := drawn.successors body found
    refine Followed.of_nodes rfl (fun n hn => (within n hn).2) (fun n _ => ?_) ?_
    · split
      · exact updated _
      · exact (updated _).assume _
    · split
      next only =>
        -- A branch with a single successor adds no condition.
        rw [only] at within
        exact pairwise_of_target nodup (fun n hn => (within n hn).1) (Nat.le_refl 1)
      next =>
        refine nodup.imp_of_mem fun {n n'} hn hn' other => ?_
        refine SymState.excludes_of_terms (excludes_branch excludes ?_) (SymState.mem_assume ..)
          (SymState.mem_assume ..)
        rw [targets] at within
        exact Instruction.branch_targets (within n hn).1 (within n' hn').1 other
  | switch found after =>
    obtain ⟨nodup, within⟩ := drawn.successors body found
    refine ⟨.inl rfl, fun f mem => ?_, fun f mem => ?_, AfterSwitch.apart after guarantees nodup⟩
    · exact (within _ (mem_of_afterSwitch after mem)).2
    · obtain ⟨n, -, l, rfl⟩ := AfterSwitch.mem after mem
      exact (updated _).assume _
  | skip _ run first =>
    obtain ⟨gathered, -⟩ := keeps_unknownResult _ (.start bits) run
    refine Followed.of_option rfl fun f mem => ?_
    obtain ⟨n, hn, rfl⟩ := Option.map_eq_some_iff.1 mem
    refine ⟨Instances.places_first? first n hn, ?_⟩
    exact (SymState.GoesOn.refl bits).updateAll agree (List.forall_mem_append.2 ⟨updates, gathered.pending⟩) _
  | enter _ enter _ run =>
    obtain ⟨gathered, fit⟩ := keeps_bindParameters _ guarantees (.start bits) run
    obtain ⟨g, graph, rfl, rfl⟩ := Instances.enter_ok enter
    refine Followed.of_new graph rfl rfl ?_
    exact ((updated _).withMemory ((updated _).bits.bindAll fit)).updateAll agree gathered.pending _
  | resume _ resume _ run =>
    obtain ⟨gathered, fit⟩ := keeps_resumed _ _ (.start bits) run
    obtain ⟨k, m, g, -, graph, rfl, rfl⟩ := Instances.resume_ok resume
    refine Followed.of_new graph rfl rfl ?_
    have memory (l : Label) := ((updated l).bits.withoutLocalsOf x.node.method).bindAll fit
    exact ((updated _).withMemory (memory _)).updateAll agree gathered.pending _
  | stop => exact Followed.of_option (o := none) rfl fun f mem => nomatch mem
  | leave _ _ first run =>
    obtain ⟨gathered, -⟩ := keeps_handedResult guarantees _ (.start bits) run
    refine Followed.of_option (o := some _) rfl fun f mem => ?_
    cases mem
    refine ⟨Instances.places_first? first _ rfl, ?_⟩
    have without := (SymState.GoesOn.refl bits).withMemory (bits.withoutLocalsOf x.node.method)
    exact (without.updateAll agree updates _).updateAll agree gathered.pending _

/-- The states that follow a state exclude each other and go on from it. -/
theorem ExecState.next_followed (regular : q.program.Regular) (drawn : w.calls.Drawn q)
    (bits : x.symbolic.memory.HasBits q.program.Names) (h : (x.next q limit).run.run w = (.ok fs, w')) :
    Followed q.program.Names q w w' x fs := by
  obtain ⟨b, i, e, M, c, body, found, run, rest⟩ := next_ok h
  have listed := Query.body_ok body
  have mem := List.mem_of_getElem? found
  have named : ∀ f ∈ i.fields, q.program.Names f :=
    fun f hf => ⟨_, b, listed, List.mem_flatMap.2 ⟨i, mem, hf⟩⟩
  obtain ⟨gathered, guarantees⟩ := Effect.keeps_ofInstruction regular.agree x.node.method named
    (regular.numbers _ b listed i mem) (.start bits) run
  have targets := Body.successorsOf_derived (regular.derived _ b listed) found
  have followed := proceed_followed (w := w.withContext c) regular drawn body targets bits gathered.pending
    guarantees rest
  exact ⟨followed.calls, followed.placed, followed.goesOn, followed.apart⟩

end Stepping
end SinkReach
