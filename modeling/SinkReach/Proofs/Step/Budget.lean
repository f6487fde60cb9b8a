import Mathlib.Algebra.Order.BigOperators.Group.List
import Mathlib.Algebra.Order.Ring.Nat
import SinkReach.Proofs.Step.Following
import SinkReach.Proofs.Step.Merge

/-!
How many calls a state can still enter. Every method is entered a limited number of times, and the counts
of a state never fall: not along a step, not on a return, and not in a merge, which takes the greater
one. So every call instance can be given a budget that bounds what is left to the states in it; a call
made there opens an instance of a smaller budget, and the callers on the stack have budgets at least as
large.
-/
namespace SinkReach

namespace Program

/-- Number of instructions of the program. -/
def size (p : Program) : Nat := (p.bodies.entries.map fun e => e.2.length).sum

theorem length_le_size {p : Program} {m : Method} {b : Body} (h : p.body? m = some b) :
    b.length ≤ p.size :=
  List.le_sum_of_mem (List.mem_map.2 ⟨(m, b), Table.mem_of_get? h, rfl⟩)

end Program

section Counting

variable {p : Program} {limit : Nat} {x y r : ExecState} {m : Method}

/-- How many times methods of the program may still be entered after a state. -/
def ExecState.remaining (p : Program) (limit : Nat) (x : ExecState) : Nat :=
  (p.bodies.keys.map fun m => limit - x.count m).sum

theorem ExecState.count_call (f : Frame) (m' : Method) :
    (x.call f m).count m' = if m = m' then x.count m + 1 else x.count m' := by
  simp only [count, call, Table.get?_insert, beq_iff_eq]
  split <;> rfl

theorem ExecState.remaining_initial (entry : Node) :
    (ExecState.initial entry).remaining p limit = p.bodies.entries.length * limit := by
  have all : (p.bodies.keys.map fun m => limit - (ExecState.initial entry).count m) =
      List.replicate p.bodies.entries.length limit := by
    refine List.eq_replicate_iff.2 ⟨by simp [Table.keys], fun n hn => ?_⟩
    obtain ⟨m, -, rfl⟩ := List.mem_map.1 hn
    rfl
  rw [remaining, all, List.sum_replicate_nat]

/-- Entering a method of the program leaves less. -/
theorem ExecState.remaining_call_lt (f : Frame) (known : m ∈ p.bodies.keys) (less : x.count m < limit) :
    (x.call f m).remaining p limit < x.remaining p limit := by
  refine List.sum_lt_sum _ _ (fun m' _ => ?_) ⟨m, known, ?_⟩
  · rw [count_call]
    split
    next same =>
      subst same
      omega
    next => exact Nat.le_refl _
  · rw [count_call, if_pos rfl]
    omega

theorem le_mergeCounts (lhs rhs : Table Method Nat) (m : Method) :
    (lhs.get? m).getD 0 ≤ ((mergeCounts lhs rhs).get? m).getD 0 := by
  unfold mergeCounts
  induction rhs.entries generalizing lhs with
  | nil => exact Nat.le_refl _
  | cons e es ih =>
    refine Nat.le_trans ?_ (ih _)
    rw [Table.get?_insert]
    split
    next same =>
      rw [← eq_of_beq same]
      exact Nat.le_max_left ..
    next => exact Nat.le_refl _

/-- A merge leaves no more than the state that was there. -/
theorem ExecState.remaining_merge_le {o : Overflow} {c c' : Context} (h : (x.merge y o).run.run c = (.ok r, c')) :
    r.remaining p limit ≤ x.remaining p limit := by
  refine List.sum_le_sum fun m _ => Nat.sub_le_sub_left ?_ limit
  rw [count, count, (merge_history h).2.1]
  exact le_mergeCounts x.counts y.counts m

end Counting

section Budgets

variable {β β' : CallId → Nat} {count count' b : Nat} {fs : List Frame}

/-- The frames return to known instances, whose budgets do not fall from the innermost frame on. -/
def Ascends (β : CallId → Nat) (count : Nat) : Nat → List Frame → Prop
  | _, [] => True
  | b, f :: fs => ∀ c, f.caller = some c →
    c.callId < count ∧ b ≤ β c.callId ∧ Ascends β count (β c.callId) fs

theorem Ascends.mono (agree : ∀ i < count, β' i = β i) (more : count ≤ count')
    (h : Ascends β count b fs) : Ascends β' count' b fs := by
  induction fs generalizing b with
  | nil => trivial
  | cons f fs ih =>
    intro c caller
    obtain ⟨known, le, rest⟩ := h c caller
    rw [agree _ known]
    exact ⟨Nat.lt_of_lt_of_le known more, le, ih rest⟩

/-- What is left to the state lies within the budget of its instance. -/
structure ExecState.Affords (p : Program) (limit : Nat) (β : CallId → Nat) (count : Nat) (x : ExecState) :
    Prop where
  remaining : x.remaining p limit ≤ β x.node.callId
  frames : Ascends β count (β x.node.callId) (x.stack.top :: x.stack.below)

theorem ExecState.Affords.mono {p : Program} {limit : Nat} {x : ExecState}
    (h : x.Affords p limit β count) (known : x.node.callId < count) (agree : ∀ i < count, β' i = β i)
    (more : count ≤ count') : x.Affords p limit β' count' := by
  refine ⟨?_, ?_⟩ <;> rw [agree _ known]
  · exact h.remaining
  · exact h.frames.mono agree more

/-- The node is an instruction of an instance. -/
def Instances.Holds (p : Program) (s : Instances ExecState) (n : Node) : Prop :=
  s.Places n ∧ n.instr < p.size

theorem Instances.Places.lt {s : Instances ExecState} {n : Node} (h : s.Places n) : n.callId < s.count := by
  obtain ⟨i, found, -⟩ := h
  exact (List.getElem?_eq_some_iff.1 found).1

/-- Successors of a node are instructions of its instance, no more than the program has. -/
theorem Instances.Drawn.holds_successors {q : Query} {s : Instances ExecState} {n : Node} {ns : List Node}
    (h : s.Drawn q) (found : s.successors n = .ok ns) :
    ns.length ≤ q.program.size ∧ ∀ k ∈ ns, s.Holds q.program k ∧ k.callId = n.callId := by
  obtain ⟨i, inst, rest⟩ := except_bind_ok.1 found
  obtain ⟨at', method⟩ := Instances.places_of_of inst
  obtain ⟨b, body⟩ := Query.body_of_graph (h i (List.mem_of_getElem? at'))
  rw [method] at body
  obtain ⟨nodup, within⟩ := h.successors body found
  have size := Program.length_le_size (Query.body_ok body)
  have small : ∀ k ∈ ns, k.instr < q.program.size := fun k hk =>
    Nat.lt_of_lt_of_le (Body.lt_of_mem_successorsOf (within k hk).1) size
  constructor
  · have distinct : (ns.map (·.instr)).Nodup := List.pairwise_map.2 nodup
    have sub : ns.map (·.instr) ⊆ List.range q.program.size := by
      intro j mem
      obtain ⟨k, hk, rfl⟩ := List.mem_map.1 mem
      exact List.mem_range.2 (small k hk)
    simpa using (distinct.subperm sub).length_le
  · intro k hk
    refine ⟨⟨(within k hk).2, small k hk⟩, ?_⟩
    cases rest
    obtain ⟨j, -, rfl⟩ := List.mem_map.1 hk
    rfl

theorem Instances.Drawn.holds_first? {q : Query} {s : Instances ExecState} {n : Node} {o : Option Node}
    (h : s.Drawn q) (found : s.first? n = .ok o) :
    ∀ k ∈ o, s.Holds q.program k ∧ k.callId = n.callId := by
  obtain ⟨ns, successors, rfl⟩ := Instances.first?_ok found
  intro k mem
  exact (h.holds_successors successors).2 k (List.mem_of_mem_head? mem)

end Budgets

/-- No return entry of the path names a call site. -/
def TaintPath.ReturnsNowhere (p : TaintPath) : Prop := ∀ e ∈ p.entries, e.kind = .ret → e.callSite = none

theorem TaintPath.ReturnsNowhere.returnSite {q : Query} (h : q.path.ReturnsNowhere) (n : Node)
    (site : InstrId × Method) : Instances.returnSite q n ≠ .ok site := by
  intro found
  unfold Instances.returnSite at found
  split at found
  · cases found
  next e listed =>
    have mem : e ∈ q.path.entries := List.mem_reverse.1 (List.mem_of_find?_eq_some listed)
    have none : e.returnSite? = none := by
      unfold TaintEntry.returnSite?
      split
      next ret callSite _ => exact nomatch (h e mem ret).symm.trans callSite
      next => rfl
    rw [none] at found
    cases found

/-- What a step does to the budgets: the states that follow stay within those of the known instances, or a
single one follows at the entry of a new instance, for which a smaller budget suffices. -/
inductive Spends (q : Query) (limit : Nat) (β : CallId → Nat) (w w' : World) (x : ExecState) :
    List ExecState → Prop
  | stays {fs : List ExecState} : w'.calls = w.calls → fs.length ≤ q.program.size →
    (∀ f ∈ fs, w.calls.Holds q.program f.node ∧ f.Affords q.program limit β w.calls.count) →
    Spends q limit β w w' x fs
  | enters {m : Method} {g : Digraph} {f : ExecState} {b : Nat} : q.graph m = .ok g →
    w'.calls = w.calls.withNew m g → f.node = ⟨w.calls.count, m, Body.entry⟩ → b < β x.node.callId →
    f.remaining q.program limit ≤ b →
    Ascends β w.calls.count b (f.stack.top :: f.stack.below) → Spends q limit β w w' x [f]

namespace ExecState

variable {q : Query} {limit : Nat} {β : CallId → Nat} {w w' : World} {x : ExecState} {fs : List ExecState}
  {b : Body} {us : List Update} {t : SymState} {n : Node}

theorem Affords.advance {count : Nat} (h : x.Affords q.program limit β count) (same : n.callId = x.node.callId) :
    (x.advance n t).Affords q.program limit β count := by
  have node : (x.advance n t).node = n := rfl
  exact ⟨by rw [node, same]; exact h.remaining, by rw [node, same]; exact h.frames⟩

theorem Affords.addParameter {count : Nat} (h : x.Affords q.program limit β count) (id : LocalId) (v : SymValue) :
    (x.addParameter id v).Affords q.program limit β count :=
  ⟨h.remaining, fun c caller => h.frames c caller⟩

/-- A return gets back to the instance of its caller. -/
theorem Affords.leave {count : Nat} {caller : Node} (h : x.Affords q.program limit β count)
    (top : x.stack.top.caller = some caller) (inner : x.stack.below ≠ []) (same : n.callId = caller.callId) :
    (x.leave.advance n t).Affords q.program limit β count := by
  obtain ⟨known, le, rest⟩ := h.frames caller top
  have node : (x.leave.advance n t).node = n := rfl
  refine ⟨?_, ?_⟩ <;> rw [node, same]
  · exact Nat.le_trans h.remaining le
  · obtain ⟨f, below, split⟩ := List.exists_cons_of_ne_nil inner
    have pop : x.stack.pop = ⟨f, below⟩ := by simp only [Stack.pop, split]
    rw [split] at rest
    change Ascends β count (β caller.callId) (x.stack.pop.top :: x.stack.pop.below)
    rw [pop]
    exact rest

theorem AfterSwitch.length {cases : List (Term × InstrId)} {ns : List Node} (h : AfterSwitch x t cases ns fs) :
    ns.length = fs.length := by
  induction h with
  | nil => rfl
  | cons l _ _ ih => rw [List.length_cons, List.length_cons, ih]

/-- At most one state follows, in a known instance. -/
theorem spends_option {o : Option ExecState} (calls : w'.calls = w.calls) (pos : 0 < q.program.size)
    (one : ∀ f ∈ o, w.calls.Holds q.program f.node ∧ f.Affords q.program limit β w.calls.count) :
    Spends q limit β w w' x o.toList := by
  refine .stays calls ?_ fun f mem => one f (Option.mem_toList.1 mem)
  cases o with
  | none => exact Nat.zero_le _
  | some f => exact pos

theorem proceed_spends (path : q.path.ReturnsNowhere) (drawn : w.calls.Drawn q)
    (body : q.body x.node.method = .ok b) (placed : w.calls.Places x.node)
    (affords : x.Affords q.program limit β w.calls.count) {e : Effect}
    (h : (x.proceed q limit b us e).run.run w = (.ok fs, w')) : Spends q limit β w w' x fs := by
  have pos : 0 < q.program.size :=
    Nat.lt_of_lt_of_le b.length_pos (Program.length_le_size (Query.body_ok body))
  have all {ns : List Node} (found : w.calls.successors x.node = .ok ns) (calls : w'.calls = w.calls)
      (state : Node → SymState) : Spends q limit β w w' x (ns.map fun n => x.advance n (state n)) := by
    obtain ⟨few, holds⟩ := drawn.holds_successors found
    refine .stays calls (by rwa [List.length_map]) fun f mem => ?_
    obtain ⟨n, hn, rfl⟩ := List.mem_map.1 mem
    exact ⟨(holds n hn).1, affords.advance (holds n hn).2⟩
  cases proceed_ok h with
  | goOn found | branch found => exact all found rfl _
  | parameter _ first =>
    refine spends_option rfl pos fun f mem => ?_
    obtain ⟨n, hn, rfl⟩ := Option.map_eq_some_iff.1 mem
    obtain ⟨holds, same⟩ := drawn.holds_first? first n hn
    exact ⟨holds, (affords.addParameter _ _).advance same⟩
  | switch found after =>
    obtain ⟨few, holds⟩ := drawn.holds_successors found
    refine .stays rfl ?_ fun f mem => ?_
    · rw [← AfterSwitch.length after]
      exact few
    · obtain ⟨n, hn, l, rfl⟩ := AfterSwitch.mem after mem
      exact ⟨(holds n hn).1, affords.advance (holds n hn).2⟩
  | skip _ _ first =>
    refine spends_option rfl pos fun f mem => ?_
    obtain ⟨n, hn, rfl⟩ := Option.map_eq_some_iff.1 mem
    obtain ⟨holds, same⟩ := drawn.holds_first? first n hn
    exact ⟨holds, affords.advance same⟩
  | @enter callee _ result _ _ b' _ _ _ _ _ _ entered enter body' =>
    obtain ⟨g, graph, rfl, rfl⟩ := Instances.enter_ok enter
    have less : x.count callee < limit := by
      simp only [skipReason?, Bool.not_eq_true, Option.isSome_eq_false_iff, Option.isNone_iff_eq_none] at entered
      split at entered
      · cases entered
      next => omega
    have known : callee ∈ q.program.bodies.keys :=
      List.mem_map.2 ⟨(callee, b'), Table.mem_of_get? (Query.body_ok body'), rfl⟩
    have spent := remaining_call_lt (x := x) (.ofCall x.node result) known less
    refine .enters graph rfl rfl (Nat.lt_of_lt_of_le spent affords.remaining) (Nat.le_refl _) ?_
    intro c caller
    cases caller
    exact ⟨placed.lt, Nat.le_of_lt (Nat.lt_of_lt_of_le spent affords.remaining), affords.frames⟩
  | resume _ resume =>
    obtain ⟨k, m, g, found, -, -, -⟩ := Instances.resume_ok resume
    exact absurd found (path.returnSite x.node (k, m))
  | stop => exact spends_option (o := none) rfl pos fun f mem => nomatch mem
  | leave inner top first =>
    obtain ⟨holds, same⟩ := drawn.holds_first? first _ rfl
    refine spends_option (o := some _) rfl pos fun f mem => ?_
    cases mem
    exact ⟨holds, affords.leave top inner same⟩

theorem next_spends (path : q.path.ReturnsNowhere) (drawn : w.calls.Drawn q) (placed : w.calls.Places x.node)
    (affords : x.Affords q.program limit β w.calls.count)
    (h : (x.next q limit).run.run w = (.ok fs, w')) : Spends q limit β w w' x fs := by
  obtain ⟨b, i, e, M, c, body, -, -, rest⟩ := next_ok h
  have spends := proceed_spends (w := w.withContext c) path drawn body placed affords rest
  cases spends with
  | stays calls few follow => exact .stays calls few follow
  | enters graph calls node less remaining frames => exact .enters graph calls node less remaining frames

end ExecState
end SinkReach
