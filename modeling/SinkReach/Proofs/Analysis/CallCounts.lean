import Mathlib.Algebra.BigOperators.Group.Finset.Piecewise
import Mathlib.Algebra.Order.BigOperators.Group.Finset
import SinkReach.Proofs.Analysis.Lineage

/-!
How often the methods of a program are entered. A step counts a method at most once and only below the limit,
a return takes nothing back, and a merge keeps the greater count of each method. So no count falls along a
lineage or passes the limit, and since every frame but the outermost was pushed by a call that was counted,
the depth of a stack is bounded by the counts.
-/
namespace SinkReach

variable {p : Program} {limit : Nat} {x y r f : ExecState} {m k : Method}

/-- Methods that have a body. -/
def Program.bodied (p : Program) : Finset Method := p.bodies.keys.toFinset

theorem Program.mem_bodied : k ∈ p.bodied ↔ (p.body? k).isSome := by
  unfold bodied body?
  rw [List.mem_toFinset, Table.isSome_get?]
  simp only [beq_iff_eq, exists_eq_right]

theorem le_mergeCounts_right (lhs rhs : Table Method Nat) (k : Method) :
    (rhs.get? k).getD 0 ≤ ((mergeCounts lhs rhs).get? k).getD 0 := by
  cases found : rhs.get? k with
  | none => exact Nat.zero_le _
  | some v =>
    have mem := Table.mem_of_get? found
    unfold mergeCounts
    generalize rhs.entries = es at mem
    induction es generalizing lhs with
    | nil => cases mem
    | cons e es ih =>
      rcases List.mem_cons.1 mem with rfl | mem
      · refine Nat.le_trans ?_ (le_mergeCounts _ ⟨es⟩ k)
        rw [Table.get?_insert_self]
        exact Nat.le_max_right ..
      · exact ih _ mem

/-- All counts are those of methods with a body, and within the limit. -/
def Tallied (p : Program) (limit : Nat) (counts : Table Method Nat) : Prop :=
  ∀ e ∈ counts.entries, (p.body? e.1).isSome ∧ e.2 ≤ limit

/-- The greater of two counts is the count of one. -/
theorem Tallied.merge {lhs rhs : Table Method Nat} (left : Tallied p limit lhs) (right : Tallied p limit rhs) :
    Tallied p limit (mergeCounts lhs rhs) := by
  unfold Tallied at right
  unfold mergeCounts
  generalize rhs.entries = es at right
  induction es generalizing lhs with
  | nil => exact left
  | cons e es ih =>
    obtain ⟨⟨body, within⟩, rest⟩ := List.forall_mem_cons.1 right
    refine ih (fun e' mem => ?_) rest
    rcases Table.mem_insert mem with rfl | old
    · refine ⟨body, Nat.max_le.2 ⟨?_, within⟩⟩
      cases found : lhs.get? e.1 with
      | none => exact Nat.zero_le _
      | some n => exact (left _ (Table.mem_of_get? found)).2
    · exact left e' old

namespace ExecState

/-- No count falls along a step. -/
theorem Advances.count_le {objects : Nat} (h : Advances p limit objects x f) (k : Method) : x.count k ≤ f.count k := by
  cases h.counts with
  | stays same => exact Nat.le_of_eq (by rw [count, count, same])
  | @enters callee site _ _ counts =>
    have counted : f.count k = (x.call site callee).count k := by rw [count, count, counts]
    rw [counted, count_call]
    split
    next same =>
      subst same
      exact Nat.le_succ _
    next => exact Nat.le_refl _

/-- A merged state counts no less than either of the two. -/
theorem count_le_merge {o : Overflow} {c c' : Context} (h : (x.merge y o).run.run c = (.ok r, c')) (k : Method) :
    x.count k ≤ r.count k ∧ y.count k ≤ r.count k := by
  simp only [count, (merge_history h).2.1]
  exact ⟨le_mergeCounts x.counts y.counts k, le_mergeCounts_right x.counts y.counts k⟩

/-- Counts are those of methods with a body and within the limit, and bound the depth of the stack. -/
structure Counted (p : Program) (limit : Nat) (x : ExecState) : Prop where
  entered : Tallied p limit x.counts
  depth : x.stack.depth ≤ 1 + ∑ k ∈ p.bodied, x.count k

theorem Counted.initial (entry : Node) : Counted p limit (.initial entry) :=
  ⟨fun _ mem => (nomatch mem), Nat.le_add_right ..⟩

theorem Counted.count_le (h : Counted p limit x) (k : Method) : x.count k ≤ limit := by
  unfold count
  cases found : x.counts.get? k with
  | none => exact Nat.zero_le _
  | some n => exact (h.entered _ (Table.mem_of_get? found)).2

theorem Counted.count_eq_zero (h : Counted p limit x) (other : k ∉ p.bodied) : x.count k = 0 := by
  unfold count
  cases found : x.counts.get? k with
  | none => rfl
  | some n => exact absurd (Program.mem_bodied.2 (h.entered _ (Table.mem_of_get? found)).1) other

/-- Entering a method with a body adds one to the sum. -/
theorem sum_count_call (site : Frame) (known : k ∈ p.bodied) :
    ∑ j ∈ p.bodied, (x.call site k).count j = ∑ j ∈ p.bodied, x.count j + 1 := by
  have one (j : Method) : (x.call site k).count j = x.count j + if k = j then 1 else 0 := by
    rw [count_call]
    split
    next same => rw [same]
    next => rfl
  rw [Finset.sum_congr rfl fun j _ => one j, Finset.sum_add_distrib, Finset.sum_ite_eq, if_pos known]

theorem Counted.advances {objects : Nat} (h : Counted p limit x) (step : Advances p limit objects x f) :
    Counted p limit f := by
  cases step.counts with
  | stays same shallower =>
    have counts (k : Method) : f.count k = x.count k := by rw [count, count, same]
    refine ⟨same ▸ h.entered, ?_⟩
    simp only [counts]
    exact Nat.le_trans shallower h.depth
  | @enters callee site body less counts deeper =>
    have counted (k : Method) : f.count k = (x.call site callee).count k := by rw [count, count, counts]
    refine ⟨fun e mem => ?_, ?_⟩
    · rw [counts] at mem
      rcases Table.mem_insert mem with rfl | old
      · exact ⟨body, less⟩
      · exact h.entered e old
    · simp only [counted, sum_count_call site (Program.mem_bodied.2 body), deeper]
      exact Nat.succ_le_succ h.depth

theorem Counted.merge {o : Overflow} {c c' : Context} (merge : (x.merge y o).run.run c = (.ok r, c'))
    (hx : Counted p limit x) (hy : Counted p limit y) : Counted p limit r := by
  obtain ⟨-, -, -, stack⟩ := merge_ok merge
  refine ⟨?_, ?_⟩
  · rw [(merge_history merge).2.1]
    exact hx.entered.merge hy.entered
  · rw [stack]
    refine Nat.le_trans hx.depth (Nat.add_le_add_left (Finset.sum_le_sum fun k _ => ?_) 1)
    exact (count_le_merge merge k).1

end ExecState

namespace Snapshot

variable {t : Task} {s s' : Snapshot}

theorem IsMoment.counted (moment : s.IsMoment t m) (held : s.Holds x) :
    x.Counted t.query.program t.limit := by
  refine moment.each (.initial _) (fun expands counted => ?_) (fun merge hx hy => hx.merge merge hy) x held
  obtain ⟨_, i, -, -, advances⟩ := expands.advances
  exact counted.advances advances

/-- Call counts never fall and are bounded. In every state that a search holds, no method was entered more
often than the limit, and none without a body; the frames above the outermost one are no more than the calls
counted, hence no more than the limit for each method with a body. No count falls from the state to one that
follows, nor from either of two states to their merge. -/
theorem calls_bounded (moment : s.IsMoment t m) (held : s.Holds x) :
    (∀ k, x.count k ≤ t.limit) ∧ (∀ k, k ∉ t.query.program.bodied → x.count k = 0) ∧
      x.stack.depth - 1 ≤ ∑ k ∈ t.query.program.bodied, x.count k ∧
      x.stack.depth ≤ 1 + t.limit * t.query.program.bodied.card ∧
      (∀ s' f, Expands t s s' x f → ∀ k, x.count k ≤ f.count k) ∧
      ∀ y r o c c', (x.merge y o).run.run c = (.ok r, c') → ∀ k, x.count k ≤ r.count k ∧ y.count k ≤ r.count k := by
  have counted := moment.counted held
  have sum : ∑ k ∈ t.query.program.bodied, x.count k ≤ t.query.program.bodied.card * t.limit :=
    calc ∑ k ∈ t.query.program.bodied, x.count k
      _ ≤ ∑ _k ∈ t.query.program.bodied, t.limit := Finset.sum_le_sum fun k _ => counted.count_le k
      _ = t.query.program.bodied.card * t.limit := Finset.sum_const_nat fun _ _ => rfl
  refine ⟨counted.count_le, fun k other => counted.count_eq_zero other, ?_, ?_, fun s' f expands k => ?_,
    fun y r o c c' merge => ExecState.count_le_merge merge⟩
  · exact Nat.sub_le_of_le_add (Nat.add_comm 1 _ ▸ counted.depth)
  · rw [Nat.mul_comm]
    exact Nat.le_trans counted.depth (Nat.add_le_add_left sum 1)
  · obtain ⟨_, i, -, -, advances⟩ := expands.advances
    exact advances.count_le k

section Picking

/-- The state inside the call: the callee was entered once, and its frame is the second of two. -/
theorem calls_bounded_picking : ∃ (s : Snapshot) (x : ExecState), s.IsMoment callingTask calling ∧ s.Holds x ∧
    x.node = ⟨1, picking, 4⟩ ∧ x.count picking = 1 ∧ x.stack.depth = 2 ∧ callingTask.limit = 1 ∧
    (∀ k, x.count k ≤ 1) ∧ x.stack.depth ≤ 1 + 1 * callingTask.query.program.bodied.card := by
  have joins : receivesAfter callingTask calling 12 (fun x => x.node = ⟨1, picking, 4⟩ &&
      x.count picking = 1 && x.stack.depth = 2) = true := by
    decide +kernel
  obtain ⟨s, x, after, mem, tested⟩ := exists_received joins
  simp only [Bool.and_eq_true, decide_eq_true_eq] at tested
  obtain ⟨⟨node, count⟩, depth⟩ := tested
  have moment := isMoment_of_nth? after
  obtain ⟨within, -, -, shallow, -⟩ := calls_bounded moment (.inl mem)
  exact ⟨s, x, moment, .inl mem, node, count, depth, rfl, within, shallow⟩

end Picking
end Snapshot
end SinkReach
