import Mathlib.Algebra.Order.BigOperators.Group.Finset
import SinkReach.Proofs.Analysis.Frontier
import SinkReach.Proofs.Step.Budget

/-!
The search ends. New call instances make new nodes, so that processing each node once is no measure by
itself; but an instance of budget `b` is worth no more than its nodes, each of which queues some nodes
and opens at most one instance of a smaller budget. The sum of what the unprocessed nodes are worth and
of the length of the queue falls with every step.
-/
namespace SinkReach

/-- What a node of an instance is worth: as many places in the queue as the program has instructions, and
as many nodes of an instance whose budget is one less. -/
def worth (size : Nat) : Nat → Nat
  | 0 => size
  | b + 1 => size + size * worth size b

theorem worth_le_succ (size b : Nat) : worth size b ≤ worth size (b + 1) := by
  induction b with
  | zero => exact Nat.le_add_right ..
  | succ b ih => exact Nat.add_le_add_left (Nat.mul_le_mul_left size ih) size

theorem worth_mono (size : Nat) : Monotone (worth size) := monotone_nat_of_le_succ (worth_le_succ size)

theorem size_le_worth (size b : Nat) : size ≤ worth size b := worth_mono size (Nat.zero_le b)

/-- A node pays for the nodes of an instance of a smaller budget. -/
theorem mul_worth_le (size : Nat) {b b' : Nat} (h : b < b') : size + size * worth size b ≤ worth size b' :=
  worth_mono size h

/-- A sum of which one term falls. -/
theorem sum_add_of_fall {s : Finset Nat} {f g : Nat → Nat} {a c : Nat} (mem : a ∈ s) (here : g a + c = f a)
    (rest : ∀ i ∈ s, i ≠ a → g i = f i) : ∑ i ∈ s, g i + c = ∑ i ∈ s, f i := by
  have same : ∑ i ∈ s.erase a, g i = ∑ i ∈ s.erase a, f i :=
    Finset.sum_congr rfl fun i hi => rest i (Finset.mem_of_mem_erase hi) (Finset.ne_of_mem_erase hi)
  rw [← Finset.add_sum_erase s f mem, ← Finset.add_sum_erase s g mem, same]
  omega

namespace Worklist

variable {w : Worklist} {n : Node} {first : Bool} {i k : Nat}

/-- Whether a node of the instance and the instruction is processed. -/
def marks (w : Worklist) (i : CallId) (k : InstrId) : Bool :=
  w.processed.any fun n => n.callId = i && n.instr = k

theorem marks_iff : w.marks i k = true ↔ ∃ n ∈ w.processed, n.callId = i ∧ n.instr = k := by
  simp [marks, List.any_eq_true]

theorem marks_schedule : (w.schedule n first).marks i k = w.marks i k := by
  unfold marks
  rw [processed_schedule]

theorem marks_mark : (w.mark n).marks i k = true ↔ (n.callId = i ∧ n.instr = k) ∨ w.marks i k = true := by
  simp only [marks_iff, mem_processed_mark, or_and_right, exists_or, exists_eq_left]

/-- A node that is not processed is the only one of its instance and instruction. -/
theorem marks_eq_false {calls : Instances ExecState} (processed : ∀ k ∈ w.processed, calls.Places k)
    (placed : calls.Places n) (fresh : n ∉ w.processed) : w.marks n.callId n.instr = false := by
  rw [Bool.eq_false_iff]
  intro marked
  obtain ⟨k, mem, callId, instr⟩ := marks_iff.1 marked
  obtain rfl := (processed k mem).eq placed callId instr
  exact fresh mem

theorem length_queue_schedule : (w.schedule n first).queue.length ≤ w.queue.length + 1 := by
  unfold schedule
  split
  · exact Nat.le_succ _
  · split <;> simp

end Worklist

namespace Search

/-- What the unprocessed instructions of an instance are worth. -/
def worthOf (size : Nat) (w : Worklist) (β : CallId → Nat) (i : CallId) : Nat :=
  ∑ k ∈ Finset.range size, if w.marks i k then 0 else worth size (β i)

/-- What is left to do: the queue, and the unprocessed instructions of all instances. -/
def potential (size : Nat) (β : CallId → Nat) (s : Search) : Nat :=
  ∑ i ∈ Finset.range s.world.calls.count, worthOf size s.worklist β i + s.worklist.queue.length

theorem worthOf_le (size : Nat) (w : Worklist) (β : CallId → Nat) (i : CallId) :
    worthOf size w β i ≤ size * worth size (β i) := by
  have each : ∀ k ∈ Finset.range size, (if w.marks i k then 0 else worth size (β i)) ≤ worth size (β i) := by
    intro k _
    split
    · exact Nat.zero_le _
    · exact Nat.le_refl _
  calc worthOf size w β i ≤ ∑ _k ∈ Finset.range size, worth size (β i) := Finset.sum_le_sum each
    _ = (Finset.range size).card * worth size (β i) := Finset.sum_const_nat fun _ _ => rfl
    _ = size * worth size (β i) := by rw [Finset.card_range]

section Marking

variable {size count : Nat} {w w' : Worklist} {β : CallId → Nat} {n : Node}

/-- Processing a node uses up what it is worth in its instance. -/
theorem worthOf_mark
    (marked : ∀ i k, w'.marks i k = true ↔ (n.callId = i ∧ n.instr = k) ∨ w.marks i k = true)
    (small : n.instr < size) (fresh : w.marks n.callId n.instr = false) :
    worthOf size w' β n.callId + worth size (β n.callId) = worthOf size w β n.callId := by
  refine sum_add_of_fall (Finset.mem_range.2 small) ?_ fun k _ other => ?_
  · rw [if_pos ((marked _ _).2 (.inl ⟨rfl, rfl⟩)), fresh, Nat.zero_add]
    rfl
  · have same : w'.marks n.callId k = w.marks n.callId k := by
      rw [Bool.eq_iff_iff, marked]
      simp [Ne.symm other]
    rw [same]

theorem worthOf_mark_of_ne
    (marked : ∀ i k, w'.marks i k = true ↔ (n.callId = i ∧ n.instr = k) ∨ w.marks i k = true)
    {i : CallId} (other : i ≠ n.callId) : worthOf size w' β i = worthOf size w β i := by
  refine Finset.sum_congr rfl fun k _ => ?_
  have same : w'.marks i k = w.marks i k := by
    rw [Bool.eq_iff_iff, marked]
    simp [Ne.symm other]
  rw [same]

theorem sum_worthOf_mark (known : n.callId < count) (small : n.instr < size)
    (fresh : w.marks n.callId n.instr = false) :
    ∑ i ∈ Finset.range count, worthOf size (w.mark n) β i + worth size (β n.callId) =
      ∑ i ∈ Finset.range count, worthOf size w β i :=
  sum_add_of_fall (Finset.mem_range.2 known) (worthOf_mark (fun _ _ => Worklist.marks_mark) small fresh)
    fun _ _ other => worthOf_mark_of_ne (fun _ _ => Worklist.marks_mark) other

end Marking

/-- Nodes that wait or are processed belong to instances, and states stay within the budgets of theirs. -/
structure Budgeted (q : Query) (limit : Nat) (β : CallId → Nat) (s : Search) (pending : List ExecState) :
    Prop where
  drawn : s.world.calls.Drawn q
  queued : ∀ n ∈ s.worklist.queue, s.world.calls.Holds q.program n
  processed : ∀ n ∈ s.worklist.processed, s.world.calls.Places n
  kept : ∀ n x, s.world.calls.data? n = some x → x.node.callId = n.callId ∧
    s.world.calls.Places x.node ∧ x.Affords q.program limit β s.world.calls.count
  arriving : ∀ x ∈ pending, s.world.calls.Holds q.program x.node ∧
    x.Affords q.program limit β s.world.calls.count

namespace Budgeted

variable {q : Query} {t : Task} {o : Overflow} {m : Method} {limit : Nat} {β : CallId → Nat} {s s' : Search}
  {x : ExecState} {xs : List ExecState} {n : Node} {worklist : Worklist} {first : Option Node}

theorem start (h : Search.start t m = .ok s) :
    Budgeted t.query t.limit (fun _ => t.query.program.bodies.entries.length * t.limit) s [] := by
  obtain ⟨placed, only⟩ := start_kept h
  obtain ⟨entry, calls, calls', enter, keep, rfl⟩ := start_ok h
  obtain ⟨g, graph, rfl, rfl⟩ := Instances.enter_ok enter
  obtain ⟨b, body⟩ := Query.body_of_graph graph
  have small : Body.entry < t.query.program.size :=
    Nat.lt_of_lt_of_le b.length_pos (Program.length_le_size (Query.body_ok body))
  refine ⟨?_, List.forall_mem_singleton.2 ⟨placed, small⟩, fun _ mem => (nomatch mem), ?_, fun _ mem => nomatch mem⟩
  · exact (Instances.Drawn.withNew (s := .empty) (fun _ mem => nomatch mem) graph).keep keep
  · intro n x found
    obtain ⟨here, rfl⟩ := only n x found
    refine ⟨here.1, placed, ?_, fun c caller => nomatch caller⟩
    exact Nat.le_of_eq (ExecState.remaining_initial _)

/-- Taking a node from the queue makes the potential fall by one. -/
theorem skip (h : Budgeted q limit β s []) (pop : s.worklist.pop? = some (n, worklist)) (stats : Stats) :
    Budgeted q limit β { s with worklist, stats } [] ∧
      ({ s with worklist, stats } : Search).potential q.program.size β + 1 = s.potential q.program.size β := by
  obtain ⟨queue, processed⟩ := Worklist.pop?_ok pop
  refine ⟨⟨h.drawn, fun k hk => h.queued k ?_, fun k hk => h.processed k ?_, h.kept, h.arriving⟩, ?_⟩
  · rw [queue]
    exact List.mem_cons_of_mem _ hk
  · rw [← processed]
    exact hk
  · have same : ∀ i, worthOf q.program.size worklist β i = worthOf q.program.size s.worklist β i := by
      intro i
      unfold worthOf Worklist.marks
      rw [processed]
    unfold potential
    simp only [same, queue, List.length_cons]
    omega

/-- Receiving a state queues at most one node. -/
theorem receive (h : Budgeted q limit β s (x :: xs))
    (received : (Searching.receive o first x).run.run s = (.ok (), s')) :
    Budgeted q limit β s' xs ∧ s'.world.calls.count = s.world.calls.count ∧
      s'.stats.iterations = s.stats.iterations ∧
      s'.potential q.program.size β ≤ s.potential q.program.size β + 1 := by
  obtain ⟨stored, c, calls, how, keep, world, worklist, stats⟩ := Searching.receive_ok received
  obtain ⟨⟨here, affords⟩, rest⟩ := List.forall_mem_cons.1 h.arriving
  have count : s'.world.calls.count = s.world.calls.count := by
    rw [world]
    exact Instances.count_keep keep
  have places : ∀ k, s'.world.calls.Places k ↔ s.world.calls.Places k := by
    intro k
    rw [world]
    exact Instances.places_keep keep
  have storedAffords : stored.Affords q.program limit β s.world.calls.count := by
    cases how with
    | first => exact affords
    | merged data merge =>
      obtain ⟨-, node, -, stack⟩ := ExecState.merge_ok merge
      have previous := (h.kept _ _ data).2.2
      refine ⟨?_, ?_⟩ <;> rw [node]
      · exact Nat.le_trans (ExecState.remaining_merge_le merge) previous.remaining
      · rw [stack]
        exact previous.frames
  refine ⟨⟨?_, ?_, ?_, ?_, ?_⟩, count, by rw [stats], ?_⟩
  · rw [world]
    exact h.drawn.keep keep
  · intro k hk
    rw [worklist] at hk
    unfold Instances.Holds
    rw [places]
    rcases Worklist.mem_queue_schedule.1 hk with hk | ⟨rfl, -⟩
    · exact h.queued k hk
    · exact here
  · intro k hk
    rw [worklist, Worklist.processed_schedule] at hk
    exact (places k).2 (h.processed k hk)
  · intro k y data
    rw [count, places]
    rw [world] at data
    rcases Instances.put_or_kept keep data with ⟨same, rfl⟩ | data
    · rw [how.node]
      exact ⟨same.1, here.1, storedAffords⟩
    · exact h.kept k y data
  · intro y hy
    unfold Instances.Holds
    rw [count, places]
    exact rest y hy
  · have same : ∀ i, worthOf q.program.size s'.worklist β i = worthOf q.program.size s.worklist β i := by
      intro i
      unfold worthOf
      rw [worklist]
      simp only [Worklist.marks_schedule]
    have queue : s'.worklist.queue.length ≤ s.worklist.queue.length + 1 := by
      rw [worklist]
      exact Worklist.length_queue_schedule
    unfold potential
    simp only [same, count]
    omega

/-- Receiving states queues at most as many nodes. -/
theorem receives (h : Budgeted q limit β s xs) (received : Searching.Receives o first xs s s') :
    Budgeted q limit β s' [] ∧ s'.world.calls.count = s.world.calls.count ∧
      s'.stats.iterations = s.stats.iterations ∧
      s'.potential q.program.size β ≤ s.potential q.program.size β + xs.length := by
  induction received with
  | nil => exact ⟨h, rfl, rfl, Nat.le_refl _⟩
  | cons receive _ ih =>
    obtain ⟨budgeted, count, iterations, le⟩ := h.receive receive
    obtain ⟨budgeted', count', iterations', le'⟩ := ih budgeted
    refine ⟨budgeted', count'.trans count, iterations'.trans iterations, ?_⟩
    rw [List.length_cons]
    omega

theorem not_marks (h : Budgeted q limit β s []) (placed : s.world.calls.Places n)
    (fresh : s.worklist.isProcessed n = false) : s.worklist.marks n.callId n.instr = false :=
  Worklist.marks_eq_false h.processed placed (Worklist.not_mem_processed fresh)

/-- Nothing that is known changes when an instance is added. -/
theorem withNew (h : Budgeted q limit β s []) {g : Digraph} (graph : q.graph m = .ok g) (b : Nat) (c : Context) :
    Budgeted q limit (Function.update β s.world.calls.count b)
      { s with world := ⟨s.world.calls.withNew m g, c⟩ } [] := by
  have count : (s.world.calls.withNew m g).count = s.world.calls.count + 1 := by
    simp [Instances.withNew, Instances.count]
  have agree : ∀ i < s.world.calls.count, Function.update β s.world.calls.count b i = β i :=
    fun i less => Function.update_of_ne (Nat.ne_of_lt less) b β
  refine ⟨h.drawn.withNew graph, fun k hk => ?_, fun k hk => (h.processed k hk).withNew m g, ?_,
    fun _ mem => nomatch mem⟩
  · obtain ⟨placed, small⟩ := h.queued k hk
    exact ⟨placed.withNew m g, small⟩
  · intro k y data
    obtain ⟨same, placed, affords⟩ := h.kept k y (Instances.data?_withNew g data)
    refine ⟨same, placed.withNew m g, ?_⟩
    change y.Affords q.program limit _ (s.world.calls.withNew m g).count
    rw [count]
    exact affords.mono placed.lt agree (Nat.le_succ _)

/-- An instance that is added is worth its nodes. -/
theorem potential_withNew (size : Nat) (s : Search) (g : Digraph) (b : Nat) (c : Context) :
    ({ s with world := ⟨s.world.calls.withNew m g, c⟩ } : Search).potential size
        (Function.update β s.world.calls.count b) ≤ s.potential size β + size * worth size b := by
  have count : (s.world.calls.withNew m g).count = s.world.calls.count + 1 := by
    simp [Instances.withNew, Instances.count]
  have old : ∑ i ∈ Finset.range s.world.calls.count,
      worthOf size s.worklist (Function.update β s.world.calls.count b) i =
        ∑ i ∈ Finset.range s.world.calls.count, worthOf size s.worklist β i := by
    refine Finset.sum_congr rfl fun i hi => ?_
    unfold worthOf
    rw [Function.update_of_ne (Nat.ne_of_lt (Finset.mem_range.1 hi))]
  have new := worthOf_le size s.worklist (Function.update β s.world.calls.count b) s.world.calls.count
  rw [Function.update_self] at new
  unfold potential
  simp only [count, Finset.sum_range_succ, old]
  omega

/-- Expanding a node pays for all that it queues and opens. -/
theorem expand (h : Budgeted q limit β s []) (path : q.path.ReturnsNowhere)
    (pop : s.worklist.pop? = some (n, worklist)) (fresh : worklist.isProcessed n = false)
    (data : s.world.calls.data? n = some x) {w : World}
    (next : (x.next q limit).run.run s.world = (.ok xs, w)) (stats : Stats) :
    ∃ β', Budgeted q limit β' ⟨w, worklist.mark n, stats⟩ xs ∧
      w.calls.count ≤ s.world.calls.count + 1 ∧
      (⟨w, worklist.mark n, stats⟩ : Search).potential q.program.size β' + xs.length + 1 ≤
        s.potential q.program.size β := by
  obtain ⟨queue, -⟩ := Worklist.pop?_ok pop
  obtain ⟨placed, small⟩ := h.queued n (queue ▸ List.mem_cons_self)
  obtain ⟨popped, fall⟩ := h.skip pop stats
  obtain ⟨callId, placed', affords⟩ := h.kept n x data
  -- The node is marked before the instances change.
  have marked : Budgeted q limit β ⟨s.world, worklist.mark n, stats⟩ [] := by
    refine ⟨popped.drawn, fun k hk => popped.queued k ?_, fun k hk => ?_, popped.kept, popped.arriving⟩
    · rwa [Worklist.queue_mark] at hk
    · rcases Worklist.mem_processed_mark.1 hk with rfl | hk
      · exact placed
      · exact popped.processed k hk
  have paid : (⟨s.world, worklist.mark n, stats⟩ : Search).potential q.program.size β +
      worth q.program.size (β n.callId) + 1 = s.potential q.program.size β := by
    have sum := sum_worthOf_mark (w := worklist) (β := β) placed.lt small (popped.not_marks placed fresh)
    rw [← fall]
    unfold potential
    simp only [Worklist.queue_mark]
    omega
  have afford := size_le_worth q.program.size (β n.callId)
  cases ExecState.next_spends path h.drawn placed' affords next with
  | stays calls few follow =>
    obtain ⟨calls', c⟩ := w
    cases calls
    refine ⟨β, ⟨marked.drawn, marked.queued, marked.processed, marked.kept, follow⟩, Nat.le_succ _, ?_⟩
    change (⟨s.world, worklist.mark n, stats⟩ : Search).potential q.program.size β + xs.length + 1 ≤ _
    omega
  | @enters m g f b graph calls node less remaining frames =>
    obtain ⟨calls', c⟩ := w
    cases calls
    have opened := marked.withNew graph b c
    have value := potential_withNew (m := m) (β := β) q.program.size
      ⟨s.world, worklist.mark n, stats⟩ g b c
    have count : (s.world.calls.withNew m g).count = s.world.calls.count + 1 := by
      simp [Instances.withNew, Instances.count]
    refine ⟨_, ⟨opened.drawn, opened.queued, opened.processed, opened.kept, List.forall_mem_singleton.2 ?_⟩,
      Nat.le_of_eq count, ?_⟩
    · obtain ⟨b', body⟩ := Query.body_of_graph graph
      have first : Body.entry < q.program.size :=
        Nat.lt_of_lt_of_le b'.length_pos (Program.length_le_size (Query.body_ok body))
      rw [node]
      refine ⟨⟨s.world.calls.places_new m g _, first⟩, ?_, ?_⟩ <;> rw [node]
      · rw [Function.update_self]
        exact remaining
      · rw [Function.update_self]
        refine frames.mono (fun i known => ?_) (Nat.le_of_lt (count ▸ Nat.lt_succ_self _))
        exact Function.update_of_ne (Nat.ne_of_lt known) b β
    · rw [callId] at less
      have cheaper := mul_worth_le q.program.size less
      have pos : 0 < q.program.size := Nat.zero_lt_of_lt small
      change potential _ _ ⟨⟨s.world.calls.withNew m g, c⟩, worklist.mark n, stats⟩ ≤ _ at value
      change potential _ _ ⟨⟨s.world.calls.withNew m g, c⟩, worklist.mark n, stats⟩ + 1 + 1 ≤ _
      omega

/-- Every step that goes on makes the potential fall, and opens at most one instance. -/
theorem step (h : Budgeted t.query t.limit β s []) (path : t.query.path.ReturnsNowhere)
    (running : s.step t = .running s') :
    ∃ β', Budgeted t.query t.limit β' s' [] ∧ s'.stats.iterations = s.stats.iterations + 1 ∧
      s'.world.calls.count ≤ s.world.calls.count + 1 ∧
      s'.potential t.query.program.size β' + 1 ≤ s.potential t.query.program.size β := by
  cases steps_of_running running with
  | skip pop _ =>
    obtain ⟨budgeted, fall⟩ := h.skip pop { s.stats with iterations := s.stats.iterations + 1 }
    exact ⟨β, budgeted, rfl, Nat.le_succ _, Nat.le_of_eq fall⟩
  | expand pop fresh data _ _ next receives =>
    obtain ⟨β', expanded, opened, fall⟩ := h.expand path pop fresh data next
      { s.stats with iterations := s.stats.iterations + 1, processed := s.stats.processed + 1 }
    obtain ⟨budgeted, count, iterations, rise⟩ := expanded.receives receives
    refine ⟨β', budgeted, iterations, ?_, by omega⟩
    rw [count]
    exact opened

/-- A search whose potential is below the fuel has a result. -/
theorem run_some (path : t.query.path.ReturnsNowhere) {fuel : Nat} (h : Budgeted t.query t.limit β s [])
    (enough : s.potential t.query.program.size β < fuel) : ∃ r, s.run t fuel = some r := by
  induction fuel generalizing s β with
  | zero => exact absurd enough (Nat.not_lt_zero _)
  | succ fuel ih =>
    unfold run
    cases running : s.step t with
    | done r => exact ⟨r, rfl⟩
    | running s' =>
      obtain ⟨β', budgeted, -, -, fall⟩ := h.step path running
      exact ih budgeted (by omega)

end Budgeted

end Search

/-- More steps than any search takes in which methods are entered so many times at most. -/
def Program.stepBound (p : Program) (limit : Nat) : Nat :=
  p.size * worth p.size (p.bodies.entries.length * limit) + 1

namespace Search

variable {t : Task} {m : Method} {s : Search}

theorem potential_start (h : Search.start t m = .ok s) :
    s.world.calls.count = 1 ∧ s.stats.iterations = 0 ∧ s.potential t.query.program.size
      (fun _ => t.query.program.bodies.entries.length * t.limit) ≤ t.query.program.stepBound t.limit := by
  obtain ⟨entry, calls, calls', enter, keep, rfl⟩ := start_ok h
  obtain ⟨g, -, -, rfl⟩ := Instances.enter_ok enter
  have count : calls'.count = 1 := Instances.count_keep keep
  refine ⟨count, rfl, ?_⟩
  unfold potential Program.stepBound
  simp only [count, Finset.sum_range_one]
  exact Nat.add_le_add_right (worthOf_le _ _ _ 0) 1

/-- What the steps taken so far and those to come add up to is known from the start. -/
theorem Reached.budgeted (path : t.query.path.ReturnsNowhere) (h : Reached t m s) :
    ∃ β, Budgeted t.query t.limit β s [] ∧ s.world.calls.count ≤ s.stats.iterations + 1 ∧
      s.stats.iterations + s.potential t.query.program.size β ≤ t.query.program.stepBound t.limit := by
  obtain ⟨s₀, n, start, after⟩ := h
  refine after?_invariant (fun s => ∃ β, Budgeted t.query t.limit β s [] ∧
    s.world.calls.count ≤ s.stats.iterations + 1 ∧
    s.stats.iterations + s.potential t.query.program.size β ≤ t.query.program.stepBound t.limit) ?_ ?_ after
  · rintro s s' ⟨β, budgeted, few, total⟩ running
    obtain ⟨β', budgeted', iterations, opened, fall⟩ := budgeted.step path running
    exact ⟨β', budgeted', by omega, by omega⟩
  · obtain ⟨count, iterations, bound⟩ := potential_start start
    exact ⟨_, .start start, by omega, by omega⟩

end Search

/-- An analysis whose path returns nowhere ends, however often methods call each other and themselves. The
bound depends on the program and on the limit of calls only, and also bounds the call instances. -/
theorem Analyzer.analyze_ends (a : Analyzer) {q : Query} (path : q.path.ReturnsNowhere) (m : Method) :
    (∀ fuel, q.program.stepBound a.settings.methodCalls < fuel → ∃ r, a.analyze fuel q m o = some r) ∧
      ∀ s, Search.Reached (a.task q o) m s →
        s.stats.iterations ≤ q.program.stepBound a.settings.methodCalls ∧
          s.world.calls.count ≤ q.program.stepBound a.settings.methodCalls + 1 := by
  constructor
  · intro fuel enough
    unfold Analyzer.analyze
    split
    · exact ⟨_, rfl⟩
    next s start =>
      obtain ⟨-, -, bound⟩ := Search.potential_start start
      exact (Search.Budgeted.start start).run_some path (Nat.lt_of_le_of_lt bound enough)
  · intro s reached
    obtain ⟨β, -, few, total⟩ := reached.budgeted path
    have limit : (a.task q o).query.program.stepBound (a.task q o).limit =
      q.program.stepBound a.settings.methodCalls := rfl
    omega

def again : Method := ⟨"A", "again", [], .void⟩

/-- A method that calls itself for ever. -/
def againBody : Body where
  method := again
  locals := []
  instructions := [.invoke ⟨.static, again, none, []⟩, .goto 0]
  successors := [[1], [0]]
  nonempty := List.cons_ne_nil _ _
  successors_length := rfl
  edges_lt := by decide

def againQuery : Query where
  program := .ofBodies [againBody] []
  path := ⟨[⟨.ret, again, 1, none, some again⟩, ⟨.sink, ⟨"A", "end", [], .void⟩, 0, none, none⟩], by decide⟩

theorem analyze_ends_again : againQuery.program.stepBound 4 = 125 ∧
    ∃ r, plainAnalyzer.analyze 126 againQuery again = some r := by
  have path : againQuery.path.ReturnsNowhere := by
    intro e mem _
    rcases List.mem_pair.1 mem with rfl | rfl <;> rfl
  have bound : againQuery.program.stepBound 4 = 125 := by decide
  refine ⟨bound, (plainAnalyzer.analyze_ends path again).1 126 ?_⟩
  change againQuery.program.stepBound 4 < 126
  omega

end SinkReach
