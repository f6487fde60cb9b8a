import SinkReach.Proofs.Analysis.CallStacks
import SinkReach.Proofs.Analysis.Lineage

/-!
How often states were merged. The counter of a state is one less than the number of ways that were joined in
it, as far as 32 bits hold it. A merge adds up the ways of both sides, so that their number may double with
every merge of a search: the counter is exact for the first 32 merges, and there are searches where the next
one exceeds it, which makes the counter wrong or, in a build that checks for overflow, stops the program.
-/
namespace SinkReach

namespace Snapshot

variable {t : Task} {m : Method} {p p' : Snapshot} {x y r u : ExecState} {xs : List ExecState} {s : Search}
  {k k' : Nat} {c c' : Context}

/-- A number of ways to come to a state are joined in it: a step goes on along each of them, and a merge
joins those of both states. -/
inductive Joins (t : Task) (m : Method) : Nat → ExecState → Prop
  | initial : Joins t m 1 (.initial ⟨0, m, Body.entry⟩)
  | follows {p p' : Snapshot} {x f : ExecState} {k : Nat} : p.IsMoment t m → Expands t p p' x f →
    Joins t m k x → Joins t m k f
  | merges {p : Snapshot} {x y r : ExecState} {c c' : Context} {k k' : Nat} : p.IsMoment t m → p.Holds x →
    p.Holds y → (x.merge y t.overflow).run.run c = (.ok r, c') → Joins t m k x → Joins t m k' y → Joins t m (k + k') r

theorem Joins.pos (h : Joins t m k x) : 0 < k := by
  induction h with
  | initial => exact Nat.one_pos
  | follows _ _ _ ih => exact ih
  | merges _ _ _ _ _ _ ih => exact Nat.add_pos_left ih _

/-- The counter is the number of ways less one, as far as it goes. -/
theorem Joins.merged (h : Joins t m k x) : x.merged = (k - 1) % 2 ^ 32 := by
  induction h with
  | initial => rfl
  | follows _ expands _ ih =>
    obtain ⟨b, i, -, -, advances⟩ := expands.advances
    rw [advances.merged, ih]
  | merges _ _ _ merge left right hx hy =>
    have pos := left.pos
    have pos' := right.pos
    rw [(mergeTally_ok (ExecState.merge_history merge).2.2).1, hx, hy]
    omega

/-- Every state that is held joins some ways, no more than can be made by that many merges. -/
def Tallied (t : Task) (m : Method) (p : Snapshot) : Prop :=
  ∀ x, p.Holds x → ∃ k ≤ 2 ^ p.search.stats.merged, Joins t m k x

namespace Tallied

theorem start (h : Search.start t m = .ok s) : Tallied t m (start s) := by
  rintro x (mem | ⟨n, data⟩)
  · cases mem
  · obtain ⟨-, rfl⟩ := (Search.start_kept h).2 n x data
    exact ⟨1, Nat.one_le_two_pow, .initial⟩

/-- Receiving a state makes no more ways than one merge can. -/
theorem receive (h : Tallied t m p) (moment : p.IsMoment t m) (pending : p.pending = x :: xs)
    (received : (Searching.receive t.overflow p.first x).run.run p.search = (.ok (), s)) :
    Tallied t m ⟨s, p.first, xs⟩ := by
  obtain ⟨stored, c, calls, how, keep, world, -, stats⟩ := Searching.receive_ok received
  have incoming : p.Holds x := .inl (pending ▸ List.mem_cons_self)
  have grown : 2 ^ p.search.stats.merged ≤ 2 ^ s.stats.merged := by
    rw [stats]
    exact Nat.pow_le_pow_right Nat.two_pos (Nat.le_add_right ..)
  have old (u : ExecState) (held : p.Holds u) : ∃ k ≤ 2 ^ s.stats.merged, Joins t m k u := by
    obtain ⟨k, le, joins⟩ := h u held
    exact ⟨k, le.trans grown, joins⟩
  rintro u (mem | ⟨n, data⟩)
  · exact old u (.inl (pending ▸ List.mem_cons_of_mem _ mem))
  · have data : calls.data? n = some u := by rw [← data, Snapshot.calls, world]
    rcases Instances.put_or_kept keep data with ⟨-, rfl⟩ | kept
    · cases how with
      | first => exact old x incoming
      | merged found merge =>
        have previous : p.Holds _ := .inr ⟨_, found⟩
        obtain ⟨k, le, joins⟩ := h _ previous
        obtain ⟨k', le', joins'⟩ := h x incoming
        refine ⟨k + k', ?_, .merges moment previous incoming merge joins joins'⟩
        rw [stats, found, Option.isSome_some, if_pos rfl, Nat.pow_succ]
        omega
    · exact old u (.inr ⟨n, kept⟩)

theorem moves (h : Tallied t m p) (moment : p.IsMoment t m) (moves : Moves t p p') : Tallied t m p' := by
  cases moves with
  | receive pending received => exact h.receive moment pending received
  | skip pending pop processed => exact fun u held => h u (held.elim (fun mem => nomatch mem) .inr)
  | @expand n worklist v first following w pending pop fresh data asked next =>
    have transition := ExecState.next_transition next
    have moves := Moves.expand pending pop fresh data asked next
    rintro u (mem | ⟨n, found⟩)
    · have here : p.expanding? = some v := by
        simp only [expanding?, pending, pop, fresh, data, Bool.false_eq_true, if_false]
      obtain ⟨k, le, joins⟩ := h _ (holds_expanding here)
      exact ⟨k, le, .follows moment ⟨moves, here, mem⟩ joins⟩
    · exact h u (.inr ⟨n, transition.data? found⟩)

end Tallied

theorem IsMoment.tallied (moment : p.IsMoment t m) : Tallied t m p := by
  refine (moment.invariant (I := fun p => p.IsMoment t m ∧ Tallied t m p) (fun s started => ?_) ?_).2
  · exact ⟨.start started, .start started⟩
  · intro p p' h moves
    exact ⟨h.1.moves moves, h.2.moves h.1 moves⟩

/-- When a state is received where another one is kept, the counter of the merged state is the sum, and fits
into 32 bits, as long as no more than that many ways are joined in it: in the first 32 merges of a search
there are no more. Where the build checks for overflow it is so after every merge that does not stop it. -/
theorem merges_counted (moment : p.IsMoment t m) (pending : p.pending = x :: xs)
    (kept : p.calls.data? x.node = some y) (merge : (y.merge x t.overflow).run.run c = (.ok r, c')) :
    (p.search.stats.merged < 32 → y.merged + x.merged + 1 < 2 ^ 32 ∧ r.merged = y.merged + x.merged + 1) ∧
    (∃ k k', Joins t m k y ∧ Joins t m k' x ∧ k + k' ≤ 2 ^ (p.search.stats.merged + 1)) ∧
    (∀ k k', Joins t m k y → Joins t m k' x → k + k' ≤ 2 ^ 32 →
      y.merged + x.merged + 1 < 2 ^ 32 ∧ r.merged = y.merged + x.merged + 1) ∧
    (t.overflow = .panics → y.merged + x.merged + 1 < 2 ^ 32 ∧ r.merged = y.merged + x.merged + 1) := by
  obtain ⟨tally, checked⟩ := mergeTally_ok (ExecState.merge_history merge).2.2
  have sum (less : y.merged + x.merged + 1 < 2 ^ 32) : r.merged = y.merged + x.merged + 1 :=
    tally.trans (Nat.mod_eq_of_lt less)
  have joined : ∃ k k', Joins t m k y ∧ Joins t m k' x ∧ k + k' ≤ 2 ^ (p.search.stats.merged + 1) := by
    obtain ⟨k, le, joins⟩ := moment.tallied y (.inr ⟨_, kept⟩)
    obtain ⟨k', le', joins'⟩ := moment.tallied x (.inl (pending ▸ List.mem_cons_self))
    refine ⟨k, k', joins, joins', ?_⟩
    rw [Nat.pow_succ]
    omega
  have exact_of : ∀ k k', Joins t m k y → Joins t m k' x → k + k' ≤ 2 ^ 32 →
      y.merged + x.merged + 1 < 2 ^ 32 ∧ r.merged = y.merged + x.merged + 1 := by
    intro k k' joins joins' few
    have less : y.merged + x.merged + 1 < 2 ^ 32 := by
      have pos := joins.pos
      have pos' := joins'.pos
      rw [joins.merged, joins'.merged]
      omega
    exact ⟨less, sum less⟩
  refine ⟨fun early => ?_, joined, exact_of, fun panics => ⟨checked panics, sum (checked panics)⟩⟩
  obtain ⟨k, k', joins, joins', le⟩ := joined
  exact exact_of k k' joins joins' (le.trans (Nat.pow_le_pow_right Nat.two_pos early))

section Ladders

def ladder : Method := ⟨"A", "run", [], .void⟩

/-- A choice between going on and skipping one instruction. -/
def rung (i : Nat) : List Instruction :=
  [.branch (.binary .eq (.const (.int 0)) (.const (.int 0)) .boolean) (2 * i + 2), .nop]

def rungEdges (i : Nat) : List (List Nat) := [[2 * i + 1, 2 * i + 2], [2 * i + 2]]

theorem length_rungs (n : Nat) : ((List.range n).flatMap rung).length = 2 * n := by
  simp [rung, Nat.mul_comm]

theorem rungEdges_lt {n i : Nat} (mem : i ∈ ((List.range n).flatMap rungEdges ++ [[]]).flatten) : i < 2 * n + 1 := by
  obtain ⟨edges, listed, mem⟩ := List.mem_flatten.1 mem
  rcases List.mem_append.1 listed with listed | last
  · obtain ⟨j, less, listed⟩ := List.mem_flatMap.1 listed
    rw [List.mem_range] at less
    rcases List.mem_pair.1 listed with rfl | rfl
    · rcases List.mem_pair.1 mem with rfl | rfl <;> omega
    · cases List.mem_singleton.1 mem
      omega
  · cases List.mem_singleton.1 last
    cases mem

/-- Choices in a row; the two ways of each one meet where the next one is. -/
def ladderBody (n : Nat) : Body where
  method := ladder
  locals := []
  instructions := (List.range n).flatMap rung ++ [.retVoid]
  successors := (List.range n).flatMap rungEdges ++ [[]]
  nonempty := by simp
  successors_length := by simp [rung, rungEdges]
  edges_lt := by
    rw [List.length_append, length_rungs]
    exact fun _ => rungEdges_lt

def ladderTask (n : Nat) (o : Overflow) : Task := { callingTask with
  query := { callingTask.query with program := .ofBodies [ladderBody n] [] }
  overflow := o }

def isOverflow : Except Fault ExecState → Bool
  | .error .overflow => true
  | _ => false

theorem eq_of_isOverflow {r : Except Fault ExecState} (h : isOverflow r = true) : r = .error .overflow := by
  unfold isOverflow at h
  split at h
  next => rfl
  next => cases h

/-- Whether after a number of moves a state is received where another one is kept, and the merges until then, the
two states and the outcome of merging them pass a test. -/
def meetsAfter (t : Task) (m : Method) (i : Nat)
    (test : Nat → ExecState → ExecState → Except Fault ExecState → Bool) : Bool :=
  (nth? t m i).any fun p => p.pending.head?.any fun x => (p.calls.data? x.node).any fun y =>
    test p.search.stats.merged y x ((y.merge x t.overflow).run.run p.search.world.context).1

theorem exists_meeting {i : Nat} {test : Nat → ExecState → ExecState → Except Fault ExecState → Bool}
    (h : meetsAfter t m i test = true) :
    ∃ (p : Snapshot) (x y : ExecState) (xs : List ExecState) (r : Except Fault ExecState) (c : Context),
      p.IsMoment t m ∧ p.pending = x :: xs ∧ p.calls.data? x.node = some y ∧
      (y.merge x t.overflow).run.run p.search.world.context = (r, c) ∧ test p.search.stats.merged y x r = true := by
  obtain ⟨p, after, h⟩ := (Option.any_eq_true ..).1 h
  obtain ⟨x, head, h⟩ := (Option.any_eq_true ..).1 h
  obtain ⟨y, kept, h⟩ := (Option.any_eq_true ..).1 h
  obtain ⟨xs, pending⟩ := List.head?_eq_some_iff.1 head
  exact ⟨p, x, y, xs, _, _, isMoment_of_nth? after, pending, kept, rfl, h⟩

/-- The second merge on a ladder of two rungs joins four ways. -/
theorem merges_counted_ladder : ∃ (p : Snapshot) (x y r : ExecState) (xs : List ExecState) (c : Context),
    p.IsMoment (ladderTask 2 .wraps) ladder ∧ p.pending = x :: xs ∧ p.calls.data? x.node = some y ∧
    (y.merge x .wraps).run.run p.search.world.context = (.ok r, c) ∧ p.search.stats.merged = 1 ∧ r.merged = 3 := by
  have run : meetsAfter (ladderTask 2 .wraps) ladder 9
      (fun merges y x r => r.isOk && merges = 1 && y.merged = 1 && x.merged = 1) = true := by decide +kernel
  obtain ⟨p, x, y, xs, _ | r, c, moment, pending, kept, merge, tested⟩ := exists_meeting run
  · cases tested
  simp only [Bool.and_eq_true, decide_eq_true_eq] at tested
  obtain ⟨⟨⟨-, one⟩, hy⟩, hx⟩ := tested
  have counted := ((merges_counted moment pending kept merge).1 (by omega)).2
  rw [hy, hx] at counted
  exact ⟨p, x, y, r, xs, c, moment, pending, kept, merge, one, counted⟩

/-- On a ladder of 33 rungs the last merge joins more ways than 32 bits can count. The counter is wrong after
it, and a build that checks for overflow does not get past it. -/
theorem merge_counter_overflows :
    (∃ (p : Snapshot) (x y r : ExecState) (xs : List ExecState) (c : Context),
      p.IsMoment (ladderTask 33 .wraps) ladder ∧ p.pending = x :: xs ∧ p.calls.data? x.node = some y ∧
      (y.merge x .wraps).run.run p.search.world.context = (.ok r, c) ∧ p.search.stats.merged = 32 ∧
      ¬ y.merged + x.merged + 1 < 2 ^ 32 ∧ r.merged ≠ y.merged + x.merged + 1) ∧
    ∃ (p : Snapshot) (x y : ExecState) (xs : List ExecState) (c : Context),
      p.IsMoment (ladderTask 33 .panics) ladder ∧ p.pending = x :: xs ∧ p.calls.data? x.node = some y ∧
      (y.merge x .panics).run.run p.search.world.context = (.error .overflow, c) ∧ p.search.stats.merged = 32 ∧
      ¬ y.merged + x.merged + 1 < 2 ^ 32 := by
  constructor
  · have run : meetsAfter (ladderTask 33 .wraps) ladder 164 (fun merges y x r =>
        r.isOk && merges = 32 && y.merged = 2 ^ 32 - 1 && x.merged = 2 ^ 32 - 1) = true := by
      decide +kernel
    obtain ⟨p, x, y, xs, _ | r, c, moment, pending, kept, merge, tested⟩ := exists_meeting run
    · cases tested
    simp only [Bool.and_eq_true, decide_eq_true_eq] at tested
    obtain ⟨⟨⟨-, merges⟩, hy⟩, hx⟩ := tested
    refine ⟨p, x, y, r, xs, c, moment, pending, kept, merge, merges, ?_, ?_⟩
    · omega
    · have tally := (mergeTally_ok (ExecState.merge_history merge).2.2).1
      omega
  · have run : meetsAfter (ladderTask 33 .panics) ladder 164 (fun merges y x r =>
        isOverflow r && merges = 32 && y.merged = 2 ^ 32 - 1 && x.merged = 2 ^ 32 - 1) = true := by
      decide +kernel
    obtain ⟨p, x, y, xs, r, c, moment, pending, kept, merge, tested⟩ := exists_meeting run
    simp only [Bool.and_eq_true, decide_eq_true_eq] at tested
    obtain ⟨⟨⟨stopped, merges⟩, hy⟩, hx⟩ := tested
    rw [eq_of_isOverflow stopped] at merge
    exact ⟨p, x, y, xs, c, moment, pending, kept, merge, merges, by omega⟩

end Ladders
end Snapshot
end SinkReach
