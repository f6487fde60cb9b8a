import SinkReach.Proofs.Analysis.Lineage
import SinkReach.Proofs.Term.Bits

/-!
Addresses of objects. A new object is put at the next address of the state that makes it, and the next address
of every state is above all that was handed out on the way to it: a step moves it past the object that it
makes, and a merge takes the greater one. Two branches may hand out the same addresses, but no state has both
for different objects of its own past and of an object that it makes itself.
-/
namespace SinkReach

open Relation (ReflTransGen)

variable {q : Query} {t : Task} {m : Method} {x y r u : ExecState} {v : SymValue} {n k : Nat}

/-- The value is at an address, whatever the constants are. -/
def SymValue.IsAt (v : SymValue) (n : Nat) : Prop :=
  ∀ env : Assignment, v.term.eval env = .ok (.bitVec n Address.width)

theorem SymValue.isAt_ofInt (ty : Ty) (l : Label) (lt : n < 2 ^ 32) :
    (SymValue.reference ty (.ofInt l n Address.width)).IsAt n := by
  intro env
  have bits : Bits.ofInt n Address.width = n := by
    rw [Bits.ofInt, Address.width, Bits.modulus_of_le (by decide)]
    omega
  show Except.ok (Value.bitVec (Bits.ofInt n Address.width) Address.width) = _
  rw [bits]

theorem Instruction.objects_le_one (i : Instruction) : i.objects ≤ 1 := by
  unfold objects
  split <;> decide

namespace ExecState

/-- The instruction at the node makes an object, and this is what it gets in the state. -/
def Makes (q : Query) (x : ExecState) (v : SymValue) : Prop :=
  ∃ b i ty c M c', q.body x.node.method = .ok b ∧ b.instruction? x.node.instr = some i ∧
    i.rvalue? = some (.new ty) ∧ (Machine.allocate ty).Yields (.start x.symbolic) c v M c'

/-- Number of objects that the instruction at the node makes. -/
def objects (q : Query) (x : ExecState) : Nat :=
  ((q.body x.node.method).toOption.bind fun b => b.instruction? x.node.instr).elim 0 Instruction.objects

theorem objects_eq {b : Body} {i : Instruction} (body : q.body x.node.method = .ok b)
    (found : b.instruction? x.node.instr = some i) : x.objects q = i.objects := by
  rw [objects, body]
  exact congrArg (Option.elim · 0 Instruction.objects) found

theorem exists_makes {b : Body} {i : Instruction} {ty : Ty} (body : q.body x.node.method = .ok b)
    (found : b.instruction? x.node.instr = some i) (new : i.rvalue? = some (.new ty)) : ∃ v, x.Makes q v :=
  ⟨_, b, i, ty, default, _, _, body, found, new, rfl⟩

theorem objects_le_one (q : Query) (x : ExecState) : x.objects q ≤ 1 := by
  unfold objects
  cases (q.body x.node.method).toOption.bind fun b => b.instruction? x.node.instr with
  | none => exact Nat.zero_le _
  | some i => exact i.objects_le_one

/-- A new object is at the next address of the state. -/
theorem Makes.isAt (h : x.Makes q v) (lt : x.symbolic.nextAddress < 2 ^ 32) :
    v.IsAt x.symbolic.nextAddress := by
  obtain ⟨_, _, ty, _, _, _, -, -, -, run⟩ := h
  obtain ⟨l, _, rfl, -⟩ := Machine.yields_allocate run
  exact SymValue.isAt_ofInt ty l lt

theorem Makes.objects (h : x.Makes q v) : x.objects q = 1 := by
  obtain ⟨b, i, ty, _, _, _, body, found, new, -⟩ := h
  rw [objects_eq body found, Instruction.objects, new]

/-- A merged state's next address is the greater one. -/
theorem merge_nextAddress {o : Overflow} {c c' : Context} (h : (x.merge y o).run.run c = (.ok r, c')) :
    r.symbolic.nextAddress = max (max x.symbolic.nextAddress y.symbolic.nextAddress) SymState.firstAddress := by
  obtain ⟨l, ts, M, merged⟩ := SymState.merge_ok (merge_ok h).1
  exact merged.nextAddress

end ExecState

namespace Snapshot

variable {p p' p₁ p₂ : Snapshot} {f s : ExecState}

/-- What follows reserves the objects that are made. -/
theorem Expands.nextAddress (h : Expands t p p' x f) :
    f.symbolic.nextAddress = x.symbolic.nextAddress + x.objects t.query := by
  obtain ⟨b, i, body, found, advances⟩ := h.advances
  rw [ExecState.objects_eq body found]
  exact advances.nextAddress

/-- Addresses start behind null. -/
theorem IsMoment.nextAddress_pos (moment : p.IsMoment t m) (held : p.Holds x) : 0 < x.symbolic.nextAddress := by
  refine moment.each (J := fun x => 0 < x.symbolic.nextAddress) Nat.one_pos (fun expands pos => ?_)
    (fun merge _ _ => ?_) x held
  · rw [expands.nextAddress]
    exact Nat.add_pos_left pos _
  · rw [ExecState.merge_nextAddress merge]
    exact Nat.lt_of_lt_of_le Nat.one_pos (Nat.le_max_right ..)

/-- The next address does not fall along a lineage. -/
theorem nextAddress_le_of_lineage (h : ReflTransGen (Begets t m) x y) :
    x.symbolic.nextAddress ≤ y.symbolic.nextAddress := by
  induction h with
  | refl => exact Nat.le_refl _
  | tail _ step ih =>
    refine Nat.le_trans ih ?_
    cases step with
    | follows _ expands =>
      rw [expands.nextAddress]
      exact Nat.le_add_right ..
    | left _ _ _ merge =>
      rw [ExecState.merge_nextAddress merge]
      exact Nat.le_trans (Nat.le_max_left ..) (Nat.le_max_left ..)
    | right _ _ _ merge =>
      rw [ExecState.merge_nextAddress merge]
      exact Nat.le_trans (Nat.le_max_right ..) (Nat.le_max_left ..)

/-- Number of objects that the next move makes. -/
def objects (q : Query) (p : Snapshot) : Nat := p.expanding?.elim 0 (·.objects q)

theorem objects_le_one (q : Query) (p : Snapshot) : p.objects q ≤ 1 := by
  unfold objects
  cases p.expanding? with
  | none => exact Nat.zero_le _
  | some x => exact x.objects_le_one q

/-- A search arrives at a moment with a number of objects made until then. -/
inductive Allocates (t : Task) (m : Method) : Nat → Snapshot → Prop
  | start {s : Search} : Search.start t m = .ok s → Allocates t m 0 (start s)
  | move {k : Nat} {p p' : Snapshot} : Allocates t m k p → Moves t p p' → Allocates t m (k + p.objects t.query) p'

theorem Allocates.moment (h : Allocates t m k p) : p.IsMoment t m := by
  induction h with
  | start started => exact .start started
  | move _ moves ih => exact ih.moves moves

/-- No state has reserved more addresses than there are objects. -/
theorem Allocates.nextAddress_le (h : Allocates t m k p) (held : p.Holds x) : x.symbolic.nextAddress ≤ 1 + k := by
  induction h generalizing x with
  | start started =>
    rcases held with mem | ⟨n, data⟩
    · cases mem
    · obtain ⟨-, rfl⟩ := (Search.start_kept started).2 n x data
      exact Nat.le_refl 1
  | @move k p p' _ moves ih =>
    rcases moves.holds held with old | ⟨y, z, c, c', hy, hz, merge⟩ | ⟨y, expands⟩
    · exact Nat.le_trans (ih old) (Nat.add_le_add_left (Nat.le_add_right ..) 1)
    · have left := ih hy
      have right := ih hz
      rw [ExecState.merge_nextAddress merge, SymState.firstAddress]
      omega
    · have before := ih (holds_expanding expands.here)
      have made : p.objects t.query = y.objects t.query := by rw [objects, expands.here]; rfl
      rw [expands.nextAddress, made]
      omega

/-- Addresses are not used again. In a run that makes fewer objects than there are addresses but null, every
state that is held has a next address other than null, which is where an object that it makes is put. All
objects made on its lineage, through steps and both sides of merges, are at addresses between null and the
next one, so none of them is where the new one is. -/
theorem addresses_apart (made : Allocates t m k p) (few : k < 2 ^ 32 - 1) (held : p.Holds s) :
    0 < s.symbolic.nextAddress ∧ s.symbolic.nextAddress < 2 ^ 32 ∧
      (∀ w, s.Makes t.query w → w.IsAt s.symbolic.nextAddress) ∧
      ∀ p₁ p₂ u f v, p₁.IsMoment t m → Expands t p₁ p₂ u f → ReflTransGen (Begets t m) f s → u.Makes t.query v →
        ∃ n, 0 < n ∧ n < s.symbolic.nextAddress ∧ v.IsAt n ∧
          ∀ w, s.Makes t.query w → ∀ env, v.term.eval env ≠ w.term.eval env := by
  have within : s.symbolic.nextAddress < 2 ^ 32 := by
    have := made.nextAddress_le held
    omega
  refine ⟨made.moment.nextAddress_pos held, within, fun w makes => makes.isAt within, ?_⟩
  intro p₁ p₂ u f v moment expands lineage makes
  have below : u.symbolic.nextAddress < s.symbolic.nextAddress := by
    have passed := nextAddress_le_of_lineage lineage
    rw [expands.nextAddress, makes.objects] at passed
    exact passed
  have place := makes.isAt (Nat.lt_trans below within)
  refine ⟨_, moment.nextAddress_pos (holds_expanding expands.here), below, place, fun w makes' env same => ?_⟩
  rw [place env, makes'.isAt within env] at same
  injection same with same
  injection same with same
  exact absurd same (Nat.ne_of_lt below)

section Making

/-- Every moment is arrived at with a number of objects, no more than there were moves. -/
theorem exists_allocates_of_nth? {i : Nat} (h : nth? t m i = some p) : ∃ k ≤ i, Allocates t m k p := by
  induction i generalizing p with
  | zero =>
    obtain ⟨s, started, rfl⟩ := Option.map_eq_some_iff.1 h
    exact ⟨0, Nat.le_refl _, .start (toOption_eq_some.1 started)⟩
  | succ i ih =>
    obtain ⟨p₀, before, moved⟩ := Option.bind_eq_some_iff.1 h
    obtain ⟨k, few, made⟩ := ih before
    refine ⟨_, ?_, made.move (moves_iff.2 moved)⟩
    have one := p₀.objects_le_one t.query
    omega

def making : Method := ⟨"A", "make", [.int], .void⟩

/-- One of two ways makes two objects; where they join, a third one is made. -/
def makingBody : Body where
  method := making
  locals := [⟨"p", .int⟩, ⟨"x", .ref "A"⟩, ⟨"y", .ref "B"⟩]
  instructions := [
    .identity ⟨"p", .int⟩ (.parameter 0),
    .branch (.binary .gt (.loc ⟨"p", .int⟩) (.const (.int 0)) .boolean) 4,
    .assign (.loc ⟨"x", .ref "A"⟩) (.new (.ref "A")),
    .assign (.loc ⟨"x", .ref "A"⟩) (.new (.ref "A")),
    .assign (.loc ⟨"y", .ref "B"⟩) (.new (.ref "B")),
    .nop]
  successors := [[1], [2, 4], [3], [4], [5], []]
  nonempty := List.cons_ne_nil _ _
  successors_length := rfl
  edges_lt := show ∀ i ∈ [1, 2, 4, 3, 4, 5], i < 6 by decide

def makingTask : Task := { callingTask with
  query := { callingTask.query with program := .ofBodies [makingBody] [] } }

/-- Whether after a number of moves a state is expanded, and what follows from it is merged into the one kept
where it arrives, so that they pass a test together with the merged state. -/
def joinsAfter (t : Task) (m : Method) (k : Nat) (test : ExecState → ExecState → ExecState → ExecState → Bool) :
    Bool :=
  (nth? t m k).any fun p₁ => p₁.expanding?.any fun u => (p₁.move? t).any fun p₂ => p₂.pending.head?.any fun f =>
    (p₂.calls.data? f.node).any fun y => (p₂.move? t).any fun p₃ => (p₃.calls.data? f.node).any fun s =>
      test u f y s

theorem exists_join {i : Nat} {test : ExecState → ExecState → ExecState → ExecState → Bool}
    (h : joinsAfter t m i test = true) : ∃ k p₁ p₂ p₃ u f y s, k ≤ i + 2 ∧ Allocates t m k p₃ ∧ p₁.IsMoment t m ∧
      Expands t p₁ p₂ u f ∧ p₂.calls.data? f.node = some y ∧ p₃.Holds s ∧ ReflTransGen (Begets t m) f s ∧
      test u f y s = true := by
  obtain ⟨p₁, after, h⟩ := (Option.any_eq_true ..).1 h
  obtain ⟨u, here, h⟩ := (Option.any_eq_true ..).1 h
  obtain ⟨p₂, moved, h⟩ := (Option.any_eq_true ..).1 h
  obtain ⟨f, head, h⟩ := (Option.any_eq_true ..).1 h
  obtain ⟨y, kept, h⟩ := (Option.any_eq_true ..).1 h
  obtain ⟨p₃, moved', h⟩ := (Option.any_eq_true ..).1 h
  obtain ⟨s, found, tested⟩ := (Option.any_eq_true ..).1 h
  obtain ⟨k, few, made⟩ := exists_allocates_of_nth? (i := i + 2)
    (Option.bind_eq_some_iff.2 ⟨p₂, Option.bind_eq_some_iff.2 ⟨p₁, after, moved⟩, moved'⟩)
  have moment := isMoment_of_nth? after
  obtain ⟨xs, pending⟩ := List.head?_eq_some_iff.1 head
  obtain ⟨r, data, lineage⟩ := (moves_iff.2 moved').received (moment.moves (moves_iff.2 moved)) pending
  cases found.symm.trans data
  exact ⟨k, p₁, p₂, p₃, u, f, y, s, few, made, moment, ⟨moves_iff.2 moved, here, List.mem_of_mem_head? head⟩, kept,
    .inr ⟨_, found⟩, lineage, tested⟩

/-- The second object of one way is at an address that the other way has not reached; the object made behind
the join is at another one. -/
theorem addresses_apart_making : ∃ (k : Nat) (p₁ p₂ p₃ : Snapshot) (u f y s : ExecState) (v w : SymValue),
    Allocates makingTask making k p₃ ∧ k < 2 ^ 32 - 1 ∧ p₁.IsMoment makingTask making ∧
    Expands makingTask p₁ p₂ u f ∧ p₂.calls.data? f.node = some y ∧ p₃.Holds s ∧
    ReflTransGen (Begets makingTask making) f s ∧ u.Makes makingTask.query v ∧ s.Makes makingTask.query w ∧
    y.symbolic.nextAddress = 1 ∧ f.symbolic.nextAddress = 3 ∧ s.symbolic.nextAddress = 3 ∧ w.IsAt 3 ∧
    ∃ n, 0 < n ∧ n < 3 ∧ v.IsAt n ∧ ∀ env, v.term.eval env ≠ w.term.eval env := by
  have run : joinsAfter makingTask making 7 (fun u f y s => u.node = ⟨0, making, 3⟩ && s.node = ⟨0, making, 4⟩ &&
      y.symbolic.nextAddress = 1 && f.symbolic.nextAddress = 3 && s.symbolic.nextAddress = 3) = true := by
    decide +kernel
  obtain ⟨k, p₁, p₂, p₃, u, f, y, s, few, made, moment, expands, kept, held, lineage, tested⟩ := exists_join run
  simp only [Bool.and_eq_true, decide_eq_true_eq] at tested
  obtain ⟨⟨⟨⟨here, there⟩, one⟩, three⟩, next⟩ := tested
  have body : makingTask.query.body making = .ok makingBody := rfl
  obtain ⟨v, makes⟩ : ∃ v, u.Makes makingTask.query v :=
    ExecState.exists_makes (by rw [here]; exact body) (by rw [here]; rfl) rfl
  obtain ⟨w, makes'⟩ : ∃ w, s.Makes makingTask.query w :=
    ExecState.exists_makes (by rw [there]; exact body) (by rw [there]; rfl) rfl
  have few : k < 2 ^ 32 - 1 := by omega
  obtain ⟨-, -, here, earlier⟩ := addresses_apart made few held
  obtain ⟨n, pos, below, place, other⟩ := earlier p₁ p₂ u f v moment expands lineage makes
  rw [next] at here below
  exact ⟨k, p₁, p₂, p₃, u, f, y, s, v, w, made, few, moment, expands, kept, held, lineage, makes, makes', one, three,
    next, here w makes', n, pos, below, place, other w makes'⟩

end Making
end Snapshot
end SinkReach
