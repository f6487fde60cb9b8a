import SinkReach.Proofs.Analysis.Frontier
import SinkReach.Proofs.Typing.Merge
import SinkReach.Proofs.Typing.Step

/-!
At every moment of a search all states are well-typed: those that are kept, merged or not, and those that
follow from the node at hand. A merge is therefore never one of values or arrays that do not go together.
-/
namespace SinkReach
namespace Search

variable {t : Task} {o : Overflow} {m : Method} {s s' : Search} {first : Option Node} {pending xs : List ExecState}
  {x previous : ExecState} {n : Node} {worklist : Worklist} {stats : Stats} {w : World} {F : Field → Prop}

/-- Every state is well-typed and at a node of an instance; what is kept somewhere is there. -/
structure WellTyped (F : Field → Prop) (s : Search) (pending : List ExecState) : Prop where
  there : ∀ n x, s.world.calls.data? n = some x → x.node.callId = n.callId ∧ x.node.instr = n.instr
  placed : ∀ n x, s.world.calls.data? n = some x → s.world.calls.Places x.node
  kept : ∀ n x, s.world.calls.data? n = some x → x.symbolic.WellTyped F
  arriving : ∀ x ∈ pending, s.world.calls.Places x.node
  following : ∀ x ∈ pending, x.symbolic.WellTyped F

namespace WellTyped

theorem start (h : Search.start t m = .ok s) : WellTyped F s [] := by
  obtain ⟨placed, only⟩ := start_kept h
  refine ⟨fun n x found => ?_, fun n x found => ?_, fun n x found => ?_, fun _ mem => (nomatch mem),
    fun _ mem => nomatch mem⟩
  · obtain ⟨here, rfl⟩ := only n x found
    exact here
  · obtain ⟨-, rfl⟩ := only n x found
    exact placed
  · obtain ⟨-, rfl⟩ := only n x found
    exact .initial

/-- The state that a node was expanded from, and the states that follow from it. -/
theorem expand (h : WellTyped t.query.program.Names s []) (program : t.query.program.WellTyped)
    (data : s.world.calls.data? n = some x) (next : (x.next t.query t.limit).run.run s.world = (.ok xs, w)) :
    WellTyped t.query.program.Names ⟨w, worklist, stats⟩ xs := by
  obtain ⟨calls, placed, typed⟩ := ExecState.next_typed program (h.kept n x data) next
  have older : ∀ k y, w.calls.data? k = some y → s.world.calls.data? k = some y := by
    intro k y found
    rcases calls with same | ⟨m, g, new⟩
    · exact same ▸ found
    · exact Instances.data?_withNew g (new ▸ found)
  refine ⟨fun k y found => h.there k y (older k y found), fun k y found => ?_,
    fun k y found => h.kept k y (older k y found), placed, typed⟩
  have known := h.placed k y (older k y found)
  rcases calls with same | ⟨m, g, new⟩
  · exact same ▸ known
  · exact new ▸ known.withNew m g

/-- The state that is kept where another one arrives can be merged with it, unless the build stops. -/
theorem exists_merge (h : WellTyped F s (x :: xs)) (agree : Field.Agree F)
    (data : s.world.calls.data? x.node = some previous) (o : Overflow) :
    (∃ merged c, (previous.merge x o).run.run s.world.context = (.ok merged, c) ∧ merged.symbolic.WellTyped F) ∨
      o = .panics ∧ 2 ^ 32 ≤ previous.merged + x.merged + 1 ∧
        ∃ c, (previous.merge x o).run.run s.world.context = (.error .overflow, c) := by
  obtain ⟨callId, instr⟩ := h.there _ _ data
  have same := (h.placed _ _ data).eq (h.arriving x List.mem_cons_self) callId instr
  exact ExecState.exists_merge agree (h.kept _ _ data) (h.following x List.mem_cons_self) same o _

theorem receive (h : WellTyped F s (x :: xs)) (agree : Field.Agree F)
    (received : (Searching.receive o first x).run.run s = (.ok (), s')) : WellTyped F s' xs := by
  obtain ⟨stored, c, calls, how, keep, world, -, -⟩ := Searching.receive_ok received
  obtain ⟨here, arriving⟩ := List.forall_mem_cons.1 h.arriving
  obtain ⟨typed, following⟩ := List.forall_mem_cons.1 h.following
  have places : ∀ k, s'.world.calls.Places k ↔ s.world.calls.Places k := by
    intro k
    rw [world]
    exact Instances.places_keep keep
  have storedTyped : stored.symbolic.WellTyped F := by
    cases how with
    | first => exact typed
    | merged data merge =>
      rcases h.exists_merge agree data o with ⟨r, c', merge', typed'⟩ | ⟨-, -, c', stopped⟩
      · cases merge.symm.trans merge'
        exact typed'
      · cases merge.symm.trans stopped
  have found : ∀ k y, s'.world.calls.data? k = some y →
      (x.node.callId = k.callId ∧ x.node.instr = k.instr) ∧ y = stored ∨ s.world.calls.data? k = some y := by
    intro k y data
    rw [world] at data
    exact Instances.put_or_kept keep data
  refine ⟨fun k y data => ?_, fun k y data => ?_, fun k y data => ?_, fun y mem => ?_, following⟩
  · rcases found k y data with ⟨same, rfl⟩ | data
    · rw [how.node]
      exact same
    · exact h.there k y data
  · rw [places]
    rcases found k y data with ⟨-, rfl⟩ | data
    · rw [how.node]
      exact here
    · exact h.placed k y data
  · rcases found k y data with ⟨-, rfl⟩ | data
    · exact storedTyped
    · exact h.kept k y data
  · rw [places]
    exact arriving y mem

end WellTyped

/-- At every moment of a search the states are well-typed. -/
theorem Moment.wellTyped (program : t.query.program.WellTyped) (h : Moment t m s first pending) :
    WellTyped t.query.program.Names s pending := by
  induction h with
  | start start => exact .start start
  | skip _ _ _ ih => exact ⟨ih.there, ih.placed, ih.kept, ih.arriving, ih.following⟩
  | expand _ _ _ data _ next ih => exact ih.expand program data next
  | receive _ received ih => exact ih.receive program.fields received

/-- In every state that a search keeps or that follows from one, bound locals have values of their declared
types, arrays have elements of their fields' types, and constraints are conditions; and where such a state
arrives at a node that has one, the merge of the two succeeds with a state of that kind, unless the build checks
for overflow and their merges exceed 32 bits. -/
theorem moment_wellTyped (program : t.query.program.WellTyped) (moment : Moment t m s first pending) :
    (∀ n x, s.world.calls.data? n = some x → x.symbolic.WellTyped t.query.program.Names) ∧
    (∀ x ∈ pending, x.symbolic.WellTyped t.query.program.Names) ∧
    ∀ incoming rest previous, pending = incoming :: rest →
      s.world.calls.data? incoming.node = some previous →
      (∃ merged c, (previous.merge incoming t.overflow).run.run s.world.context = (.ok merged, c) ∧
        merged.symbolic.WellTyped t.query.program.Names) ∨
      t.overflow = .panics ∧ 2 ^ 32 ≤ previous.merged + incoming.merged + 1 ∧
        ∃ c, (previous.merge incoming t.overflow).run.run s.world.context = (.error .overflow, c) := by
  have typed := moment.wellTyped program
  refine ⟨typed.kept, typed.following, ?_⟩
  rintro incoming rest previous rfl data
  exact typed.exists_merge program.fields data t.overflow

section Joining

def joining : Method := ⟨"A", "join", [.ref "A"], .void⟩

def joinedField : Field := ⟨"A", "f", .char, false⟩

/-- Stores a number into a field of type `char` on one way, binds a `byte` to the field on the other, and
joins the two. -/
def joiningBody : Body where
  method := joining
  locals := [⟨"p", .ref "A"⟩, ⟨"x", .byte⟩]
  instructions := [
    .identity ⟨"p", .ref "A"⟩ (.parameter 0),
    .branch (.binary .eq (.loc ⟨"p", .ref "A"⟩) (.const .null) .boolean) 4,
    .assign (.instanceField ⟨"p", .ref "A"⟩ joinedField) (.use (.const (.int 65))),
    .goto 5,
    .assign (.loc ⟨"x", .byte⟩) (.instanceField ⟨"p", .ref "A"⟩ joinedField),
    .throw (.loc ⟨"p", .ref "A"⟩)]
  successors := [[1], [2, 4], [3], [5], [5], []]
  nonempty := List.cons_ne_nil _ _
  successors_length := by decide
  edges_lt := by decide

/-- The sink is in no method that the search comes to. -/
def joiningSink : TaintEntry := ⟨.sink, ⟨"A", "end", [], .void⟩, 0, none, none⟩

def joiningTask : Task where
  query := {
    program := .ofBodies [joiningBody] []
    path := ⟨[joiningSink], by decide⟩ }
  limit := 1
  witness := false
  solver := ⟨"lightweight", fun constraints => .ok (ModelSearch.check 100 constraints)⟩

/-- Whether the state that follows after a number of steps arrives where one is kept, few merges being behind both. -/
def joinsAfter (t : Task) (m : Method) (steps : Nat) : Bool :=
  match Search.start t m with
  | .error _ => false
  | .ok s =>
    match s.after? t steps with
    | none => false
    | some s =>
      match s.worklist.pop? with
      | none => false
      | some (n, worklist) =>
        !worklist.isProcessed n &&
        match s.world.calls.data? n, s.world.calls.first? n with
        | some x, .ok _ =>
          match (x.next t.query t.limit).run.run s.world with
          | (.ok (incoming :: _), w) =>
            (w.calls.data? incoming.node).any fun previous => previous.merged + incoming.merged + 1 < 2 ^ 32
          | _ => false
        | _, _ => false

theorem exists_join {steps : Nat} (h : joinsAfter t m steps = true) :
    ∃ s first incoming rest previous, Moment t m s first (incoming :: rest) ∧
      s.world.calls.data? incoming.node = some previous ∧ previous.merged + incoming.merged + 1 < 2 ^ 32 := by
  unfold joinsAfter at h
  split at h
  · cases h
  next s₀ start =>
    split at h
    · cases h
    next s run =>
      obtain ⟨first, moment⟩ := (Moment.start start).after? run
      split at h
      · cases h
      next n worklist pop =>
        rw [Bool.and_eq_true, Bool.not_eq_true'] at h
        obtain ⟨fresh, h⟩ := h
        split at h
        next x first' data asked =>
          split at h
          next incoming rest w next =>
            obtain ⟨previous, kept, few⟩ := (Option.any_eq_true ..).1 h
            exact ⟨_, first', incoming, rest, previous, moment.expand pop fresh data asked next, kept,
              of_decide_eq_true few⟩
          next => cases h
        next => cases h

theorem joining_wellTyped : joiningTask.query.program.WellTyped where
  fields := by
    rintro f g ⟨m, b, found, hf⟩ ⟨m', b', found', hg⟩
    rw [Program.eq_of_body?_ofBodies found] at hf
    rw [Program.eq_of_body?_ofBodies found'] at hg
    have agree : ∀ f ∈ joiningBody.fields, ∀ g ∈ joiningBody.fields, f.ty = g.ty := by decide
    exact fun _ _ => agree f hf g hg
  operators := fun m b found => by
    rw [Program.eq_of_body?_ofBodies found]
    decide
  objects := fun m b found => by
    rw [Program.eq_of_body?_ofBodies found]
    decide

/-- A state in which the byte is bound and the field unwritten arrives where the byte is unbound and the
field written; the two are merged. -/
theorem moment_wellTyped_joining : joiningTask.query.program.WellTyped ∧
    ∃ s first incoming rest previous merged c, Moment joiningTask joining s first (incoming :: rest) ∧
      s.world.calls.data? incoming.node = some previous ∧
      (previous.merge incoming).run.run s.world.context = (.ok merged, c) ∧
      merged.symbolic.WellTyped joiningTask.query.program.Names := by
  have joins : joinsAfter joiningTask joining 5 = true := by decide +kernel
  obtain ⟨s, first, incoming, rest, previous, moment, kept, few⟩ := exists_join joins
  obtain ⟨merged, c, merge, typed⟩ :=
    ((moment_wellTyped joining_wellTyped moment).2.2 incoming rest previous rfl kept).resolve_right
      fun stops => Nat.not_lt.2 stops.2.1 few
  exact ⟨joining_wellTyped, s, first, incoming, rest, previous, merged, c, moment, kept, merge, typed⟩

end Joining
end Search
end SinkReach
