import SinkReach.Proofs.Step.Budget
import SinkReach.Proofs.Step.Gathering

/-!
What a step adds to a state. Every state that follows has its node at the end of the path; its counts are
those before, or a method of the program was entered below the limit and counted; and its next address has
moved by the objects that the instruction makes, of which there is at most one.
-/
namespace SinkReach

/-- An effect that reserves no address. -/
def Update.ReservesNothing (u : Update) : Prop := ∀ n, u ≠ .allocate n

theorem Update.ReservesNothing.plain : Plain ReservesNothing where
  constraint _ _ h := nomatch h
  store _ _ _ _ h := nomatch h

theorem Update.ReservesNothing.bind (id : LocalId) (v : SymValue) : ReservesNothing (.bind id v) :=
  fun _ h => nomatch h

/-- The next address after an effect. -/
def Update.reserve (n : Nat) : Update → Nat
  | .allocate k => max n k
  | _ => n

theorem SymState.nextAddress_updateAll (l : Label) (s : SymState) (us : List Update) :
    (s.updateAll l us).nextAddress = us.foldl Update.reserve s.nextAddress := by
  induction us generalizing l s with
  | nil => rfl
  | cons u us ih =>
    refine (ih _ _).trans ?_
    cases u with
    | allocate | constraint | bind | store | set => rfl

theorem Update.foldl_reserve {us : List Update} (h : ∀ u ∈ us, u.ReservesNothing) (n : Nat) :
    us.foldl reserve n = n := by
  induction us with
  | nil => rfl
  | cons u us ih =>
    obtain ⟨first, rest⟩ := List.forall_mem_cons.1 h
    cases u with
    | allocate k => exact absurd rfl (first k)
    | constraint | bind | store | set => exact ih rest

/-- Number of objects that the instruction makes. -/
def Instruction.objects (i : Instruction) : Nat :=
  match i.rvalue? with
  | some (.new _) => 1
  | _ => 0

namespace Effect

open Machine Run

variable {m : Method} {i : Instruction} {s : SymState} {M M' : Machine} {c c' : Context} {e : Effect} {ty : Ty}

/-- Where an assignment makes an object, it does so first, and reserves no other address. -/
theorem yields_assign_new {place : Place}
    (run : (assign m place (ofRvalue m (.new ty))).Yields M c () M' c') :
    ∃ c₁ v M₁ c₂ us, (allocate ty).Yields M c₁ v M₁ c₂ ∧ M'.pending = M₁.pending ++ us ∧
      ∀ u ∈ us, u.ReservesNothing := by
  have plain := Update.ReservesNothing.plain
  have after {v : SymValue} {M₁ M' : Machine} {c₁ c₂ c' : Context} {x : Run Unit}
      (made : (allocate ty).Yields M c₁ v M₁ c₂) (gathers : x.Gathers Update.ReservesNothing)
      (run : x.Yields M₁ c₂ () M' c') : ∃ c₁ v M₁ c₂ us, (allocate ty).Yields M c₁ v M₁ c₂ ∧
        M'.pending = M₁.pending ++ us ∧ ∀ u ∈ us, u.ReservesNothing := by
    obtain ⟨us, eq, none⟩ := gathers _ _ _ _ _ run
    exact ⟨c₁, v, M₁, c₂, us, made, eq, none⟩
  cases place with
  | loc l =>
    obtain ⟨v, M₁, c₁, made, run⟩ := yields_bind.1 run
    exact after made (.bind (gathers_declaredAs plain v _) fun _ => .emit (.bind _ _)) run
  | instanceField base f =>
    obtain ⟨b, M₀, c₀, found, run⟩ := yields_bind.1 run
    obtain ⟨v, M₁, c₁, made, run⟩ := yields_bind.1 run
    rw [machine_of_ofLocal found] at made
    exact after made (.bind (.lift _) fun _ => gathers_write plain _ f v) run
  | staticField f =>
    obtain ⟨v, M₁, c₁, made, run⟩ := yields_bind.1 run
    exact after made (.bind .freshLabel fun _ => gathers_write plain _ f v) run
  | arrayElement =>
    obtain ⟨v, M₁, c₁, made, run⟩ := yields_bind.1 run
    exact after made (.pure _) run

/-- An instruction that makes an object does so first, and reserves no other address. -/
theorem yields_new (new : i.rvalue? = some (.new ty)) (run : (ofInstruction m i).Yields M c e M' c') :
    ∃ c₁ v M₁ c₂ us, (allocate ty).Yields M c₁ v M₁ c₂ ∧ M'.pending = M₁.pending ++ us ∧
      ∀ u ∈ us, u.ReservesNothing := by
  cases i with
  | assign place value =>
    cases new
    have evaluated : ∃ M₁ c₁, (assign m place (ofRvalue m (.new ty))).Yields M c () M₁ c₁ ∧ M' = M₁ := by
      cases place <;>
      · obtain ⟨_, M₁, c₁, evaluated, done⟩ := yields_bind.1 run
        exact ⟨M₁, c₁, evaluated, (yields_pure.1 done).2.1⟩
    obtain ⟨_, _, assigned, rfl⟩ := evaluated
    exact yields_assign_new assigned
  | branch condition target =>
    -- A reference is no condition.
    cases new
    obtain ⟨v, _, _, made, run⟩ := yields_bind.1 run
    obtain ⟨_, t, rfl, -⟩ := yields_allocate made
    obtain ⟨_, _, _, lifted, -⟩ := yields_bind.1 run
    cases (yields_lift.1 lifted).1
  | _ => cases new

/-- An instruction reserves one address for each object that it makes. -/
theorem foldl_reserve_ofInstruction (run : (ofInstruction m i).Yields (.start s) c e M c') :
    M.pending.foldl Update.reserve s.nextAddress = s.nextAddress + i.objects := by
  unfold Instruction.objects
  split
  next ty new =>
    obtain ⟨c₁, v, M₁, c₂, us, made, eq, none⟩ := yields_new new run
    obtain ⟨_, t, -, pending⟩ := yields_allocate made
    rw [eq, pending, List.foldl_append, Update.foldl_reserve none]
    exact Nat.max_eq_right (Nat.le_succ _)
  next other =>
    refine Update.foldl_reserve (Gathers.of_start ?_ run) _
    exact gathers_ofInstruction Update.ReservesNothing.plain (fun _ _ => .bind _ _) fun ty new => absurd new (other ty)

end Effect

theorem Stack.depth_pop_le (s : Stack) : s.pop.depth ≤ s.depth := by
  obtain ⟨top, _ | ⟨f, below⟩⟩ := s
  · exact Nat.le_refl _
  · exact Nat.le_succ _

namespace ExecState

open Explore

variable {q : Query} {limit : Nat} {w w' : World} {x f : ExecState} {fs : List ExecState} {b : Body}
  {us : List Update} {t : SymState} {n : Node}

/-- What becomes of the counts: no method is entered, or one with a body that was entered less often than
the limit. -/
inductive Counts (p : Program) (limit : Nat) (x f : ExecState) : Prop
  | stays : f.counts = x.counts → f.stack.depth ≤ x.stack.depth → Counts p limit x f
  | enters {callee : Method} {site : Frame} : (p.body? callee).isSome → x.count callee < limit →
    f.counts = (x.call site callee).counts → f.stack.depth = x.stack.depth + 1 → Counts p limit x f

/-- What a step adds to the path, the counts and the next address; it merges nothing. -/
structure Advances (p : Program) (limit objects : Nat) (x f : ExecState) : Prop where
  path : f.path = x.path.push f.node
  counts : Counts p limit x f
  nextAddress : f.symbolic.nextAddress = x.symbolic.nextAddress + objects
  merged : f.merged = x.merged

theorem Advances.advance {p : Program} {objects : Nat} {y : ExecState} (path : y.path = x.path)
    (merged : y.merged = x.merged) (counts : Counts p limit x y)
    (next : t.nextAddress = x.symbolic.nextAddress + objects) :
    Advances p limit objects x (y.advance n t) := by
  refine ⟨?_, ?_, next, merged⟩
  · rw [← path]
    rfl
  · cases counts with
    | stays same shallower => exact .stays same shallower
    | enters body less counts deeper => exact .enters body less counts deeper

theorem skipReason?_none {p : Program} {m : Method} (h : ¬ (skipReason? limit p x m).isSome) :
    x.count m < limit ∧ (p.body? m).isSome := by
  rw [Option.not_isSome_iff_eq_none] at h
  unfold skipReason? at h
  split at h
  · cases h
  next less =>
    split at h
    · cases h
    next =>
      split at h
      · cases h
      next body =>
        have known : p.body? m ≠ none := fun none => body (Option.isNone_iff_eq_none.2 none)
        exact ⟨Nat.lt_of_not_le less, Option.isSome_iff_ne_none.2 known⟩

/-- What every step adds. -/
theorem next_advances (h : (x.next q limit).run.run w = (.ok fs, w')) :
    ∃ b i, q.body x.node.method = .ok b ∧ b.instruction? x.node.instr = some i ∧
      ∀ f ∈ fs, Advances q.program limit i.objects x f := by
  obtain ⟨b, i, e, M, c, body, found, run, rest⟩ := next_ok h
  have plain := Update.ReservesNothing.plain
  have reserved := Effect.foldl_reserve_ofInstruction run
  have performed (l : Label) (s : SymState) (same : s.nextAddress = x.symbolic.nextAddress) :
      (s.updateAll l M.pending).nextAddress = x.symbolic.nextAddress + i.objects := by
    rw [SymState.nextAddress_updateAll, same, reserved]
  have more {y z : SymState} {us : List Update} (l : Label)
      (first : y.nextAddress = x.symbolic.nextAddress + i.objects) (same : z.nextAddress = y.nextAddress)
      (none : ∀ u ∈ us, u.ReservesNothing) :
      (z.updateAll l us).nextAddress = x.symbolic.nextAddress + i.objects := by
    rw [SymState.nextAddress_updateAll, Update.foldl_reserve none, same, first]
  have still : Counts q.program limit x x := .stays rfl (Nat.le_refl _)
  refine ⟨b, i, body, found, fun f mem => ?_⟩
  cases proceed_ok rest with
  | goOn successors =>
    obtain ⟨n, hn, rfl⟩ := List.mem_map.1 mem
    exact .advance rfl rfl still (performed _ _ rfl)
  | @parameter id v _ _ first =>
    obtain ⟨n, hn, rfl⟩ := Option.map_eq_some_iff.1 (Option.mem_toList.1 mem)
    exact .advance (y := x.addParameter id v) rfl rfl (.stays rfl (Nat.le_refl _)) (performed _ _ rfl)
  | branch successors =>
    obtain ⟨n, hn, rfl⟩ := List.mem_map.1 mem
    refine .advance rfl rfl still ?_
    split
    · exact performed _ _ rfl
    · exact performed _ _ rfl
  | switch successors after =>
    obtain ⟨n, hn, l, rfl⟩ := AfterSwitch.mem after mem
    exact .advance rfl rfl still (performed _ _ rfl)
  | skip _ unknown first =>
    obtain ⟨n, hn, rfl⟩ := Option.map_eq_some_iff.1 (Option.mem_toList.1 mem)
    have none := (gathers_unknownResult plain fun _ _ => .bind _).of_start unknown
    refine .advance rfl rfl still ?_
    rw [SymState.nextAddress_updateAll, List.foldl_append, reserved, Update.foldl_reserve none]
  | @enter callee _ result _ _ _ _ _ _ _ _ _ entered enter _ bound =>
    obtain ⟨less, known⟩ := skipReason?_none entered
    obtain rfl := List.mem_singleton.1 mem
    have none := (gathers_bindParameters plain _ _).of_start bound
    refine .advance (y := x.call (.ofCall x.node result) callee) rfl rfl (.enters known less rfl rfl) ?_
    exact more _ (performed _ _ rfl) rfl none
  | resume _ resume _ resumed =>
    obtain rfl := List.mem_singleton.1 mem
    have none := (gathers_resumed plain _ _).of_start resumed
    refine .advance (y := x.restart) rfl rfl (.stays rfl (Nat.le_add_left ..)) ?_
    exact more _ (performed _ _ rfl) rfl none
  | stop => cases mem
  | leave _ _ first handed =>
    obtain rfl := List.mem_singleton.1 mem
    have none := (gathers_handedResult plain _ fun _ _ => .bind _).of_start handed
    refine .advance (y := x.leave) rfl rfl (.stays rfl x.stack.depth_pop_le) ?_
    have left (l : Label) := performed l (x.symbolic.withMemory (x.symbolic.memory.withoutLocalsOf x.node.method)) rfl
    exact more _ (left _) rfl none

end ExecState
end SinkReach
