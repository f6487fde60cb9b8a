import SinkReach.Proofs.Analysis.CallFrames
import SinkReach.Proofs.Analysis.Termination
import SinkReach.Proofs.Route.Returns

/-!
Returns along the path, from a frame that no call has entered. Each makes a new outermost instance, so that
the nodes processed bound nothing; and a path whose return entries lead back to one another is followed
round for ever. Where no return leads back to itself, every such instance is nearer to the last return
than the one it was made from, and their number is bounded.
-/
namespace SinkReach

open Relation (ReflTransGen)

namespace Instruction

theorem way_eq_out_iff {i : Instruction} : i.way = .out ↔ i.isReturn = true := by
  cases i with
  | ret | retVoid => exact iff_of_true rfl rfl
  | _ => exact iff_of_false (fun way => nomatch way) (fun ret => nomatch ret)

theorem call?_of_isReturn {i : Instruction} (h : i.isReturn = true) : i.call? = none := by
  cases i with
  | ret | retVoid => rfl
  | _ => cases h

end Instruction

theorem Query.returnsAt_iff {q : Query} {p : Point} : q.returnsAt p = true ↔
    ∃ b i, q.body p.1 = .ok b ∧ b.instruction? p.2 = some i ∧ i.isReturn = true := by
  unfold returnsAt Query.body
  constructor
  · intro h
    obtain ⟨b, body, h⟩ := (Option.any_eq_true ..).1 h
    obtain ⟨i, found, ret⟩ := (Option.any_eq_true ..).1 h
    exact ⟨b, i, by rw [body], found, ret⟩
  · rintro ⟨b, i, body, found, ret⟩
    rw [Query.body_ok body, Option.any_some, found, Option.any_some]
    exact ret

theorem Query.lt_size_of_returnsAt {q : Query} {p : Point} (h : q.returnsAt p = true) : p.2 < q.program.size := by
  obtain ⟨b, i, body, found, -⟩ := Query.returnsAt_iff.1 h
  exact Nat.lt_of_lt_of_le (List.getElem?_eq_some_iff.1 found).1 (Program.length_le_size (Query.body_ok body))

namespace ExecState

variable {q : Query} {limit : Nat} {w w' : World} {x : ExecState} {fs : List ExecState}

theorem Returns.returnsAt {v : SymValue} (h : x.Returns q w v) : q.returnsAt x.node.point = true := by
  obtain ⟨b, i, M, c, body, found, run⟩ := h
  have way : i.way = .out := (Effect.yields_ret (S := fun _ => True) run).2
  exact Query.returnsAt_iff.2 ⟨b, i, body, found, Instruction.way_eq_out_iff.1 way⟩

/-- From the outermost frame a return makes a new instance and leads there. -/
theorem next_restarts (h : (x.next q limit).run.run w = (.ok fs, w')) (outermost : x.stack.below = [])
    (returns : q.returnsAt x.node.point = true) :
    w'.calls.count = w.calls.count + 1 ∧ ∀ f ∈ fs, f.stack = .root := by
  obtain ⟨b, i, body, found, ret⟩ := Query.returnsAt_iff.1 returns
  obtain ⟨b', i', e, M, c, body', found', run, rest⟩ := next_ok h
  cases body.symm.trans body'
  cases found.symm.trans found'
  have way := Effect.ofInstruction_way (Instruction.call?_of_isReturn ret) run
  rw [Instruction.way_eq_out_iff.2 ret] at way
  cases proceed_ok rest with
  | resume _ resume =>
    obtain ⟨_, m, g, -, -, rfl, rfl⟩ := Instances.resume_ok resume
    exact ⟨Instances.count_withNew m g, List.forall_mem_singleton.2 rfl⟩
  | stop inner | leave inner => exact absurd outermost inner
  | goOn | parameter | branch | switch | skip | enter => cases way

end ExecState

section Tracing

variable {q : Query} {m : Method} {σ σ' : CallId → List Site} {β β' : CallId → Nat} {n k : Node}

/-- A node of an outermost instance is met from the entry on, and no more points are ahead of it than the
instance allows for. -/
def Traces (q : Query) (m : Method) (σ : CallId → List Site) (β : CallId → Nat) (n : Node) : Prop :=
  (σ n.callId).length = 1 → ReflTransGen q.Follows (m, Body.entry) n.point ∧ q.ahead n.point ≤ β n.callId

theorem Traces.congr (h : Traces q m σ β n) (sites : σ' n.callId = σ n.callId)
    (allows : β' n.callId = β n.callId) : Traces q m σ' β' n := by
  unfold Traces
  rw [sites, allows]
  exact h

/-- Edges lead on from what is traced. -/
theorem Traces.successor {s : Instances ExecState} {ns : List Node} (h : Traces q m σ β n) (drawn : s.Drawn q)
    (found : s.successors n = .ok ns) (mem : k ∈ ns) : Traces q m σ β k := by
  obtain ⟨i, inst, rest⟩ := except_bind_ok.1 found
  cases rest
  obtain ⟨at', method⟩ := Instances.places_of_of inst
  obtain ⟨j, edge, rfl⟩ := List.mem_map.1 mem
  intro outermost
  obtain ⟨reached, few⟩ := h outermost
  have follows : q.Follows n.point (n.withInstr j).point :=
    .edge (method ▸ drawn i (List.mem_of_getElem? at')) edge
  exact ⟨reached.tail follows, (Query.ahead_le follows).trans few⟩

theorem Traces.first {s : Instances ExecState} (h : Traces q m σ β n) (drawn : s.Drawn q)
    (found : s.first? n = .ok (some k)) : Traces q m σ β k := by
  obtain ⟨ns, successors, head⟩ := Instances.first?_ok found
  exact h.successor drawn successors (List.mem_of_mem_head? head.symm)

end Tracing

section Worth

variable {size count : Nat} {w w' : Worklist} {σ σ' : CallId → List Site} {β β' : CallId → Nat} {n : Node}

/-- What the unprocessed instructions of the outermost instances are worth. -/
def outerWorth (size : Nat) (w : Worklist) (σ : CallId → List Site) (β : CallId → Nat) (count : Nat) : Nat :=
  ∑ c ∈ Finset.range count, if (σ c).length = 1 then Search.worthOf size w β c else 0

/-- Only the sites and allowances of known instances matter. -/
theorem outerWorth_congr (sites : ∀ c < count, σ' c = σ c) (allows : ∀ c < count, β' c = β c) :
    outerWorth size w σ' β' count = outerWorth size w σ β count := by
  refine Finset.sum_congr rfl fun c known => ?_
  have known := Finset.mem_range.1 known
  rw [sites c known, Search.worthOf, allows c known]
  rfl

theorem outerWorth_anti (more : w.processed ⊆ w'.processed) :
    outerWorth size w' σ β count ≤ outerWorth size w σ β count := by
  refine Finset.sum_le_sum fun c _ => ?_
  split
  · refine Finset.sum_le_sum fun k _ => ?_
    split
    · exact Nat.zero_le _
    next fresh =>
      have before : ¬ w.marks c k = true := fun marked => by
        obtain ⟨n, mem, here⟩ := Worklist.marks_iff.1 marked
        exact fresh (Worklist.marks_iff.2 ⟨n, more mem, here⟩)
      rw [if_neg before]
  · exact Nat.le_refl _

/-- An instance that a call has made counts for nothing. -/
theorem outerWorth_succ_of_call (called : (σ count).length ≠ 1) :
    outerWorth size w σ β (count + 1) = outerWorth size w σ β count := by
  rw [outerWorth, Finset.sum_range_succ, if_neg called]
  rfl

theorem outerWorth_succ_le (size : Nat) (w : Worklist) (σ : CallId → List Site) (β : CallId → Nat)
    (count : Nat) : outerWorth size w σ β (count + 1) ≤ outerWorth size w σ β count + size * worth size (β count) := by
  rw [outerWorth, Finset.sum_range_succ]
  refine Nat.add_le_add_left ?_ _
  split
  · exact Search.worthOf_le ..
  · exact Nat.zero_le _

/-- Processing a node of an outermost instance uses up what it is worth. -/
theorem outerWorth_mark (known : n.callId < count) (outermost : (σ n.callId).length = 1) (small : n.instr < size)
    (fresh : w.marks n.callId n.instr = false) (processed : w'.processed = n :: w.processed) :
    outerWorth size w' σ β count + worth size (β n.callId) = outerWorth size w σ β count := by
  have marked : ∀ c k, w'.marks c k = true ↔ (n.callId = c ∧ n.instr = k) ∨ w.marks c k = true := by
    intro c k
    simp only [Worklist.marks_iff, processed, List.mem_cons, or_and_right, exists_or, exists_eq_left]
  refine sum_add_of_fall (Finset.mem_range.2 known) ?_ fun c _ other => ?_
  · rw [if_pos outermost, if_pos outermost]
    exact Search.worthOf_mark marked small fresh
  · rw [Search.worthOf_mark_of_ne marked other]

end Worth

namespace Snapshot

variable {t : Task} {q : Query} {m : Method} {σ σ' : CallId → List Site} {β β' : CallId → Nat}
  {p p' : Snapshot} {x f : ExecState} {n : Node} {size : Nat}

/-- All nodes, of states that are held and of those processed, are traced. -/
structure Trailed (q : Query) (m : Method) (σ : CallId → List Site) (β : CallId → Nat) (p : Snapshot) :
    Prop where
  stacked : Stacked σ p
  held : ∀ u, p.Holds u → Traces q m σ β u.node
  placed : ∀ n ∈ p.search.worklist.processed, p.calls.Places n
  processed : ∀ n ∈ p.search.worklist.processed, Traces q m σ β n

theorem Trailed.start {s : Search} (h : Search.start t m = .ok s) :
    Trailed t.query m (fun _ => [(none, none)]) (fun _ => t.query.path.entries.length) (start s) := by
  refine ⟨.start h, fun u hu => ?_, ?_, ?_⟩
  · rcases hu with mem | ⟨n, data⟩
    · cases mem
    · obtain ⟨-, rfl⟩ := (Search.start_kept h).2 n u data
      exact fun _ => ⟨.refl, t.query.ahead_le_length _⟩
  · obtain ⟨_, _, _, _, _, rfl⟩ := Search.start_ok h
    exact fun _ mem => nomatch mem
  · obtain ⟨_, _, _, _, _, rfl⟩ := Search.start_ok h
    exact fun _ mem => nomatch mem

/-- Whether the next move returns along the path, from a state in the outermost frame. -/
def returnsAlongPath (q : Query) (p : Snapshot) : Bool :=
  p.expanding?.any fun x => x.stack.below.isEmpty && q.returnsAt x.node.point

theorem Moves.restarts (h : Moves t p p') (returns : p.returnsAlongPath t.query = true) :
    p'.calls.count = p.calls.count + 1 ∧ ∀ f ∈ p'.pending, f.stack = .root := by
  obtain ⟨x, here, facts⟩ := (Option.any_eq_true ..).1 returns
  obtain ⟨outermost, returnsAt⟩ := Bool.and_eq_true_iff.1 facts
  unfold expanding? at here
  cases h with
  | receive pending => simp only [pending, reduceCtorEq] at here
  | skip pending pop processed => simp only [pending, pop, processed, if_true, reduceCtorEq] at here
  | expand pending pop fresh data _ next =>
    simp only [pending, pop, fresh, data, Bool.false_eq_true, if_false] at here
    cases here
    exact ExecState.next_restarts next (List.isEmpty_iff.1 outermost) returnsAt

/-- Nodes of old instances stay traced. -/
theorem Trailed.extend (h : Trailed q m σ β p) (located : Located q p) (stacked : Stacked σ' p')
    (sites : ∀ c < p.calls.count, σ' c = σ c) (allows : ∀ c < p.calls.count, β' c = β c)
    (places : ∀ k, p.calls.Places k → p'.calls.Places k)
    (processed : ∀ k ∈ p'.search.worklist.processed,
      k ∈ p.search.worklist.processed ∨ ∃ x, p.Holds x ∧ x.node = k)
    (holds : ∀ u, p'.Holds u → (∃ x, p.Holds x ∧ x.node = u.node) ∨ Traces q m σ' β' u.node) :
    Trailed q m σ' β' p' := by
  have old : ∀ k, p.calls.Places k → Traces q m σ β k → Traces q m σ' β' k := fun k placed traces =>
    traces.congr (sites _ placed.lt) (allows _ placed.lt)
  refine ⟨stacked, fun u hu => ?_, fun k mem => places k ?_, fun k mem => ?_⟩
  · rcases holds u hu with ⟨x, hx, node⟩ | traces
    · exact node ▸ old _ (located.placed x hx) (h.held x hx)
    · exact traces
  · rcases processed k mem with mem | ⟨x, hx, rfl⟩
    · exact h.placed k mem
    · exact located.placed x hx
  · rcases processed k mem with mem | ⟨x, hx, rfl⟩
    · exact old k (h.placed k mem) (h.processed k mem)
    · exact old _ (located.placed x hx) (h.held x hx)

theorem Trailed.traces_goesTo (h : Trailed q m σ β p) (located : Located q p) (hx : p.Holds x)
    (goes : x.GoesTo p.calls f) : Traces q m σ β f.node := by
  obtain ⟨ns, found, edge⟩ := goes.edge
  exact (h.held x hx).successor located.drawn found edge

/-- The node behind a call is an edge away from the call site, which was processed. -/
theorem Trailed.traces_behind (h : Trailed q m σ β p) (located : Located q p) (called : Called p)
    (hx : p.Holds x) {caller : Node} (inner : x.stack.below ≠ []) (top : x.stack.top.caller = some caller)
    (first : p.calls.first? caller = .ok (some f.node)) : Traces q m σ β f.node := by
  have site : (some caller, x.stack.top.result) ∈ x.stack.sites := by
    rw [Stack.sites_pop inner, Frame.site, top]
    exact List.mem_cons_self
  exact (h.processed caller (called x hx caller _ site)).first located.drawn first

/-- A return along the path leads on, to where fewer points are ahead than its instance allows for. -/
theorem Trailed.returns (h : Trailed q m σ β p) (onward : q.ReturnsOnward m) (hx : p.Holds x)
    (outermost : x.stack.below = []) {w : World} {v : SymValue} (returns : x.Returns q w v) {i : InstrId}
    {m' : Method} (site : Instances.returnSite q x.node = .ok (i, m')) :
    (σ x.node.callId).length = 1 ∧ ReflTransGen q.Follows (m, Body.entry) (m', i) ∧
      q.ahead (m', i) < β x.node.callId := by
  have returnsTo : q.ReturnsTo x.node.point (m', i) := by
    refine ⟨returns.returnsAt, Instances.returnSite_congr (n := x.node) ?_ ?_ site⟩
    · rfl
    · rfl
  have single : (σ x.node.callId).length = 1 := by
    rw [← (h.stacked.held x hx).2, Stack.length_sites, Stack.depth, outermost]
    rfl
  obtain ⟨reached, few⟩ := h.held x hx single
  have less := Query.ahead_lt returnsTo (onward _ _ reached returnsTo)
  exact ⟨single, reached.tail (.ret returnsTo), Nat.lt_of_lt_of_le less few⟩

/-- What the outermost instances are worth, with the sites and allowances given. -/
def worthLeft (q : Query) (σ : CallId → List Site) (β : CallId → Nat) (p : Snapshot) : Nat :=
  outerWorth q.program.size p.search.worklist σ β p.calls.count

/-- A move keeps the nodes traced. It does not raise what is left, and a return along the path lowers it. -/
def Spends (q : Query) (m : Method) (σ : CallId → List Site) (β : CallId → Nat) (p p' : Snapshot) : Prop :=
  ∃ σ' β', Trailed q m σ' β' p' ∧ worthLeft q σ' β' p' ≤ worthLeft q σ β p ∧
    (p.returnsAlongPath q = true → worthLeft q σ' β' p' < worthLeft q σ β p)

/-- As long as the instance that is made, if any, is that of a call, nothing is paid. -/
theorem worthLeft_le (sites : ∀ c < p.calls.count, σ' c = σ c)
    (count : p'.calls.count = p.calls.count ∨
      p'.calls.count = p.calls.count + 1 ∧ (σ' p.calls.count).length ≠ 1)
    (more : p.search.worklist.processed ⊆ p'.search.worklist.processed) :
    worthLeft q σ' β p' ≤ worthLeft q σ β p := by
  have known : outerWorth q.program.size p'.search.worklist σ' β p.calls.count ≤ worthLeft q σ β p := by
    rw [outerWorth_congr sites fun _ _ => rfl]
    exact outerWorth_anti more
  rcases count with same | ⟨one, called⟩
  · rw [worthLeft, same]
    exact known
  · rw [worthLeft, one, outerWorth_succ_of_call called]
    exact known

/-- An instance made by a return along the path is paid for by the node that returns. -/
theorem worthLeft_lt (sites : ∀ c < p.calls.count, σ' c = σ c) (allows : ∀ c < p.calls.count, β' c = β c)
    (one : p'.calls.count = p.calls.count + 1) (known : n.callId < p.calls.count)
    (outermost : (σ n.callId).length = 1) (less : β' p.calls.count < β n.callId)
    (small : n.instr < q.program.size) (fresh : p.search.worklist.marks n.callId n.instr = false)
    (processed : p'.search.worklist.processed = n :: p.search.worklist.processed) :
    worthLeft q σ' β' p' < worthLeft q σ β p := by
  have paid : outerWorth q.program.size p'.search.worklist σ' β' p.calls.count +
      worth q.program.size (β n.callId) = worthLeft q σ β p := by
    rw [outerWorth_congr sites allows]
    exact outerWorth_mark known outermost small fresh processed
  -- What one node was worth covers all those of an instance that is allowed less.
  have new := outerWorth_succ_le q.program.size p'.search.worklist σ' β' p.calls.count
  have cheaper := mul_worth_le q.program.size less
  have pos : 0 < q.program.size := Nat.zero_lt_of_lt small
  rw [worthLeft, one]
  omega

/-- The expanded state is processed, and those that follow it are traced if their nodes are. -/
theorem Trailed.follow (h : Trailed q m σ β p) (located : Located q p) (hx : p.Holds x) (stacked : Stacked σ' p')
    (sites : ∀ c < p.calls.count, σ' c = σ c) (allows : ∀ c < p.calls.count, β' c = β c)
    (transition : Transition q p.search.world p'.search.world x p'.pending)
    (processed : p'.search.worklist.processed = x.node :: p.search.worklist.processed)
    (holds : ∀ u, p'.Holds u → p.Holds u ∨ u ∈ p'.pending)
    (new : ∀ f ∈ p'.pending, Traces q m σ' β' f.node) : Trailed q m σ' β' p' := by
  refine h.extend located stacked sites allows (fun k => transition.places) (fun k mem => ?_) fun u hu => ?_
  · rw [processed] at mem
    exact (List.mem_cons.1 mem).symm.imp_right fun same => ⟨x, hx, same.symm⟩
  · exact (holds u hu).imp (fun old => ⟨u, old, rfl⟩) (new u)

/-- The instance that a return along the path has made is allowed as many points as are ahead of where it
begins. These are fewer than those of the instance returned from, and the return is paid for. -/
theorem Trailed.restart (h : Trailed q m σ β p) (onward : q.ReturnsOnward m) (hx : p.Holds x)
    (placed : p.calls.Places x.node) (fresh : x.node ∉ p.search.worklist.processed)
    (sites : ∀ c < p.calls.count, σ' c = σ c)
    (processed : p'.search.worklist.processed = x.node :: p.search.worklist.processed)
    (outermost : x.stack.below = []) {w : World} {v : SymValue} (returns : x.Returns q w v) {i : InstrId}
    {m' : Method} (site : Instances.returnSite q x.node = .ok (i, m'))
    (one : p'.calls.count = p.calls.count + 1) :
    ∃ β', (∀ c < p.calls.count, β' c = β c) ∧ Traces q m σ' β' ⟨p.calls.count, m', i⟩ ∧
      worthLeft q σ' β' p' < worthLeft q σ β p := by
  obtain ⟨single, reached, less⟩ := h.returns onward hx outermost returns site
  let β' := Function.update β p.calls.count (q.ahead (m', i))
  have allows : ∀ c < p.calls.count, β' c = β c := fun c known =>
    Function.update_of_ne (Nat.ne_of_lt known) _ _
  have allowed : β' p.calls.count = q.ahead (m', i) := Function.update_self ..
  refine ⟨β', allows, fun _ => ⟨reached, allowed.ge⟩, ?_⟩
  exact worthLeft_lt sites allows one placed.lt single (allowed ▸ less)
    (Query.lt_size_of_returnsAt returns.returnsAt) (Worklist.marks_eq_false h.placed placed fresh) processed

theorem Trailed.expands (h : Trailed t.query m σ β p) (located : Located t.query p) (called : Called p)
    (onward : t.query.ReturnsOnward m) (moves : Moves t p p') (stacked : Stacked σ' p')
    (sites : ∀ c < p.calls.count, σ' c = σ c) (hx : p.Holds x) (fresh : x.node ∉ p.search.worklist.processed)
    (transition : Transition t.query p.search.world p'.search.world x p'.pending)
    (processed : p'.search.worklist.processed = x.node :: p.search.worklist.processed)
    (holds : ∀ u, p'.Holds u → p.Holds u ∨ u ∈ p'.pending) : Spends t.query m σ β p p' := by
  have more : p.search.worklist.processed ⊆ p'.search.worklist.processed :=
    processed ▸ List.subset_cons_self ..
  have follow {β' : CallId → Nat} (allows : ∀ c < p.calls.count, β' c = β c) :=
    h.follow located hx stacked sites allows transition processed holds
  have old {k : Node} (known : p.calls.Places k) (traces : Traces t.query m σ β k) : Traces t.query m σ' β k :=
    traces.congr (sites _ known.lt) rfl
  have held : ∀ f ∈ p'.pending, f.stack.sites = σ' f.node.callId := fun f mem => (stacked.held f (.inl mem)).2
  have restarts := moves.restarts
  -- The pending states are an index of the transition, and have to be a variable to split on it.
  obtain ⟨fs, pending⟩ : ∃ fs, p'.pending = fs := ⟨_, rfl⟩
  rw [pending] at transition follow held restarts
  cases transition with
  | stays calls goes =>
    have count : p'.calls.count = p.calls.count := congrArg Instances.count calls
    refine ⟨σ', β, follow (fun _ _ => rfl) fun f mem => ?_, worthLeft_le sites (.inl count) more,
      fun returns => ?_⟩
    · obtain ⟨ns, found, edge⟩ := (goes f mem).edge
      exact old (Instances.places_successors found _ edge) (h.traces_goesTo located hx (goes f mem))
    · have one := (restarts returns).1
      omega
  | @enters m' g result f graph calls node stack =>
    have one : p'.calls.count = p.calls.count + 1 :=
      (congrArg Instances.count calls).trans (Instances.count_withNew m' g)
    have callId : f.node.callId = p.calls.count := by rw [node]; rfl
    have inner : (σ' p.calls.count).length ≠ 1 := by
      rw [← callId, ← held f List.mem_cons_self, stack, Stack.sites_push, List.length_cons, Stack.length_sites,
        Stack.depth]
      omega
    refine ⟨σ', β, follow (fun _ _ => rfl) (List.forall_mem_singleton.2 fun outermost => ?_),
      worthLeft_le sites (.inr ⟨one, inner⟩) more, fun returns => ?_⟩
    · exact absurd (callId ▸ outermost) inner
    · -- A call is no return: its frame lies above others.
      have root := (restarts returns).2 f List.mem_cons_self
      rw [stack] at root
      cases congrArg Stack.below root
  | leaves calls inner top first =>
    have count : p'.calls.count = p.calls.count := congrArg Instances.count calls
    refine ⟨σ', β, follow (fun _ _ => rfl) (List.forall_mem_singleton.2 ?_),
      worthLeft_le sites (.inl count) more, fun returns => ?_⟩
    · exact old (Instances.places_first? first _ rfl) (h.traces_behind located called hx inner top first)
    · have one := (restarts returns).1
      omega
  | @resumes i m' g f outermost returns site graph calls node stack =>
    have one : p'.calls.count = p.calls.count + 1 :=
      (congrArg Instances.count calls).trans (Instances.count_withNew m' g)
    obtain ⟨v, returns⟩ := returns
    obtain ⟨β', allows, traces, falls⟩ := h.restart onward hx (located.placed x hx) fresh sites processed outermost
      returns site one
    exact ⟨σ', β', follow allows (List.forall_mem_singleton.2 (node ▸ traces)), falls.le, fun _ => falls⟩

theorem Trailed.moves (h : Trailed t.query m σ β p) (moment : p.IsMoment t m)
    (onward : t.query.ReturnsOnward m) (moves : Moves t p p') : Spends t.query m σ β p p' := by
  obtain ⟨σ', stacked, sites⟩ := h.stacked.moves moves
  cases moves.change with
  | settles none count places processed holds =>
    have same : ∀ c < p.calls.count, β c = β c := fun _ _ => rfl
    refine ⟨σ', β, h.extend moment.located stacked sites same (fun k => (places k).2)
      (fun k mem => .inl (processed ▸ mem)) fun u hu => .inl ?_,
      worthLeft_le sites (.inl count) (processed ▸ List.Subset.refl _), fun returns => ?_⟩
    · rcases holds u hu with old | ⟨x, y, _, _, hx, -, merge⟩
      · exact ⟨u, old, rfl⟩
      · exact ⟨x, hx, (ExecState.merge_ok merge).2.1.symm⟩
    · rw [returnsAlongPath, none] at returns
      cases returns
  | expands _ data queued fresh transition processed holds =>
    cases moment.located.node_eq queued data
    exact h.expands moment.located moment.called onward moves stacked sites (.inr ⟨_, data⟩) fresh transition
      processed holds

theorem Spends.moves {p₁ : Snapshot} (h : Spends t.query m σ β p p₁) (moment : p₁.IsMoment t m)
    (onward : t.query.ReturnsOnward m) (moves : Moves t p₁ p') : Spends t.query m σ β p p' := by
  obtain ⟨σ₁, β₁, trailed, le, falls⟩ := h
  obtain ⟨σ₂, β₂, trailed', le', -⟩ := trailed.moves moment onward moves
  exact ⟨σ₂, β₂, trailed', le'.trans le, fun returns => Nat.lt_of_le_of_lt le' (falls returns)⟩

theorem Spends.receives {xs : List ExecState} {first : Option Node} {s s' : Search}
    (received : Searching.Receives t.overflow first xs s s') (h : Spends t.query m σ β p ⟨s, first, xs⟩)
    (moment : (⟨s, first, xs⟩ : Snapshot).IsMoment t m) (onward : t.query.ReturnsOnward m) :
    (⟨s', first, []⟩ : Snapshot).IsMoment t m ∧ Spends t.query m σ β p ⟨s', first, []⟩ := by
  induction received with
  | nil => exact ⟨moment, h⟩
  | @cons x xs s s₁ _ receive _ ih =>
    have moves : Moves t ⟨s, first, x :: xs⟩ ⟨s₁, first, xs⟩ := .receive rfl receive
    exact ih (h.moves moment onward moves) (moment.moves moves)

/-- So does a whole step of the search. -/
theorem Trailed.step {first : Option Node} {s s' : Search} (h : Trailed t.query m σ β ⟨s, first, []⟩)
    (moment : (⟨s, first, []⟩ : Snapshot).IsMoment t m) (onward : t.query.ReturnsOnward m)
    (running : s.step t = .running s') : ∃ first', (⟨s', first', []⟩ : Snapshot).IsMoment t m ∧
      Spends t.query m σ β ⟨s, first, []⟩ ⟨s', first', []⟩ := by
  cases Search.steps_of_running running with
  | skip pop processed =>
    have moves := Moves.skip (t := t) (p := ⟨s, first, []⟩) rfl pop processed
    exact ⟨none, moment.moves moves, h.moves moment onward moves⟩
  | expand pop fresh data _ asked next receives =>
    have moves := Moves.expand (p := ⟨s, first, []⟩) rfl pop fresh data asked next
    exact ⟨_, Spends.receives receives (h.moves moment onward moves) (moment.moves moves) onward⟩

end Snapshot

namespace Search

open Snapshot

variable {t : Task} {m : Method} {σ : CallId → List Site} {β : CallId → Nat} {s : Search}
  {first : Option Node}

/-- How many of so many steps return along the path. -/
def returnsIn (t : Task) : Nat → Search → Nat
  | 0, _ => 0
  | n + 1, s =>
    match s.step t with
    | .done _ => 0
    | .running s' => (if (Snapshot.start s).returnsAlongPath t.query then 1 else 0) + returnsIn t n s'

theorem returnsIn_le (h : Trailed t.query m σ β ⟨s, first, []⟩)
    (moment : (⟨s, first, []⟩ : Snapshot).IsMoment t m) (onward : t.query.ReturnsOnward m) (n : Nat) :
    s.returnsIn t n ≤ worthLeft t.query σ β ⟨s, first, []⟩ := by
  induction n generalizing s first σ β with
  | zero => exact Nat.zero_le _
  | succ n ih =>
    unfold returnsIn
    split
    · exact Nat.zero_le _
    next s' running =>
      obtain ⟨first', moment', σ', β', trailed, le, falls⟩ := h.step moment onward running
      have rest := ih trailed moment'
      have same : (Snapshot.start s).returnsAlongPath t.query =
          (⟨s, first, []⟩ : Snapshot).returnsAlongPath t.query := rfl
      rw [same]
      split
      next returns =>
        have := falls returns
        omega
      next => omega

end Search

/-- As many returns along the path as no analysis exceeds in which none leads back to itself. -/
def Query.returnBound (q : Query) : Nat := q.program.size * worth q.program.size q.path.entries.length

/-- An analysis returns along the path a bounded number of times, whatever call sites and methods the
return entries name, if none of the returns that it may meet leads back to itself. -/
theorem Analyzer.returns_bounded (a : Analyzer) {q : Query} {m : Method} (onward : q.ReturnsOnward m) {s : Search}
    (started : Search.start (a.task q o) m = .ok s) (n : Nat) : s.returnsIn (a.task q o) n ≤ q.returnBound := by
  have trailed := Snapshot.Trailed.start started
  have bound := Search.returnsIn_le trailed (.start started) onward n
  refine bound.trans ?_
  have count : s.world.calls.count = 1 := (Search.potential_start started).1
  show outerWorth _ _ _ _ s.world.calls.count ≤ _
  rw [count]
  exact (outerWorth_succ_le ..).trans_eq (Nat.zero_add _)

section Nested

def innermost : Method := ⟨"A", "inner", [], .void⟩

def middle : Method := ⟨"A", "middle", [], .void⟩

def outer : Method := ⟨"A", "outer", [], .void⟩

def innermostBody : Body where
  method := innermost
  locals := []
  instructions := [.retVoid]
  successors := [[]]
  nonempty := List.cons_ne_nil _ _
  successors_length := rfl
  edges_lt := by decide

/-- A method that calls another and goes on with one instruction. -/
def callingThenBody (m callee : Method) (last : Instruction) : Body where
  method := m
  locals := []
  instructions := [.invoke ⟨.static, callee, none, []⟩, last]
  successors := [[1], []]
  nonempty := List.cons_ne_nil _ _
  successors_length := rfl
  edges_lt := show ∀ i ∈ [1], i < 2 by decide

/-- The path returns from the callee to its caller and from there to the next one. -/
def nestedQuery : Query where
  program := .ofBodies [innermostBody, callingThenBody middle innermost .retVoid, callingThenBody outer middle .nop] []
  path := ⟨[⟨.ret, innermost, 0, some 0, some middle⟩, ⟨.ret, middle, 1, some 0, some outer⟩,
    ⟨.sink, outer, 1, none, none⟩], by decide⟩

def nestedRank (m : Method) : Nat := if m = innermost then 0 else if m = middle then 1 else 2

theorem returns_bounded_nested : ∃ s, Search.start (plainAnalyzer.task nestedQuery) innermost = .ok s ∧
    s.returnsIn (plainAnalyzer.task nestedQuery) 9 = 2 ∧
    ∀ n, s.returnsIn (plainAnalyzer.task nestedQuery) n ≤ nestedQuery.returnBound := by
  have onward : nestedQuery.ReturnsOnward innermost := by
    refine Query.returnsOnward_of_rank nestedRank ?_ innermost
    decide
  have begins : (Search.start (plainAnalyzer.task nestedQuery) innermost).toOption.any
      (fun s => s.returnsIn (plainAnalyzer.task nestedQuery) 9 = 2) = true := by
    decide +kernel
  obtain ⟨s, started, twice⟩ := (Option.any_eq_true ..).1 begins
  have started := toOption_eq_some.1 started
  exact ⟨s, started, of_decide_eq_true twice, plainAnalyzer.returns_bounded onward started⟩

end Nested

section Running

variable {s s' : Search} {x : ExecState}

namespace Instances

variable {calls : Instances ExecState} {m : Method} {g : Digraph} {i : InstrId} {n : Node}

theorem data?_new : (calls.withNew m g).data? ⟨calls.count, m, i⟩ = none := by
  unfold data?
  rw [getElem?_withNew]
  rfl

theorem first?_exists (placed : calls.Places n) : ∃ first, calls.first? n = .ok first := by
  obtain ⟨i, found, method⟩ := placed
  unfold first? successors of
  rw [found]
  simp only [method, if_true]
  exact ⟨_, rfl⟩

end Instances

/-- A state is received at a node where none is kept. -/
theorem Searching.receive_exists (o : Overflow) (first : Option Node) (none : s.world.calls.data? x.node = none)
    (placed : s.world.calls.Places x.node) : ∃ s', (receive o first x).run.run s = (.ok (), s') := by
  obtain ⟨i, found, -⟩ := placed
  have keeps : ∃ calls, s.world.calls.keep x.node x = .ok calls := by
    unfold Instances.keep
    rw [found]
    exact ⟨_, rfl⟩
  obtain ⟨calls, kept⟩ := keeps
  suffices h : ∃ u s', (receive o first x).run.run s = (.ok u, s') ∧ True from by
    obtain ⟨⟨⟩, s', run, -⟩ := h
    exact ⟨s', run⟩
  refine run_bind_exists rfl ?_
  simp only [none]
  refine run_bind_exists rfl ?_
  refine run_bind_exists rfl ?_
  refine run_bind_exists (run_lift_ok.2 ⟨kept, rfl⟩) ?_
  exact ⟨_, _, rfl, trivial⟩

/-- A step runs on where a state off the sink is followed by one that is received. -/
theorem Search.running_of_receive {t : Task} {n : Node} {worklist : Worklist} {f : ExecState}
    {first : Option Node} {w' : World} (pop : s.worklist.pop? = some (n, worklist))
    (fresh : worklist.isProcessed n = false) (data : s.world.calls.data? n = some x)
    (offSink : t.query.path.isSink x.node.method x.node.instr = false)
    (asked : s.world.calls.first? n = .ok first)
    (next : (x.next t.query t.limit).run.run s.world = (.ok [f], w'))
    (received : (Searching.receive t.overflow first f).run.run (Snapshot.expanded s w' worklist n) = (.ok (), s')) :
    s.step t = .running s' := by
  have expands : (Searching.expand t n x).run.run (Snapshot.expanded s s.world worklist n) = (.ok (), s') := by
    refine run_bind_ok.2 ⟨first, _, Searching.explore_ok.2 ⟨_, Explore.askCalls_ok.2 ⟨asked, rfl⟩, rfl⟩, ?_⟩
    refine run_bind_ok.2 ⟨[f], _, Searching.explore_ok.2 ⟨w', next, rfl⟩, ?_⟩
    exact run_bind_ok.2 ⟨(), s', received, rfl⟩
  unfold step
  rw [pop]
  simp only [fresh, Bool.false_eq_true, if_false]
  unfold process
  simp only [data, offSink, Bool.false_eq_true, if_false]
  unfold Snapshot.expanded at expands
  rw [expands]

end Running

section Circling

def circling : Method := ⟨"A", "run", [], .void⟩

def circlingBody : Body where
  method := circling
  locals := []
  instructions := [.retVoid]
  successors := [[]]
  nonempty := List.cons_ne_nil _ _
  successors_length := rfl
  edges_lt := by decide

/-- The path returns from the method to itself. -/
def circlingQuery : Query where
  program := .ofBodies [circlingBody] []
  path := ⟨[⟨.ret, circling, 0, some 0, some circling⟩, ⟨.sink, ⟨"B", "end", [], .void⟩, 0, none, none⟩],
    by decide⟩

def circlingTask : Task := plainAnalyzer.task circlingQuery

def circlingGraph : Digraph := ⟨[(0, [])]⟩

theorem circling_body : circlingQuery.body circling = .ok circlingBody := rfl

theorem circling_graph : circlingQuery.graph circling = .ok circlingGraph := rfl

variable {x : ExecState} {w : World} {c : CallId} {s : Search}

theorem circling_resume (node : x.node = ⟨c, circling, 0⟩) :
    (Instances.resume circlingQuery x.node).run.run w.calls =
      (.ok ⟨w.calls.count, circling, 0⟩, w.calls.withNew circling circlingGraph) := by
  rw [node]
  exact Instances.resume_run rfl circling_graph rfl

/-- Every return of the method is followed by a new instance of it, at the same return. -/
theorem circling_next (node : x.node = ⟨c, circling, 0⟩) (outermost : x.stack.below = []) (limit : Nat) :
    ∃ fs w', (x.next circlingQuery limit).run.run w = (.ok fs, w') ∧
      ∃ f, fs = [f] ∧ w'.calls = w.calls.withNew circling circlingGraph ∧
        f.node = ⟨w.calls.count, circling, 0⟩ ∧ f.stack.below = [] := by
  have body : circlingQuery.body x.node.method = .ok circlingBody := by rw [node]; rfl
  have found : circlingBody.instruction? x.node.instr = some .retVoid := by rw [node]; rfl
  have effect : (Effect.ofInstruction x.node.method .retVoid).Yields (.start x.symbolic) w.context
      (.ret (.void w.context.labels)) (.start x.symbolic)
      { w.context with labels := w.context.labels + labelBlock } :=
    Run.yields_bind.2
      ⟨_, _, _, Run.yields_freshLabel.2 ⟨rfl, rfl, rfl⟩, Run.yields_pure.2 ⟨rfl, rfl, rfl⟩⟩
  refine run_bind_exists (run_lift_ok.2 ⟨body, rfl⟩) ?_
  rw [found]
  refine run_bind_exists (Explore.gather_ok.2 ⟨_, _, effect, rfl, rfl⟩) ?_
  simp only [outermost, List.isEmpty_nil, if_true]
  refine run_bind_exists (Explore.onCalls_ok.2 ⟨_, circling_resume node, rfl⟩) ?_
  refine run_bind_exists (run_lift_ok.2 ⟨circling_body, rfl⟩) ?_
  refine run_bind_exists (a := ([], []))
    (Explore.gather_ok.2 ⟨.start x.symbolic, _, Run.yields_pure.2 ⟨rfl, rfl, rfl⟩, rfl, rfl⟩) ?_
  refine run_bind_exists (Explore.perform_ok.2 ⟨rfl, rfl⟩) ?_
  refine run_bind_exists (Explore.perform_ok.2 ⟨rfl, rfl⟩) ?_
  exact ⟨_, _, run_pure_ok.2 ⟨rfl, rfl⟩, _, rfl, rfl, rfl, rfl⟩

/-- The search is at the return of its latest instance. -/
structure Circles (c : CallId) (s : Search) : Prop where
  queue : s.worklist.queue = [⟨c, circling, 0⟩]
  earlier : ∀ k ∈ s.worklist.processed, k.callId < c
  count : s.world.calls.count = c + 1
  placed : s.world.calls.Places ⟨c, circling, 0⟩
  state : ∃ x, s.world.calls.data? ⟨c, circling, 0⟩ = some x ∧ x.node = ⟨c, circling, 0⟩ ∧
    x.stack.below = []

theorem Circles.start : ∃ s, Search.start circlingTask circling = .ok s ∧ Circles 0 s := by
  refine ⟨_, rfl, rfl, ?_, rfl, ?_, ?_⟩
  · exact fun _ mem => nomatch mem
  · exact ⟨_, rfl, rfl⟩
  · exact ⟨_, rfl, rfl, rfl⟩

/-- It is there again when the state of a new instance has been received. -/
theorem Circles.receive {s' : Search} {calls : Instances ExecState} {o : Overflow} {first : Option Node}
    (queue : s.worklist.queue = []) (earlier : ∀ k ∈ s.worklist.processed, k.callId < calls.count)
    (new : s.world.calls = calls.withNew circling circlingGraph)
    (node : x.node = ⟨calls.count, circling, 0⟩) (outermost : x.stack.below = [])
    (received : (Searching.receive o first x).run.run s = (.ok (), s')) : Circles calls.count s' := by
  obtain ⟨stored, _, calls', how, keep, world, scheduled, -⟩ := Searching.receive_ok received
  have unmarked : s.worklist.isProcessed x.node = false := by
    rw [Bool.eq_false_iff, node]
    intro known
    exact Nat.lt_irrefl _ (earlier _ (List.contains_iff_mem.1 known))
  have empty : s.world.calls.data? x.node = none := by
    rw [new, node]
    exact Instances.data?_new
  refine ⟨?_, ?_, ?_, ?_, stored, ?_, how.node.trans node, ?_⟩
  · rw [scheduled, Worklist.schedule, unmarked, ← node]
    simp only [Bool.false_eq_true, if_false, queue, List.nil_append, ite_self]
  · rw [scheduled, Worklist.processed_schedule]
    exact earlier
  · rw [world]
    exact (Instances.count_keep keep).trans (new ▸ Instances.count_withNew ..)
  · rw [world]
    exact (Instances.places_keep keep).2 (new ▸ Instances.places_new ..)
  · rw [world, ← node, Instances.data?_keep keep, if_pos ⟨rfl, rfl⟩]
  · cases how with
    | first => exact outermost
    | merged found => cases empty.symm.trans found

theorem Circles.step (h : Circles c s) : ∃ s', s.step circlingTask = .running s' ∧ Circles (c + 1) s' ∧
    (Snapshot.start s).returnsAlongPath circlingQuery = true := by
  obtain ⟨x, data, node, outermost⟩ := h.state
  obtain ⟨_, w', next, f, rfl, calls, node', outermost'⟩ :=
    circling_next (w := s.world) node outermost circlingTask.limit
  have pop : s.worklist.pop? = some (⟨c, circling, 0⟩, ⟨[], s.worklist.processed⟩) := by
    unfold Worklist.pop?
    rw [h.queue]
  have fresh : Worklist.isProcessed ⟨[], s.worklist.processed⟩ ⟨c, circling, 0⟩ = false := by
    rw [Bool.eq_false_iff]
    intro known
    exact Nat.lt_irrefl _ (h.earlier _ (List.contains_iff_mem.1 known))
  obtain ⟨first, asked⟩ := Instances.first?_exists h.placed
  have empty : w'.calls.data? f.node = none := by
    rw [calls, node']
    exact Instances.data?_new
  have placed : w'.calls.Places f.node := by
    rw [calls, node']
    exact Instances.places_new ..
  obtain ⟨s', received⟩ := Searching.receive_exists .panics first
    (s := Snapshot.expanded s w' ⟨[], s.worklist.processed⟩ ⟨c, circling, 0⟩) empty placed
  refine ⟨s', Search.running_of_receive pop fresh data (by rw [node]; rfl) asked next received, ?_, ?_⟩
  · rw [← h.count]
    refine Circles.receive Worklist.queue_mark (fun k mem => ?_) calls node' outermost' received
    rw [h.count]
    rcases Worklist.mem_processed_mark.1 mem with rfl | mem
    · exact Nat.lt_succ_self c
    · exact Nat.lt_succ_of_lt (h.earlier k mem)
  · have here : (Snapshot.start s).expanding? = some x := by
      simp only [Snapshot.expanding?, Snapshot.start, pop, fresh, Bool.false_eq_true, if_false]
      exact data
    rw [Snapshot.returnsAlongPath, here, Option.any_some, outermost, node]
    rfl

/-- Each step is a return. -/
theorem Circles.returnsIn (h : Circles c s) (n : Nat) : s.returnsIn circlingTask n = n := by
  induction n generalizing c s with
  | zero => rfl
  | succ n ih =>
    obtain ⟨s', running, circles, returns⟩ := h.step
    have query : circlingTask.query = circlingQuery := rfl
    simp only [Search.returnsIn, running, ih circles, query, returns, if_true]
    exact Nat.add_comm 1 n

theorem Circles.run (h : Circles c s) (fuel : Nat) : s.run circlingTask fuel = none := by
  induction fuel generalizing c s with
  | zero => rfl
  | succ fuel ih =>
    obtain ⟨s', running, circles, -⟩ := h.step
    unfold Search.run
    rw [running]
    exact ih circles

/-- Where the path returns to the very return that it names, each step of the search is another return, and
the analysis never ends. -/
theorem returns_unbounded_circling : ∃ s, Search.start circlingTask circling = .ok s ∧
    (∀ n, s.returnsIn circlingTask n = n) ∧ ∀ fuel, plainAnalyzer.analyze fuel circlingQuery circling = none := by
  obtain ⟨s, started, circles⟩ := Circles.start
  refine ⟨s, started, circles.returnsIn, fun fuel => ?_⟩
  have start : Search.start (plainAnalyzer.task circlingQuery) circling = .ok s := started
  unfold Analyzer.analyze
  rw [start]
  exact circles.run fuel

end Circling

end SinkReach
