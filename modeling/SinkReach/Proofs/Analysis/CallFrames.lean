import SinkReach.Proofs.Analysis.CallStacks

/-!
Calls and the frames below them. As long as no method is entered that is active already, the locals of
the methods active at a call stay as they are until the call returns: what happens inside the call binds
locals of methods above it alone, a return drops those of the method that is left, and where states of one
instance are merged, both have kept them.
-/
namespace SinkReach

open Relation (ReflTransGen)

namespace ExecState

variable {x y u : ExecState} {result : Option LocalId} {inner : List Site} {c : Node} {r : Option LocalId}

/-- Return sites of a call from the state. -/
def callSites (x : ExecState) (result : Option LocalId) : List Site := (some x.node, result) :: x.stack.sites

theorem mem_active_of_site (mem : (some c, r) ∈ x.stack.sites) : c.method ∈ x.active :=
  List.mem_cons_of_mem _ (List.mem_map.2 ⟨c, List.mem_filterMap.2 ⟨_, mem, rfl⟩, rfl⟩)

theorem node_mem_active : x.node.method ∈ x.active := List.mem_cons_self

/-- Inside a call the methods active at the call are active still. -/
theorem active_subset (sites : u.stack.sites = inner ++ x.callSites result) {m : Method} (mem : m ∈ x.active) :
    m ∈ u.active := by
  rcases List.mem_cons.1 mem with rfl | mem
  · refine mem_active_of_site (r := result) ?_
    rw [sites]
    exact List.mem_append_right _ List.mem_cons_self
  · obtain ⟨c, caller, rfl⟩ := List.mem_map.1 mem
    obtain ⟨⟨_, r⟩, site, rfl⟩ := List.mem_filterMap.1 caller
    refine mem_active_of_site (r := r) ?_
    rw [sites]
    exact List.mem_append_right _ (List.mem_cons_of_mem _ site)

/-- A state inside a call, with the return sites between: none of the methods active at the call is
entered, and their locals are as they were. -/
structure Spares (x : ExecState) (inner : List Site) (u : ExecState) : Prop where
  here : u.node.method ∉ x.active
  between : ∀ c r, (some c, r) ∈ inner → c.method ∉ x.active
  locals : ∀ id, id.method ∈ x.active → u.local? id = x.local? id

theorem Spares.goesTo {calls : Instances ExecState} (h : x.Spares inner y) (goes : y.GoesTo calls u) :
    x.Spares inner u := by
  refine ⟨goes.node.2 ▸ h.here, h.between, fun id active => ?_⟩
  have notOwn : id.method ≠ y.node.method := fun own => h.here (own ▸ active)
  rw [goes.locals id notOwn]
  exact h.locals id active

theorem Spares.enter (h : x.Spares inner y) (new : u.node.method ∉ x.active)
    (locals : ∀ id, id.method ≠ u.node.method → u.local? id = y.local? id) :
    x.Spares ((some y.node, r) :: inner) u := by
  refine ⟨new, fun c r between => ?_, fun id active => ?_⟩
  · rcases List.mem_cons.1 between with here | between
    · cases here
      exact h.here
    · exact h.between c r between
  · rw [locals id fun callee => new (callee ▸ active)]
    exact h.locals id active

/-- The local that takes a result is one of the method returned to, which is above the call. -/
theorem Spares.leave {q : Query} {w : World} (h : x.Spares (y.stack.top.site :: inner) y)
    (top : y.stack.top.caller = some c) (own : ∀ id ∈ y.stack.top.result, id.method = c.method)
    (node : u.node.method = c.method) (hands : y.HandsBack q w u) : x.Spares inner u := by
  have outside : c.method ∉ x.active := by
    refine h.between c y.stack.top.result ?_
    rw [Frame.site, top]
    exact List.mem_cons_self
  refine ⟨node ▸ outside, fun c r between => h.between c r (List.mem_cons_of_mem _ between),
    fun id active => ?_⟩
  have notResult : y.stack.top.result ≠ some id := fun taken => outside (own id taken ▸ active)
  have notOwn : id.method ≠ y.node.method := fun own => h.here (own ▸ active)
  rw [hands.locals id notResult, if_neg notOwn]
  exact h.locals id active

end ExecState

namespace Snapshot

variable {t : Task} {m : Method} {p p' p₁ p₂ p₃ : Snapshot} {x y z f u : ExecState}
  {σ : CallId → List Site} {result : Option LocalId}

/-- Call sites on the stacks are processed. -/
def Called (p : Snapshot) : Prop :=
  ∀ u, p.Holds u → ∀ c r, (some c, r) ∈ u.stack.sites → c ∈ p.search.worklist.processed

theorem Called.start {s : Search} (h : Search.start t m = .ok s) : Called (start s) := by
  intro u hu c r mem
  rcases hu with pending | ⟨n, data⟩
  · cases pending
  · obtain ⟨-, rfl⟩ := (Search.start_kept h).2 n u data
    cases List.mem_singleton.1 mem

theorem Called.moves (h : Called p) (located : Located t.query p) (moves : Moves t p p') : Called p' := by
  intro u hu c r mem
  cases moves.change with
  | settles _ _ _ processed holds =>
    rw [processed]
    rcases holds u hu with old | ⟨x, y, _, _, hx, -, merge⟩
    · exact h u old c r mem
    · obtain ⟨-, -, -, stack⟩ := ExecState.merge_ok merge
      exact h x hx c r (stack ▸ mem)
  | @expands n x _ data queued _ transition processed holds =>
    have known := h x (.inr ⟨n, data⟩)
    have node := located.node_eq queued data
    rw [processed]
    rcases holds u hu with old | follows
    · exact List.mem_cons_of_mem _ (h u old c r mem)
    generalize p'.pending = fs at transition follows
    cases transition with
    | stays _ goes => exact List.mem_cons_of_mem _ (known c r ((goes u follows).sites ▸ mem))
    | enters _ _ _ stack =>
      obtain rfl := List.mem_singleton.1 follows
      rw [stack, Stack.sites_push] at mem
      rcases List.mem_cons.1 mem with here | mem
      · cases here
        exact node ▸ List.mem_cons_self
      · exact List.mem_cons_of_mem _ (known c r mem)
    | leaves _ inner _ _ stack =>
      obtain rfl := List.mem_singleton.1 follows
      refine List.mem_cons_of_mem _ (known c r ?_)
      rw [Stack.sites_pop inner, ← stack]
      exact List.mem_cons_of_mem _ mem
    | resumes _ _ _ _ _ _ stack =>
      obtain rfl := List.mem_singleton.1 follows
      rw [stack, Stack.sites_root] at mem
      cases List.mem_singleton.1 mem

theorem IsMoment.called (h : p.IsMoment t m) : Called p := by
  have both := h.invariant (I := fun p => Located t.query p ∧ Called p)
    (fun _ started => ⟨.start started, .start started⟩) fun ⟨located, called⟩ moves =>
      ⟨located.moves moves, called.moves located moves⟩
  exact both.2

/-- The local that takes the result is one of the method that is returned to. -/
theorem Stacked.result_method (h : Stacked σ p) (hx : p.Holds x) {c : Node}
    (caller : x.stack.top.caller = some c) : ∀ id ∈ x.stack.top.result, id.method = c.method := by
  obtain ⟨known, sites⟩ := h.held x hx
  cases h.rooted _ known with
  | root only =>
    rw [only] at sites
    injection sites with site
    cases caller.symm.trans (congrArg Prod.fst site)
  | call _ called own =>
    rw [called] at sites
    injection sites with site
    obtain ⟨same, taken⟩ := Prod.mk.inj site
    cases caller.symm.trans same
    rw [taken]
    exact own

/-- No method is entered that is active already. -/
def EntersAnew (p p' : Snapshot) : Prop :=
  ∀ x ∈ p.expanding?, ∀ f ∈ p'.pending, x.stack.depth < f.stack.depth → f.node.method ∉ x.active

instance : Decidable (p.EntersAnew p') := inferInstanceAs (Decidable (∀ x ∈ p.expanding?, _))

/-- One move that enters no active method. -/
def MovesAnew (t : Task) (p p' : Snapshot) : Prop := Moves t p p' ∧ p.EntersAnew p'

theorem movesAnew_moves (h : ReflTransGen (MovesAnew t) p p') : ReflTransGen (Moves t) p p' :=
  h.lift (fun p => p) fun _ _ anew => anew.1

/-- The call from a state is made, and all states inside it spare what was active then. -/
structure Inside (x : ExecState) (result : Option LocalId) (p : Snapshot) : Prop where
  made : x.node ∈ p.search.worklist.processed
  spares : ∀ u, p.Holds u → ∀ inner, u.stack.sites = inner ++ x.callSites result → x.Spares inner u

/-- Whatever follows from a state inside the call spares the active methods again. -/
theorem Inside.transition {w w' : World} {fs : List ExecState} (h : Inside x result p) (stacked : Stacked σ p)
    (hy : p.Holds y) (other : y.node ≠ x.node) (transition : Transition t.query w w' y fs) (mem : u ∈ fs)
    (anew : y.stack.depth < u.stack.depth → u.node.method ∉ y.active) {inner : List Site}
    (sites : u.stack.sites = inner ++ x.callSites result) : x.Spares inner u := by
  cases transition with
  | stays _ goes =>
    have goes := goes u mem
    exact (h.spares y hy inner (goes.sites ▸ sites)).goesTo goes
  | enters _ _ node stack _ locals =>
    obtain rfl := List.mem_singleton.1 mem
    have deeper : y.stack.depth < u.stack.depth := by
      rw [stack]
      exact Nat.lt_succ_self _
    rw [stack, Stack.sites_push] at sites
    cases inner with
    | nil =>
      -- Another state at the call's own node would have to be expanded.
      injection sites with site
      exact absurd (Option.some.inj (Prod.mk.inj site).1) other
    | cons site inner =>
      injection sites with site sites
      subst site
      refine (h.spares y hy inner sites).enter (fun active => ?_) (by rw [node]; exact locals)
      exact anew deeper (ExecState.active_subset sites active)
  | leaves _ below top first stack hands =>
    obtain rfl := List.mem_singleton.1 mem
    have popped : y.stack.sites = (y.stack.top.site :: inner) ++ x.callSites result := by
      rw [Stack.sites_pop below, ← stack, sites, List.cons_append]
    refine (h.spares y hy _ popped).leave top (stacked.result_method hy top) ?_ hands
    rw [Instances.eq_withInstr_of_first? first]
    rfl
  | resumes _ _ _ _ _ _ stack =>
    obtain rfl := List.mem_singleton.1 mem
    -- A root has one site, a state inside the call two at least.
    have short := congrArg List.length sites
    rw [stack, Stack.length_sites, List.length_append, ExecState.callSites, List.length_cons,
      Stack.length_sites] at short
    have one : Stack.root.depth = 1 := rfl
    have two : 1 ≤ x.stack.depth := Nat.le_add_left ..
    omega

theorem Inside.moves (h : Inside x result p) (moment : p.IsMoment t m) (moves : MovesAnew t p p') :
    Inside x result p' := by
  obtain ⟨σ, stacked⟩ := moment.stacked
  cases moves.1.change with
  | settles _ _ _ processed holds =>
    refine ⟨processed ▸ h.made, fun u hu inner sites => ?_⟩
    rcases holds u hu with old | ⟨a, b, _, _, ha, hb, merge⟩
    · exact h.spares u old inner sites
    · obtain ⟨-, node, same, stack⟩ := ExecState.merge_ok merge
      rw [stack] at sites
      have left := h.spares a ha inner sites
      have agree : a.stack.sites = b.stack.sites := by
        rw [(stacked.held a ha).2, (stacked.held b hb).2, same]
      have right := h.spares b hb inner (agree ▸ sites)
      refine ⟨node ▸ left.here, left.between, fun id active => ?_⟩
      have kept := (left.locals id active).trans (right.locals id active).symm
      exact (ExecState.merge_local? merge kept).trans (left.locals id active)
  | @expands n y expanding data queued fresh transition processed holds =>
    refine ⟨processed ▸ List.mem_cons_of_mem _ h.made, fun u hu inner sites => ?_⟩
    rcases holds u hu with old | follows
    · exact h.spares u old inner sites
    · have other : y.node ≠ x.node := by
        rw [moment.located.node_eq queued data]
        intro same
        exact fresh (same ▸ h.made)
      exact h.transition stacked (.inr ⟨n, data⟩) other transition follows (moves.2 y expanding u follows) sites

/-- A move from a state to one that follows. -/
structure Expands (t : Task) (p p' : Snapshot) (x f : ExecState) : Prop where
  moves : Moves t p p'
  here : p.expanding? = some x
  mem : f ∈ p'.pending

/-- A call is entered: the stack gets deeper. -/
structure EntersCall (t : Task) (p p' : Snapshot) (x f : ExecState) : Prop extends Expands t p p' x f where
  deeper : x.stack.depth < f.stack.depth

/-- A call is left: the stack gets shallower. -/
structure LeavesCall (t : Task) (p p' : Snapshot) (y z : ExecState) : Prop extends Expands t p p' y z where
  shallower : z.stack.depth < y.stack.depth

/-- At first the state that is entered is the only one inside the call. -/
theorem EntersCall.inside (h : EntersCall t p p' x f) (moment : p.IsMoment t m) (anew : p.EntersAnew p') :
    f.stack.sites = x.callSites f.stack.top.result ∧ Inside x f.stack.top.result p' := by
  cases h.moves.change with
  | settles none => cases none.symm.trans h.here
  | @expands n _ here data queued fresh transition processed holds =>
    cases here.symm.trans h.here
    obtain ⟨only, stack, locals⟩ := transition.of_deeper h.mem h.deeper
    have sites : f.stack.sites = x.callSites f.stack.top.result := by
      conv_lhs => rw [stack, Stack.sites_push]
      rfl
    have node : x.node = n := moment.located.node_eq queued data
    have new : f.node.method ∉ x.active := anew x h.here f h.mem h.deeper
    refine ⟨sites, by rw [processed, node]; exact List.mem_cons_self, fun u hu inner inside => ?_⟩
    rcases holds u hu with old | mem
    · -- No call was made from a node that is not processed.
      refine absurd (moment.called u old x.node f.stack.top.result ?_) (node ▸ fresh)
      rw [inside]
      exact List.mem_append_right _ List.mem_cons_self
    · rw [only] at mem
      obtain rfl := List.mem_singleton.1 mem
      obtain rfl : inner = [] := List.append_left_eq_self.1 (inside.symm.trans sites)
      refine ⟨new, fun _ _ mem => (nomatch mem), fun id active => locals id ?_⟩
      intro callee
      exact new (callee ▸ active)

theorem Inside.reaches (h : Inside x result p) (moment : p.IsMoment t m)
    (moves : ReflTransGen (MovesAnew t) p p') : Inside x result p' := by
  induction moves with
  | refl => exact h
  | tail before move ih =>
    exact ih.moves (moment.reaches (movesAnew_moves before)) move

/-- An instance is of one method at all times. -/
theorem method_eq (moves : ReflTransGen (Moves t) p p') (placed : p.calls.Places f.node)
    (placed' : p'.calls.Places y.node) (same : y.node.callId = f.node.callId) : y.node.method = f.node.method := by
  have still : p'.calls.Places (f.node.withInstr y.node.instr) := by
    clear placed'
    induction moves with
    | refl => exact placed
    | tail _ move ih => exact move.places ih
  have node : y.node = f.node.withInstr y.node.instr := placed'.eq still same rfl
  rw [node]
  rfl

/-- A call keeps what was active. Where a call is entered, no method is entered that is active already,
and the instance of the call is left, the return leads back behind the call; the locals of all methods
active at the call are as they were, but for the one that takes the result; the callee has none left; and
the result is the value returned, as the local's type takes it. -/
theorem call_keeps_frames (moment : p.IsMoment t m) (enters : EntersCall t p p₁ x f)
    (anew : p.EntersAnew p₁) (segment : ReflTransGen (MovesAnew t) p₁ p₂) (leaves : LeavesCall t p₂ p₃ y z)
    (same : y.node.callId = f.node.callId) :
    z.node = x.node.withInstr z.node.instr ∧
      (∀ id, id.method ∈ x.active → f.stack.top.result ≠ some id → z.local? id = x.local? id) ∧
      (∀ id, id.method = f.node.method → z.local? id = none) ∧
      ∀ id, f.stack.top.result = some id → ∃ v v', y.Returns t.query p₂.search.world v ∧
        y.Converts v id.ty v' ∧ z.local? id = some v' := by
  have moves : ReflTransGen (Moves t) p₁ p₂ := movesAnew_moves segment
  have moment₁ := moment.moves enters.moves
  have moment₂ := moment₁.reaches moves
  have hf : p₁.Holds f := .inl enters.mem
  have hy : p₂.Holds y := holds_expanding leaves.here
  obtain ⟨sites, inside⟩ := enters.inside moment anew
  have sites' : y.stack.sites = x.callSites f.stack.top.result :=
    (moment₂.sites_eq moment₁ hy hf same).trans sites
  have spares : x.Spares [] y := (inside.reaches moment₁ segment).spares y hy [] sites'
  have method : y.node.method = f.node.method :=
    method_eq moves (moment₁.located.placed f hf) (moment₂.located.placed y hy) same
  obtain ⟨caller, i, top, node, hands⟩ :=
    (leaves.moves.expands leaves.here).of_shallower leaves.mem leaves.shallower
  injection sites' with site
  obtain ⟨called, taken⟩ := Prod.mk.inj site
  cases top.symm.trans called
  obtain ⟨σ, stacked⟩ := moment₂.stacked
  have own := stacked.result_method hy top
  have locals := hands.locals
  obtain ⟨v, returns, result⟩ := hands.result
  rw [taken] at locals result own
  refine ⟨by rw [node]; rfl, fun id active other => ?_, fun id callee => ?_, fun id handed => ?_⟩
  · have notCallee : id.method ≠ y.node.method := fun callee => spares.here (callee ▸ active)
    rw [locals id other, if_neg notCallee]
    exact spares.locals id active
  · have notResult : f.stack.top.result ≠ some id := fun handed =>
      spares.here (method ▸ callee ▸ own id handed ▸ ExecState.node_mem_active)
    rw [locals id notResult, if_pos (callee.trans method.symm)]
  · obtain ⟨v', converts, bound⟩ := result id handed
    exact ⟨v, v', returns, converts, bound⟩

section Picking

/-- The snapshot after a number of moves that enter no active method. -/
def afterAnew? (t : Task) : Nat → Snapshot → Option Snapshot
  | 0, p => some p
  | n + 1, p => (p.move? t).bind fun p' => if p.EntersAnew p' then afterAnew? t n p' else none

theorem movesAnew_of_afterAnew? {n : Nat} (h : afterAnew? t n p = some p') : ReflTransGen (MovesAnew t) p p' := by
  induction n generalizing p with
  | zero =>
    cases h
    exact .refl
  | succ n ih =>
    obtain ⟨p₁, moved, rest⟩ := Option.bind_eq_some_iff.1 h
    split at rest
    next anew => exact .head ⟨moves_iff.2 moved, anew⟩ (ih rest)
    next => cases rest

/-- Whether the state expanded after a number of moves calls, the call is left that many moves later, and
the states at the call, entered, at the return and behind it pass a test. -/
def returnsAfter (t : Task) (m : Method) (k n : Nat)
    (test : ExecState → ExecState → ExecState → ExecState → Bool) : Bool :=
  (nth? t m k).any fun p => (p.move? t).any fun p₁ => (afterAnew? t n p₁).any fun p₂ =>
    (p₂.move? t).any fun p₃ => decide (p.EntersAnew p₁) && p.expanding?.any fun x =>
      p₁.pending.head?.any fun f => p₂.expanding?.any fun y => p₃.pending.head?.any fun z =>
        decide (x.stack.depth < f.stack.depth ∧ z.stack.depth < y.stack.depth ∧
          y.node.callId = f.node.callId) && test x f y z

theorem exists_return {k n : Nat} {test : ExecState → ExecState → ExecState → ExecState → Bool}
    (h : returnsAfter t m k n test = true) : ∃ p p₁ p₂ p₃ x f y z, p.IsMoment t m ∧ EntersCall t p p₁ x f ∧
      p.EntersAnew p₁ ∧ ReflTransGen (MovesAnew t) p₁ p₂ ∧ LeavesCall t p₂ p₃ y z ∧
      y.node.callId = f.node.callId ∧ test x f y z = true := by
  obtain ⟨p, after, h⟩ := (Option.any_eq_true ..).1 h
  obtain ⟨p₁, moved, h⟩ := (Option.any_eq_true ..).1 h
  obtain ⟨p₂, anew, h⟩ := (Option.any_eq_true ..).1 h
  obtain ⟨p₃, moved', h⟩ := (Option.any_eq_true ..).1 h
  obtain ⟨first, h⟩ := Bool.and_eq_true_iff.1 h
  obtain ⟨x, here, h⟩ := (Option.any_eq_true ..).1 h
  obtain ⟨f, mem, h⟩ := (Option.any_eq_true ..).1 h
  obtain ⟨y, here', h⟩ := (Option.any_eq_true ..).1 h
  obtain ⟨z, mem', h⟩ := (Option.any_eq_true ..).1 h
  obtain ⟨facts, tested⟩ := Bool.and_eq_true_iff.1 h
  obtain ⟨deeper, shallower, same⟩ := of_decide_eq_true facts
  exact ⟨p, p₁, p₂, p₃, x, f, y, z, isMoment_of_nth? after,
    ⟨⟨moves_iff.2 moved, here, List.mem_of_mem_head? mem⟩, deeper⟩, of_decide_eq_true first,
    movesAnew_of_afterAnew? anew, ⟨⟨moves_iff.2 moved', here', List.mem_of_mem_head? mem'⟩, shallower⟩, same,
    tested⟩

/-- The call of the method whose two ways join: the caller's parameter is bound before and after, and the
result is bound only after. -/
theorem call_keeps_frames_picking : ∃ (p p₁ p₂ p₃ : Snapshot) (x f y z : ExecState),
    p.IsMoment callingTask calling ∧ EntersCall callingTask p p₁ x f ∧ p.EntersAnew p₁ ∧
    ReflTransGen (MovesAnew callingTask) p₁ p₂ ∧ LeavesCall callingTask p₂ p₃ y z ∧
    y.node.callId = f.node.callId ∧ x.local? ⟨calling, "y", .byte⟩ = none ∧
    z.local? ⟨calling, "p", .int⟩ = x.local? ⟨calling, "p", .int⟩ ∧
    (x.local? ⟨calling, "p", .int⟩).isSome = true ∧ (y.local? ⟨picking, "r", .int⟩).isSome = true ∧
    z.local? ⟨picking, "r", .int⟩ = none ∧
    ∃ v v', y.Returns callingTask.query p₂.search.world v ∧ y.Converts v .byte v' ∧
      z.local? ⟨calling, "y", .byte⟩ = some v' := by
  have run : returnsAfter callingTask calling 2 10 (fun x f y _ => f.node.method = picking &&
      x.node.method = calling && f.stack.top.result = some ⟨calling, "y", .byte⟩ &&
      (x.local? ⟨calling, "y", .byte⟩).isNone && (x.local? ⟨calling, "p", .int⟩).isSome &&
      (y.local? ⟨picking, "r", .int⟩).isSome) = true := by
    decide +kernel
  obtain ⟨p, p₁, p₂, p₃, x, f, y, z, moment, enters, anew, segment, leaves, same, tested⟩ := exists_return run
  simp only [Bool.and_eq_true, decide_eq_true_eq, Option.isNone_iff_eq_none] at tested
  obtain ⟨⟨⟨⟨⟨callee, caller⟩, result⟩, unbound⟩, bound⟩, inCallee⟩ := tested
  obtain ⟨-, kept, dropped, handed⟩ := call_keeps_frames moment enters anew segment leaves same
  have active : calling ∈ x.active := caller ▸ ExecState.node_mem_active
  have other : f.stack.top.result ≠ some ⟨calling, "p", .int⟩ := by
    rw [result]
    decide
  exact ⟨p, p₁, p₂, p₃, x, f, y, z, moment, enters, anew, segment, leaves, same, unbound, kept _ active other,
    bound, inCallee, dropped _ callee.symm, handed _ result⟩

end Picking
end Snapshot
end SinkReach
