import SinkReach.Proofs.Naming.Step
import SinkReach.Proofs.Step.Transition

/-!
Faults of steps and merges. A step may fail because of the values at hand, the program, the taint path or the
solver. That it does not lose its way among states, call sites and call instances is a property of where it
starts: at an instruction of a known instance, in a frame that is the outermost one or has a known call site.
-/
namespace SinkReach

/-- Faults that a search would owe to itself alone: nothing is kept where a state should be, a frame has no
call site, a node is outside its instance or its body, or a state is merged into one at another node. -/
def Fault.Internal : Fault → Prop
  | .noState _ | .noCallSite _ | .unknownInstance _ | .otherMethod _ _ _ | .noInstruction _ _
  | .differentEnds _ _ => True
  | _ => False

theorem Fault.OfValues.external {f : Fault} (h : f.OfValues) : ¬ f.Internal := by
  cases f with
  | noState | noCallSite | unknownInstance | otherMethod | noInstruction | differentEnds =>
    rcases h with h | h | h <;> cases h
  | _ => exact not_false

/-- Faults that nothing at hand accounts for: internal ones, and an overflow where the build does not check for
any. -/
def Fault.Stray (o : Overflow) : Fault → Prop
  | .overflow => o = .wraps
  | f => f.Internal

theorem Fault.OfValues.notStray {o : Overflow} {f : Fault} (h : f.OfValues) : ¬ f.Stray o := by
  cases f with
  | overflow => rcases h with h | h | h <;> cases h
  | _ => exact h.external

theorem Fault.Internal.stray {o : Overflow} {f : Fault} (h : f.Internal) : f.Stray o := by
  cases f with
  | overflow => exact h.elim
  | _ => exact h

/-- From the state the operation leads to a state and a result with a property, or it fails with a fault that
is not stray. -/
def Safe {σ α : Type} (o : Overflow) (x : ExceptT Fault (StateM σ) α) (s : σ) (P : σ → α → Prop) : Prop :=
  match x.run.run s with
  | (.ok a, s') => P s' a
  | (.error f, _) => ¬ f.Stray o

namespace Safe

variable {o : Overflow} {σ α β : Type} {s s' : σ} {P Q : σ → α → Prop} {x : ExceptT Fault (StateM σ) α}

theorem pure {a : α} (h : P s a) : Safe o (Pure.pure a) s P := h

theorem throw {f : Fault} (h : ¬ f.Stray o) : Safe o (MonadExcept.throw f : ExceptT Fault (StateM σ) α) s P := h

theorem bind {f : α → ExceptT Fault (StateM σ) β} {R : σ → β → Prop} (hx : Safe o x s P)
    (hf : ∀ a s', P s' a → Safe o (f a) s' R) : Safe o (x >>= f) s R := by
  unfold Safe at hx ⊢
  rw [run_bind]
  revert hx
  rcases x.run.run s with ⟨e | a, s'⟩
  · exact fun fault => fault
  · exact fun ha => hf a s' ha

theorem mono (hx : Safe o x s P) (imp : ∀ s' a, P s' a → Q s' a) : Safe o x s Q := by
  unfold Safe at hx ⊢
  revert hx
  rcases x.run.run s with ⟨e | a, s'⟩
  · exact fun fault => fault
  · exact imp s' a

theorem lift {y : Except Fault α} (ok : ∀ a, y = .ok a → P s a) (error : ∀ f, y = .error f → ¬ f.Stray o) :
    Safe o (liftExcept y) s P := by
  cases y with
  | ok a => exact ok a rfl
  | error f => exact error f rfl

/-- Operations one after the other, whatever each of them does to the state. -/
theorem mapM {f : α → ExceptT Fault (StateM σ) β} {R : β → Prop} {as : List α}
    (h : ∀ a ∈ as, ∀ s, Safe o (f a) s fun _ => R) : Safe o (as.mapM f) s fun _ bs => ∀ b ∈ bs, R b := by
  induction as generalizing s with
  | nil =>
    rw [List.mapM_nil]
    exact pure fun _ mem => nomatch mem
  | cons a as ih =>
    obtain ⟨first, rest⟩ := List.forall_mem_cons.1 h
    rw [List.mapM_cons]
    refine bind (first s) fun b s' hb => bind (ih rest) fun bs s'' hbs => ?_
    exact pure (List.forall_mem_cons.2 ⟨hb, hbs⟩)

theorem of_ok {a : α} (h : Safe o x s P) (run : x.run.run s = (.ok a, s')) : P s' a := by
  rw [Safe, run] at h
  exact h

theorem of_error {f : Fault} (h : Safe o x s P) (run : x.run.run s = (.error f, s')) : ¬ f.Stray o := by
  rw [Safe, run] at h
  exact h

end Safe

/-- The node is at an instruction of its method's body. -/
def Query.HasInstruction (q : Query) (n : Node) : Prop :=
  ∃ b i, q.body n.method = .ok b ∧ b.instruction? n.instr = some i

namespace Query.HasInstruction

variable {q : Query} {n k : Node} {b : Body}

theorem of_lt (body : q.body n.method = .ok b) (less : n.instr < b.length) : q.HasInstruction n :=
  ⟨b, _, body, List.getElem?_eq_getElem less⟩

end Query.HasInstruction

namespace Instances

variable {q : Query} {s : Instances ExecState} {n k : Node} {ns : List Node}

theorem Places.exists_successors (h : s.Places n) : ∃ ns, s.successors n = .ok ns := by
  obtain ⟨i, found, method⟩ := h
  unfold successors of
  rw [found]
  simp only [method, if_true]
  exact ⟨_, rfl⟩

/-- Edges lead to instructions. -/
theorem Drawn.hasInstruction (drawn : s.Drawn q) (found : s.successors n = .ok ns) (mem : k ∈ ns) :
    q.HasInstruction k := by
  obtain ⟨i, inst, -⟩ := except_bind_ok.1 found
  obtain ⟨known, method⟩ := places_of_of inst
  obtain ⟨b, body⟩ := Query.body_of_graph (drawn i (List.mem_of_getElem? known))
  rw [method] at body
  have within := (drawn.successors body found).2 k mem
  refine .of_lt (b := b) ?_ (Body.lt_of_mem_successorsOf within.1)
  rw [eq_withInstr_of_mem found mem]
  exact body

end Instances

namespace Explore

variable {o : Overflow} {q : Query} {w : World} {n : Node} {α : Type}

theorem safe_successors (drawn : w.calls.Drawn q) (placed : w.calls.Places n) :
    Safe o (askCalls (·.successors n)) w fun w' ns => w' = w ∧ ∀ k ∈ ns, q.HasInstruction k := by
  obtain ⟨ns, found⟩ := placed.exists_successors
  rw [Safe, askCalls_ok.2 ⟨found, rfl⟩]
  exact ⟨rfl, fun k mem => drawn.hasInstruction found mem⟩

theorem safe_first? (drawn : w.calls.Drawn q) (placed : w.calls.Places n) :
    Safe o (askCalls (·.first? n)) w fun w' o => w' = w ∧ ∀ k ∈ o, q.HasInstruction k := by
  obtain ⟨ns, found⟩ := placed.exists_successors
  have first : w.calls.first? n = .ok ns.head? := except_bind_ok.2 ⟨ns, found, rfl⟩
  rw [Safe, askCalls_ok.2 ⟨first, rfl⟩]
  exact ⟨rfl, fun k mem => drawn.hasInstruction found (List.mem_of_mem_head? mem)⟩

theorem safe_perform (s : SymState) (us : List Update) :
    Safe o (perform s us) w fun w' t => w' = w.relabel us.length ∧ t = s.updateAll w.context.labels us := by
  rw [Safe, perform_ok.2 ⟨rfl, rfl⟩]
  exact ⟨rfl, rfl⟩

theorem safe_onCalls {x : Instances.Making ExecState α} {P : α → Prop} (h : Safe o x w.calls fun _ => P) :
    Safe o (onCalls x) w fun w' a => P a ∧ w'.context = w.context := by
  have run : (onCalls x).run.run w = ((x.run.run w.calls).1, { w with calls := (x.run.run w.calls).2 }) := rfl
  unfold Safe at h ⊢
  rw [run]
  revert h
  rcases x.run.run w.calls with ⟨e | a, calls⟩
  · exact fun fault => fault
  · exact fun ha => ⟨ha, rfl⟩

theorem safe_onContext {x : Symbolic α} {P : Context → α → Prop} (h : Safe o x w.context P) :
    Safe o (onContext x) w fun w' a => P w'.context a ∧ w'.calls = w.calls := by
  have run : (onContext x).run.run w = ((x.run.run w.context).1, w.withContext (x.run.run w.context).2) := rfl
  unfold Safe at h ⊢
  rw [run]
  revert h
  rcases x.run.run w.context with ⟨e | a, c⟩
  · exact fun fault => fault
  · exact fun ha => ⟨ha, rfl⟩

theorem gather_eq (s : SymState) (x : Run α) : (gather s x).run.run w =
    match (x.run.run (.start s)).run w.context with
    | ((.ok a, M), c) => (.ok (a, M.pending), w.withContext c)
    | ((.error f, _), c) => (.error f, w.withContext c) := by
  have run : (gather s x).run.run w = (((do
      let a ← x
      return (a, ← Machine.drain) : Run (α × List Update)).run.run (.start s)).run w.context |>
        fun r => (r.1.1, w.withContext r.2)) := rfl
  rw [run, Run.run_bind_eq]
  rcases (x.run.run (.start s)).run w.context with ⟨⟨e | a, M⟩, c⟩
  · rfl
  · rfl

/-- What the machine does fails because of the values at hand, if at all. -/
theorem safe_gather {s : SymState} {x : Run α} {P : Context → α → Prop} (h : Run.Accounted w.context x P)
    (names : s.Over w.context.Accounts) :
    Safe o (gather s x) w fun w' r => ∃ c, w' = w.withContext c ∧ w.context.Before c ∧ P c r.1 := by
  have result := h (.start s) w.context (.refl _) (.start names)
  rw [Safe, gather_eq]
  revert result
  rcases (x.run.run (.start s)).run w.context with ⟨⟨e | a, M⟩, c⟩
  · exact fun fault => Fault.OfValues.notStray fault
  · exact fun ⟨before, _, ha⟩ => ⟨c, rfl, before, ha⟩

end Explore

namespace Instances

variable {o : Overflow} {q : Query} {m : Method} {s : Instances ExecState} {f : Fault}

theorem body_external (h : q.body m = .error f) : ¬ f.Stray o := by
  unfold Query.body at h
  split at h
  · cases h
  · cases h
    exact not_false

theorem graph_external (h : q.graph m = .error f) : ¬ f.Stray o := by
  unfold Query.graph at h
  cases body : q.body m with
  | error e =>
    rw [body] at h
    cases h
    exact body_external body
  | ok b =>
    rw [body] at h
    dsimp only [bind, Except.bind] at h
    split at h
    · cases h
    · split at h
      · cases h
      · cases h
        exact not_false

theorem returnSite_external {n : Node} (h : returnSite q n = .error f) : ¬ f.Stray o := by
  unfold returnSite at h
  split at h
  · cases h
    exact not_false
  · split at h
    · cases h
      exact not_false
    · split at h
      · cases h
      · cases h
        exact not_false

theorem safe_make : Safe o (make q m) s fun s' i => i = s.count ∧ ∃ g, q.graph m = .ok g ∧ s' = s.withNew m g := by
  refine .bind (.lift (P := fun s' g => q.graph m = .ok g ∧ s' = s) (fun g graph => ⟨graph, rfl⟩)
    fun _ => graph_external) fun g s' ⟨graph, same⟩ => ?_
  subst same
  exact ⟨rfl, g, graph, rfl⟩

/-- Entries are instructions. -/
theorem safe_enter : Safe o (enter q m) s fun _ n => q.HasInstruction n := by
  have found : Safe o (liftExcept (q.body m)) s fun _ b => q.body m = .ok b :=
    .lift (fun _ body => body) fun _ => body_external
  refine .bind found fun b s' body => ?_
  exact .bind safe_make fun i s' _ => .pure (.of_lt body b.length_pos)

/-- A return along the path resumes at an instruction. -/
theorem safe_resume {n : Node} : Safe o (resume q n) s fun _ site => q.HasInstruction site := by
  refine .bind (.lift (P := fun _ _ => True) (fun _ _ => trivial) fun _ => returnSite_external) fun ⟨i, m⟩ s' _ => ?_
  refine .bind safe_make fun call s'' ⟨new, g, graph, instances⟩ => ?_
  subst new instances
  refine .bind (P := fun s₁ s₂ => s₁ = s'.withNew m g ∧ s₂ = s'.withNew m g) ⟨rfl, rfl⟩ fun s₁ s₂ ⟨_, same⟩ => ?_
  subst same
  split
  next found =>
    obtain ⟨b, body⟩ := Query.body_of_graph graph
    have known : g.contains i = true := by
      unfold contains withNew at found
      simpa [Instances.count] using found
    exact .pure (.of_lt body (Query.graph_below body graph i (Digraph.contains_iff.1 known)))
  next => exact .throw not_false

end Instances

namespace ExecState

open Explore

/-- The state is at an instruction of a known instance, and a frame that is not the outermost one has a known
call site. -/
structure Ready (q : Query) (w : World) (x : ExecState) : Prop where
  names : x.Over w.context.Accounts
  drawn : w.calls.Drawn q
  placed : w.calls.Places x.node
  inside : q.HasInstruction x.node
  caller : x.stack.below ≠ [] → ∃ n, x.stack.top.caller = some n ∧ w.calls.Places n

/-- Only states at instructions follow. -/
def Following (q : Query) (_ : World) (fs : List ExecState) : Prop := ∀ f ∈ fs, q.HasInstruction f.node

variable {o : Overflow} {q : Query} {limit : Nat} {w : World} {x : ExecState} {c : Context} {us : List Update}

theorem Ready.later (h : Ready q w x) (le : w.context.Before c) : Ready q (w.withContext c) x :=
  ⟨h.names.later le, h.drawn, h.placed, h.inside, h.caller⟩

theorem safe_toAll (drawn : w.calls.Drawn q) (placed : w.calls.Places x.node) (t : SymState) :
    Safe o (x.toAll t) w (Following q) := by
  refine .bind (safe_successors drawn placed) fun ns w' ⟨_, inside⟩ => .pure fun f mem => ?_
  obtain ⟨n, listed, rfl⟩ := List.mem_map.1 mem
  exact inside n listed

theorem safe_toFirst (drawn : w.calls.Drawn q) (placed : w.calls.Places x.node) (t : SymState) :
    Safe o (x.toFirst t) w (Following q) := by
  refine .bind (safe_first? drawn placed) fun o w' ⟨_, inside⟩ => .pure fun f mem => ?_
  obtain ⟨n, first, rfl⟩ := Option.map_eq_some_iff.1 (Option.mem_toList.1 mem)
  exact inside n first

theorem safe_afterParameter (h : Ready q w x) (id : LocalId) : Safe o (x.afterParameter us id) w (Following q) := by
  refine .bind (safe_perform _ _) fun t w' ⟨same, _⟩ => ?_
  subst same
  split
  · exact .throw not_false
  next v _ => exact safe_toFirst (w := w.relabel us.length) (x := x.addParameter id v) h.drawn h.placed t

theorem safe_afterBranch (h : Ready q w x) (b : Body) (onTrue onFalse : Term) (target : InstrId) :
    Safe o (x.afterBranch us b onTrue onFalse target) w (Following q) := by
  refine .bind (safe_perform _ _) fun t w' ⟨same, _⟩ => ?_
  subst same
  split
  · exact safe_toAll (w := w.relabel us.length) h.drawn h.placed t
  · refine .bind (safe_successors (q := q) h.drawn h.placed) fun ns w' ⟨_, inside⟩ => .pure fun f mem => ?_
    obtain ⟨n, listed, rfl⟩ := List.mem_map.1 mem
    exact inside n listed

theorem safe_toCase {n : Node} (inside : q.HasInstruction n) (t : SymState) (cases' : List (Term × InstrId)) :
    Safe o (x.toCase t cases' n) w fun _ f => q.HasInstruction f.node := by
  unfold toCase
  split
  · exact .throw not_false
  · exact .bind (P := fun _ _ => True) trivial fun l w' _ => .pure inside

theorem safe_afterSwitch (h : Ready q w x) (cases' : List (Term × InstrId)) :
    Safe o (x.afterSwitch us cases') w (Following q) := by
  refine .bind (safe_perform _ _) fun t w' ⟨same, _⟩ => ?_
  subst same
  refine .bind (safe_successors (q := q) h.drawn h.placed) fun ns w' ⟨_, inside⟩ => ?_
  exact .mapM fun n mem w'' => safe_toCase (inside n mem) t cases'

theorem safe_skipCall (h : Ready q w x) (result : Option LocalId) :
    Safe o (x.skipCall us result) w (Following q) := by
  refine .bind (safe_gather (P := fun _ _ => True) ?_ h.names.symbolic) ?_
  · cases result with
    | none => exact accounted_unknownResult none
    | some id => exact accounted_unknownResult (some id)
  · rintro ⟨_, more⟩ w' ⟨c, rfl, -⟩
    refine .bind (safe_perform _ _) ?_
    rintro t w' ⟨rfl, -⟩
    exact safe_toFirst (w := (w.withContext c).relabel (us ++ more).length) h.drawn h.placed t

theorem safe_enterCall (h : Ready q w x) (callee : Method) {arguments : List SymValue}
    (values : ∀ v ∈ arguments, v.term.Over w.context.Accounts) (result : Option LocalId) :
    Safe o (x.enterCall q us callee arguments result) w (Following q) := by
  refine .bind (safe_onCalls Instances.safe_enter) fun entry w₁ ⟨inside, context⟩ => ?_
  refine .bind (.lift (P := fun w' _ => w' = w₁) (fun _ _ => rfl) fun _ => Instances.body_external) fun b w₂ same => ?_
  subst same
  have names : x.symbolic.Over w₂.context.Accounts := context ▸ h.names.symbolic
  have bind := accounted_bindParameters (c := w₂.context) (b.parameters callee) (context ▸ values)
  refine .bind (safe_gather bind names) fun ⟨bindings, more⟩ w₃ _ => ?_
  refine .bind (safe_perform _ _) fun t w₄ _ => .bind (safe_perform _ _) fun t' w₅ _ => ?_
  exact .pure (List.forall_mem_singleton.2 inside)

theorem safe_returnToCaller (h : Ready q w x) (inner : x.stack.below ≠ []) {v : SymValue}
    (value : v.term.Over w.context.Accounts) : Safe o (x.returnToCaller us v) w (Following q) := by
  obtain ⟨caller, top, placed⟩ := h.caller inner
  unfold returnToCaller
  rw [top]
  refine .bind (safe_first? h.drawn placed) fun o w₁ ⟨same, inside⟩ => ?_
  subst same
  cases o with
  | none => exact .pure fun _ mem => nomatch mem
  | some n =>
    refine .bind (safe_perform _ _) fun t w₂ ⟨same, _⟩ => ?_
    subst same
    have relabelled : w₁.context.Before (w₁.relabel us.length).context := .relabel ..
    refine .bind (safe_gather (P := fun _ _ => True) ?_ (h.names.symbolic.later relabelled)) ?_
    · have handed := accounted_handedResult (value.later relabelled) x.stack.top.result
      cases result : x.stack.top.result with
      | none => exact result ▸ handed
      | some id => exact result ▸ handed
    · rintro ⟨_, more⟩ w₃ -
      refine .bind (safe_perform _ _) fun t' w₄ _ => ?_
      exact .pure (List.forall_mem_singleton.2 (inside n rfl))

theorem safe_returnAlongPath (h : Ready q w x) : Safe o (x.returnAlongPath q us) w (Following q) := by
  refine .bind (safe_onCalls Instances.safe_resume) fun site w₁ ⟨inside, context⟩ => ?_
  refine .bind (.lift (P := fun w' _ => w' = w₁) (fun _ _ => rfl) fun _ => Instances.body_external) fun b w₂ same => ?_
  subst same
  have names : x.symbolic.Over w₂.context.Accounts := context ▸ h.names.symbolic
  refine .bind (safe_gather (accounted_resumed site.method b) names) fun ⟨bindings, more⟩ w₃ _ => ?_
  refine .bind (safe_perform _ _) fun t w₄ _ => .bind (safe_perform _ _) fun t' w₅ _ => ?_
  exact .pure (List.forall_mem_singleton.2 inside)

/-- A step from a state that is ready does not lose its way, and only states at instructions follow. -/
theorem next_safe (h : Ready q w x) : Safe o (x.next q limit) w (Following q) := by
  obtain ⟨b, i, body, found⟩ := h.inside
  refine .bind (.lift (P := fun w' b' => w' = w ∧ b' = b) (fun b' body' => ⟨rfl, Except.ok.inj (body'.symm.trans body)⟩)
    fun _ => Instances.body_external) fun b' w' ⟨same, same'⟩ => ?_
  subst same same'
  simp only [found]
  refine .bind (safe_gather (Effect.accounted_ofInstruction _ i) h.names.symbolic)
    fun ⟨e, us⟩ w₁ ⟨c, same, before, effect⟩ => ?_
  subst same
  have h := h.later before
  cases e with
  | goOn =>
    refine .bind (safe_perform _ _) fun t w₂ ⟨same, _⟩ => ?_
    subst same
    exact safe_toAll (w := (w'.withContext c).relabel us.length) h.drawn h.placed t
  | parameter id => exact safe_afterParameter h id
  | branch onTrue onFalse target => exact safe_afterBranch h _ onTrue onFalse target
  | switch cases' => exact safe_afterSwitch h cases'
  | call callee arguments result =>
    dsimp only
    split
    · exact safe_skipCall h result
    · exact safe_enterCall h callee effect result
  | ret v =>
    dsimp only
    split
    · exact safe_returnAlongPath h
    next inner => exact safe_returnToCaller h (by simpa using inner) effect

end ExecState

section Merging

variable {o : Overflow} {c : Context} {lhs rhs : SymState}

theorem Machine.safe_on {α : Type} {s : SymState} {x : Run α} {P : Context → α → Prop}
    (h : Run.Accounted c x P) (names : s.Over c.Accounts) : Safe o (Machine.on s x) c P := by
  have result := h (.start s) c (.refl _) (.start names)
  have run : (Machine.on s x).run.run c =
      (((x.run.run (.start s)).run c).1.1, ((x.run.run (.start s)).run c).2) := rfl
  rw [Safe, run]
  revert result
  rcases (x.run.run (.start s)).run c with ⟨⟨e | a, M⟩, c'⟩
  · exact fun fault => Fault.OfValues.notStray fault
  · exact fun ⟨_, _, ha⟩ => ha

/-- Symbolic states may fail to merge because of the values at hand. -/
theorem SymState.merge_safe (left : lhs.Over c.Accounts) (right : rhs.Over c.Accounts) :
    Safe o (lhs.merge rhs) c fun _ _ => True := by
  have condition (l : Label) {s : SymState} (named : s.Over c.Accounts) : (s.pathCondition l).Over c.Accounts :=
    .join named.constraints
  have label : Safe o freshLabel c fun c' _ => c.Before c' := Context.Before.relabel c _
  refine .bind label fun l c₁ le => ?_
  have locals := accounted_mergeLocals ((condition l left).later le) (left.later le).memory (right.later le).memory
  refine .bind (Machine.safe_on (P := fun _ _ => True) (.bind locals fun _ c₂ _ _ => ?_) (right.later le))
    fun ⟨locals, fresh⟩ c₂ _ => ?_
  · exact .bind Run.Accounted.drain fun _ _ _ _ => .pure fun _ _ => trivial
  · refine .bind (P := fun _ _ => True) ?_ fun fields c₃ _ => trivial
    refine .bind (.mapM (R := fun _ => True) fun k _ c₃ => ?_) fun es c₄ _ => trivial
    refine .bind (P := fun _ _ => True) trivial fun l' c₄ _ => .bind (P := fun _ _ => True) ?_ fun a c₅ _ => trivial
    have array := computes_mergeArray (condition l left) left.memory right.memory l' k
    refine .lift (fun _ _ => trivial) fun f failed => ?_
    rw [failed] at array
    exact Fault.OfValues.notStray array

/-- So may states that are at one node. -/
theorem ExecState.merge_safe {x y : ExecState} (left : x.Over c.Accounts) (right : y.Over c.Accounts)
    (same : x.node = y.node) : Safe o (x.merge y o) c fun _ _ => True := by
  obtain ⟨path, found⟩ := Path.exists_merge? same
  unfold ExecState.merge
  rw [found]
  refine .bind (SymState.merge_safe left.symbolic right.symbolic) fun st c' _ => ?_
  refine .bind (P := fun _ _ => True) (.lift (fun _ _ => trivial) fun f failed => ?_) fun _ _ _ => trivial
  obtain ⟨rfl, -, rfl⟩ := mergeTally_error failed
  exact fun unchecked => nomatch unchecked

end Merging
end SinkReach
