import SinkReach.Proofs.Step.Bindings
import SinkReach.Proofs.Step.Following

/-!
What one step of execution can do. It stays in its instance and moves along an edge, enters a new instance
of a callee, leaves the innermost call to behind its site, or, from the outermost frame, resumes in a new
instance of a caller that the taint path names. Each case says what becomes of the stack, as far as
returns depend on it, and of the locals.
-/
namespace SinkReach

/-- Where a frame returns to, and which local takes the result. -/
abbrev Site := Option Node × Option LocalId

def Frame.site (f : Frame) : Site := (f.caller, f.result)

namespace Instances

variable {s : Instances ExecState} {n k : Node} {ns : List Node}

theorem count_withNew (m : Method) (g : Digraph) : (s.withNew m g).count = s.count + 1 := List.length_append

/-- Successors of a node are in its instance. -/
theorem eq_withInstr_of_mem (found : s.successors n = .ok ns) (mem : k ∈ ns) : k = n.withInstr k.instr := by
  obtain ⟨i, -, rest⟩ := except_bind_ok.1 found
  cases rest
  obtain ⟨j, -, rfl⟩ := List.mem_map.1 mem
  rfl

theorem eq_withInstr_of_first? (found : s.first? n = .ok (some k)) : k = n.withInstr k.instr := by
  obtain ⟨ns, successors, head⟩ := first?_ok found
  exact eq_withInstr_of_mem successors (List.mem_of_mem_head? head.symm)

end Instances

namespace Stack

/-- Return sites, the innermost first. -/
def sites (s : Stack) : List Site := (s.top :: s.below).map Frame.site

theorem sites_root : sites root = [(none, none)] := rfl

theorem sites_push (s : Stack) (caller : Node) (result : Option LocalId) :
    (s.push (.ofCall caller result)).sites = (some caller, result) :: s.sites := rfl

theorem sites_pop {s : Stack} (inner : s.below ≠ []) : s.sites = s.top.site :: s.pop.sites := by
  obtain ⟨f, below, split⟩ := List.exists_cons_of_ne_nil inner
  simp only [sites, pop, split, List.map_cons]

theorem length_sites (s : Stack) : s.sites.length = s.depth := List.length_map _

theorem map_site_toList (s : Stack) : s.toList.map Frame.site = s.sites.reverse := by
  simp only [toList, sites, List.map_append, List.map_reverse, List.map_cons, List.map_nil, List.reverse_cons]

end Stack

namespace ExecState

/-- Value of a local. -/
def local? (x : ExecState) (id : LocalId) : Option SymValue := x.symbolic.memory.local? id

/-- Methods that the state is in: the one of its node, and those of the call sites on its stack. -/
def active (x : ExecState) : List Method :=
  x.node.method :: (x.stack.sites.filterMap (·.1)).map (·.method)

/-- The value that the instruction at the node returns. -/
def Returns (q : Query) (w : World) (x : ExecState) (v : SymValue) : Prop :=
  ∃ b i M c, q.body x.node.method = .ok b ∧ b.instruction? x.node.instr = some i ∧
    (Effect.ofInstruction x.node.method i).Yields (.start x.symbolic) w.context (.ret v) M c

/-- The value, as a location of a type takes it in this state. -/
def Converts (x : ExecState) (v : SymValue) (ty : Ty) (v' : SymValue) : Prop :=
  ∃ c M c', (Machine.declaredAs v ty).Yields (.start x.symbolic) c v' M c'

/-- The state goes on along an edge of its instance, with its own locals changed at most. -/
structure GoesTo (calls : Instances ExecState) (x f : ExecState) : Prop where
  edge : ∃ ns, calls.successors x.node = .ok ns ∧ f.node ∈ ns
  sites : f.stack.sites = x.stack.sites
  locals : ∀ id, id.method ≠ x.node.method → f.local? id = x.local? id

/-- The locals of the method that is left are dropped, and the result is handed over. -/
structure HandsBack (q : Query) (w : World) (x z : ExecState) : Prop where
  locals : ∀ id, x.stack.top.result ≠ some id →
    z.local? id = if id.method = x.node.method then none else x.local? id
  result : ∃ v, x.Returns q w v ∧
    ∀ id, x.stack.top.result = some id → ∃ v', x.Converts v id.ty v' ∧ z.local? id = some v'

end ExecState

/-- What a step does to the instances, the stack and the locals. -/
inductive Transition (q : Query) (w w' : World) (x : ExecState) : List ExecState → Prop
  | stays {fs : List ExecState} : w'.calls = w.calls → (∀ f ∈ fs, x.GoesTo w.calls f) →
    Transition q w w' x fs
  | enters {m : Method} {g : Digraph} {result : Option LocalId} {f : ExecState} : q.graph m = .ok g →
    w'.calls = w.calls.withNew m g → f.node = ⟨w.calls.count, m, Body.entry⟩ →
    f.stack = x.stack.push (.ofCall x.node result) → (∀ id ∈ result, id.method = x.node.method) →
    (∀ id, id.method ≠ m → f.local? id = x.local? id) → Transition q w w' x [f]
  | leaves {caller : Node} {z : ExecState} : w'.calls = w.calls → x.stack.below ≠ [] →
    x.stack.top.caller = some caller → w.calls.first? caller = .ok (some z.node) →
    z.stack = x.stack.pop → x.HandsBack q w z → Transition q w w' x [z]
  | resumes {i : InstrId} {m : Method} {g : Digraph} {f : ExecState} : x.stack.below = [] →
    (∃ v, x.Returns q w v) → Instances.returnSite q x.node = .ok (i, m) → q.graph m = .ok g →
    w'.calls = w.calls.withNew m g → f.node = ⟨w.calls.count, m, i⟩ → f.stack = .root →
    Transition q w w' x [f]

namespace Transition

variable {q : Query} {w w' : World} {x y : ExecState} {fs : List ExecState}

/-- A step makes an instance of a method's graph at most. -/
theorem calls (h : Transition q w w' x fs) :
    w'.calls = w.calls ∨ ∃ m g, q.graph m = .ok g ∧ w'.calls = w.calls.withNew m g := by
  cases h with
  | stays calls => exact .inl calls
  | enters graph calls => exact .inr ⟨_, _, graph, calls⟩
  | leaves calls => exact .inl calls
  | resumes _ _ _ graph calls => exact .inr ⟨_, _, graph, calls⟩

/-- A step keeps nothing new. -/
theorem data? (h : Transition q w w' x fs) {n : Node} (found : w'.calls.data? n = some y) :
    w.calls.data? n = some y := by
  rcases h.calls with same | ⟨m, g, -, new⟩
  · exact same ▸ found
  · exact Instances.data?_withNew g (new ▸ found)

/-- Nodes stay where they are. -/
theorem places (h : Transition q w w' x fs) {n : Node} (placed : w.calls.Places n) : w'.calls.Places n := by
  rcases h.calls with same | ⟨m, g, -, new⟩
  · exact same ▸ placed
  · exact new ▸ placed.withNew m g

theorem drawn (h : Transition q w w' x fs) (drawn : w.calls.Drawn q) : w'.calls.Drawn q := by
  rcases h.calls with same | ⟨m, g, graph, new⟩
  · exact same ▸ drawn
  · exact new ▸ drawn.withNew graph

/-- What follows is at nodes of known instances. -/
theorem placed (h : Transition q w w' x fs) (mem : y ∈ fs) : w'.calls.Places y.node := by
  cases h with
  | stays calls goes =>
    obtain ⟨ns, found, edge⟩ := (goes y mem).edge
    rw [calls]
    exact Instances.places_successors found _ edge
  | enters _ calls node =>
    obtain rfl := List.mem_singleton.1 mem
    rw [calls, node]
    exact Instances.places_new ..
  | leaves calls _ _ first =>
    obtain rfl := List.mem_singleton.1 mem
    rw [calls]
    exact Instances.places_first? first _ rfl
  | resumes _ _ _ _ calls node =>
    obtain rfl := List.mem_singleton.1 mem
    rw [calls, node]
    exact Instances.places_new ..

/-- Only a call makes the stack deeper. -/
theorem of_deeper (h : Transition q w w' x fs) (mem : y ∈ fs) (deeper : x.stack.depth < y.stack.depth) :
    fs = [y] ∧ y.stack = x.stack.push (.ofCall x.node y.stack.top.result) ∧
      ∀ id, id.method ≠ y.node.method → y.local? id = x.local? id := by
  cases h with
  | stays _ goes =>
    rw [← Stack.length_sites, ← Stack.length_sites, (goes y mem).sites] at deeper
    exact absurd deeper (Nat.lt_irrefl _)
  | enters _ _ node stack _ locals =>
    obtain rfl := List.mem_singleton.1 mem
    refine ⟨rfl, by rw [stack]; rfl, fun id other => locals id ?_⟩
    rw [node] at other
    exact other
  | leaves _ inner _ _ stack =>
    obtain rfl := List.mem_singleton.1 mem
    have longer := congrArg List.length (Stack.sites_pop inner)
    rw [List.length_cons, Stack.length_sites, Stack.length_sites, ← stack] at longer
    omega
  | resumes _ _ _ _ _ _ stack =>
    obtain rfl := List.mem_singleton.1 mem
    rw [stack] at deeper
    exact absurd deeper (Nat.not_lt_of_le (Nat.le_add_left ..))

/-- Only a return from a call makes the stack shallower. -/
theorem of_shallower (h : Transition q w w' x fs) (mem : y ∈ fs) (shallower : y.stack.depth < x.stack.depth) :
    ∃ caller i, x.stack.top.caller = some caller ∧ y.node = caller.withInstr i ∧ x.HandsBack q w y := by
  cases h with
  | stays _ goes =>
    rw [← Stack.length_sites, ← Stack.length_sites, (goes y mem).sites] at shallower
    exact absurd shallower (Nat.lt_irrefl _)
  | enters _ _ _ stack =>
    obtain rfl := List.mem_singleton.1 mem
    rw [stack] at shallower
    exact absurd shallower (Nat.not_lt_of_le (Nat.le_succ _))
  | leaves _ _ top first _ hands =>
    obtain rfl := List.mem_singleton.1 mem
    exact ⟨_, _, top, Instances.eq_withInstr_of_first? first, hands⟩
  | resumes outermost _ _ _ _ _ stack =>
    rw [Stack.depth, Stack.depth, outermost] at shallower
    exact absurd shallower (Nat.not_lt_of_le (Nat.le_add_left ..))

end Transition

namespace ExecState

variable {q : Query} {limit : Nat} {w w' : World} {x f : ExecState} {fs : List ExecState} {b : Body}
  {us : List Update} {t : SymState} {n : Node} {ns : List Node} {c : Context}

/-- The local is one of the method that the state is in. -/
def Own (x : ExecState) (id : LocalId) : Prop := id.method = x.node.method

/-- It stays in its instance. -/
theorem GoesTo.node {calls : Instances ExecState} (h : x.GoesTo calls f) :
    f.node.callId = x.node.callId ∧ f.node.method = x.node.method := by
  obtain ⟨ns, found, mem⟩ := h.edge
  rw [Instances.eq_withInstr_of_mem found mem]
  exact ⟨rfl, rfl⟩

theorem GoesTo.advance {calls : Instances ExecState} (found : calls.successors x.node = .ok ns) (mem : n ∈ ns)
    (locals : ∀ id, ¬ x.Own id → t.memory.local? id = x.local? id) : x.GoesTo calls (x.advance n t) :=
  ⟨⟨ns, found, mem⟩, rfl, locals⟩

theorem GoesTo.first {calls : Instances ExecState} {o : Option Node} (found : calls.first? x.node = .ok o)
    (locals : ∀ id, ¬ x.Own id → t.memory.local? id = x.local? id) :
    ∀ f ∈ (o.map fun n => x.advance n t).toList, x.GoesTo calls f := by
  intro f mem
  obtain ⟨ns, successors, rfl⟩ := Instances.first?_ok found
  obtain ⟨n, head, rfl⟩ := Option.map_eq_some_iff.1 (Option.mem_toList.1 mem)
  exact .advance successors (List.mem_of_mem_head? head) locals

theorem skip_goesTo {calls : Instances ExecState} {result : Option LocalId} {M : Machine} {c₁ : Context}
    {o : Option Node} (own : Update.BindOnly x.Own us) (local' : ∀ id ∈ result, x.Own id)
    (run : (unknownResult result).Yields (.start x.symbolic) c () M c₁) (found : calls.first? x.node = .ok o)
    (l : Label) : ∀ f ∈ (o.map fun n => x.advance n (x.symbolic.updateAll l (us ++ M.pending))).toList,
      x.GoesTo calls f := by
  have more := (binds_unknownResult local').of_yields run Update.bindOnly_nil
  exact GoesTo.first found fun id other => SymState.local?_updateAll (own.append more) other _ _

/-- A call binds the parameters of its callee, and no other locals. -/
theorem local?_entered {callee : Method} {arguments : List SymValue} {bindings : List (LocalId × SymValue)}
    {M : Machine} {c₁ : Context} (none : Update.BindOnly (fun _ => False) us)
    (run : (bindParameters (b.parameters callee) arguments).Yields (.start x.symbolic) c bindings M c₁)
    {id : LocalId} (other : id.method ≠ callee) (l l' : Label) :
    (((x.symbolic.updateAll l us).withMemory
      ((x.symbolic.updateAll l us).memory.bindAll bindings)).updateAll l' M.pending).memory.local? id =
        x.local? id := by
  have more : Update.BindOnly (fun _ => False) M.pending :=
    (binds_bindParameters _ _).of_yields run Update.bindOnly_nil
  have params : ∀ p ∈ bindings, p.1 ≠ id := by
    intro p mem same
    have listed : p.1 ∈ b.parameters callee := bindParameters_ids run ▸ List.mem_map.2 ⟨p, mem, rfl⟩
    obtain ⟨i, -, declared⟩ := List.mem_filterMap.1 listed
    cases i with
    | identity => exact other (same ▸ (Option.some.inj declared ▸ rfl))
    | _ => cases declared
  refine (SymState.local?_updateAll more not_false _ _).trans ?_
  refine (Memory.local?_bindAll params).trans ?_
  exact SymState.local?_updateAll none not_false _ _

theorem leave_handsBack {v : SymValue} {M : Machine} {c₁ : Context} (none : Update.BindOnly (fun _ => False) us)
    (returns : x.Returns q w v) (run : (handedResult v x.stack.top.result).Yields (.start x.symbolic) c () M c₁)
    (n : Node) (l l' : Label) :
    x.HandsBack q w (x.leave.advance n (((x.symbolic.withMemory
      (x.symbolic.memory.withoutLocalsOf x.node.method)).updateAll l us).updateAll l' M.pending)) := by
  obtain ⟨only, handed⟩ := yields_handedResult run
  refine ⟨fun id other => ?_, v, returns, fun id result => ?_⟩
  · refine (SymState.local?_updateAll only other _ _).trans ?_
    refine (SymState.local?_updateAll none not_false _ _).trans ?_
    exact Memory.local?_withoutLocalsOf ..
  · obtain ⟨v', M₁, declared, pending⟩ := handed id result
    exact ⟨v', ⟨_, M₁, _, declared⟩, by rw [pending]; exact SymState.local?_updateAll_bind ..⟩

/-- Whatever a step does, it is one of the four. -/
theorem next_transition (h : (x.next q limit).run.run w = (.ok fs, w')) : Transition q w w' x fs := by
  obtain ⟨b, i, e, M, c, body, found, run, rest⟩ := next_ok h
  have own : Update.BindOnly x.Own M.pending :=
    (Effect.binds_ofInstruction (fun _ => rfl) i).of_yields run Update.bindOnly_nil
  have updated (l : Label) (id : LocalId) (other : ¬ x.Own id) :
      (x.symbolic.updateAll l M.pending).memory.local? id = x.local? id :=
    SymState.local?_updateAll own other l x.symbolic
  cases proceed_ok rest with
  | goOn successors =>
    refine .stays rfl fun f mem => ?_
    obtain ⟨n, hn, rfl⟩ := List.mem_map.1 mem
    exact .advance successors hn (updated _)
  | parameter _ first =>
    -- What is recorded about the parameter does not count for where the state goes.
    refine .stays rfl fun f mem => ?_
    obtain ⟨ns, successors, rfl⟩ := Instances.first?_ok first
    obtain ⟨n, head, rfl⟩ := Option.map_eq_some_iff.1 (Option.mem_toList.1 mem)
    exact ⟨⟨ns, successors, List.mem_of_mem_head? head⟩, rfl, updated _⟩
  | branch successors =>
    refine .stays rfl fun f mem => ?_
    obtain ⟨n, hn, rfl⟩ := List.mem_map.1 mem
    refine .advance successors hn fun id other => ?_
    split
    · exact updated _ id other
    · exact updated _ id other
  | switch successors after =>
    refine .stays rfl fun f mem => ?_
    obtain ⟨n, hn, l, rfl⟩ := AfterSwitch.mem after mem
    exact .advance successors hn (updated _)
  | skip _ result first =>
    obtain ⟨-, local'⟩ := Effect.yields_call (S := x.Own) run
    exact .stays rfl (skip_goesTo own local' result first _)
  | enter _ enter _ params =>
    obtain ⟨none, local'⟩ := Effect.yields_call run
    obtain ⟨g, graph, rfl, rfl⟩ := Instances.enter_ok enter
    exact .enters graph rfl rfl rfl local' fun id other =>
      local?_entered (none Update.bindOnly_nil) params other _ _
  | resume outermost resume =>
    obtain ⟨i', m, g, site, graph, rfl, rfl⟩ := Instances.resume_ok resume
    exact .resumes outermost ⟨_, b, i, M, c, body, found, run⟩ site graph rfl rfl rfl
  | stop => exact .stays rfl fun _ mem => nomatch mem
  | leave inner top first result =>
    have none : Update.BindOnly (fun _ => False) M.pending := (Effect.yields_ret run).1 Update.bindOnly_nil
    exact .leaves rfl inner top first rfl
      (leave_handsBack none ⟨b, i, M, c, body, found, run⟩ result _ _ _)

end ExecState
end SinkReach
