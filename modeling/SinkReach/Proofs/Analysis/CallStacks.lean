import Mathlib.Data.List.Forall2
import Mathlib.Logic.Function.Basic
import SinkReach.Proofs.Analysis.Moments

/-!
The stack of a call instance. An instance is made by one call or one return along the path, which fixes
where it returns to and which local takes its result; whatever happens later in the instance keeps that.
So all states of an instance have the same return sites, and a merge may keep either stack.
-/
namespace SinkReach

open Relation (ReflTransGen)

variable {σ σ' : CallId → List Site} {c count : CallId}

/-- How the return sites of an instance are made: it is entered at the root, or by a call from an older
instance, whose sites follow. -/
inductive Rooted (σ : CallId → List Site) (c : CallId) : Prop
  | root : σ c = [(none, none)] → Rooted σ c
  | call {n : Node} {result : Option LocalId} : n.callId < c → σ c = (some n, result) :: σ n.callId →
    (∀ id ∈ result, id.method = n.method) → Rooted σ c

theorem Rooted.mono (h : Rooted σ c) (agree : ∀ i < count, σ' i = σ i) (known : c < count) : Rooted σ' c := by
  cases h with
  | root sites => exact .root ((agree c known).trans sites)
  | @call n result older sites own =>
    refine .call older ?_ own
    rw [agree c known, agree _ (Nat.lt_trans older known), sites]

/-- Of the return sites, the outermost and no other is without a caller. -/
theorem Rooted.caller_eq_none_iff (rooted : ∀ c < count, Rooted σ c) (known : c < count) :
    ∀ {i : Nat} {site : Site}, (σ c).reverse[i]? = some site → (site.1 = none ↔ i = 0) := by
  induction c using Nat.strong_induction_on with
  | _ c ih =>
    intro i site found
    cases rooted c known with
    | root sites =>
      rw [sites, List.reverse_singleton] at found
      obtain ⟨lt, rfl⟩ := List.getElem?_eq_some_iff.1 found
      obtain rfl : i = 0 := Nat.lt_one_iff.1 lt
      exact iff_of_true rfl rfl
    | @call n result older sites own =>
      rw [sites, List.reverse_cons] at found
      have some' : (σ n.callId).reverse ≠ [] := by
        intro empty
        cases rooted n.callId (Nat.lt_trans older known) with
        | root sites' => simp [sites'] at empty
        | call _ sites' => simp [sites'] at empty
      rcases Nat.lt_or_ge i (σ n.callId).reverse.length with less | last
      · rw [List.getElem?_append_left less] at found
        exact ih n.callId older (Nat.lt_trans older known) found
      · rw [List.getElem?_append_right last] at found
        obtain ⟨lt, rfl⟩ := List.getElem?_eq_some_iff.1 found
        have positive := List.length_pos_iff.2 some'
        simp only [List.getElem_singleton]
        exact iff_of_false (fun h => nomatch h) (by omega)

namespace Snapshot

variable {t : Task} {m : Method} {p p' : Snapshot} {x y f : ExecState}

/-- The sites of every state held are those of its instance. -/
structure Stacked (σ : CallId → List Site) (p : Snapshot) : Prop where
  held : ∀ x, p.Holds x → x.node.callId < p.calls.count ∧ x.stack.sites = σ x.node.callId
  rooted : ∀ c < p.calls.count, Rooted σ c

theorem Stacked.start {s : Search} (h : Search.start t m = .ok s) :
    Stacked (fun _ => [(none, none)]) (start s) := by
  obtain ⟨placed, only⟩ := Search.start_kept h
  refine ⟨fun x hx => ?_, fun _ _ => .root rfl⟩
  rcases hx with mem | ⟨n, data⟩
  · cases mem
  · obtain ⟨-, rfl⟩ := only n x data
    exact ⟨placed.lt, rfl⟩

/-- One state follows in a new instance, whose sites are those of the state. -/
theorem Stacked.extend (h : Stacked σ p) (one : p'.calls.count = p.calls.count + 1)
    (node : f.node.callId = p.calls.count)
    (rooted : Rooted (Function.update σ p.calls.count f.stack.sites) p.calls.count)
    (holds : ∀ u, p'.Holds u → p.Holds u ∨ u = f) :
    Stacked (Function.update σ p.calls.count f.stack.sites) p' := by
  have agree : ∀ c < p.calls.count, Function.update σ p.calls.count f.stack.sites c = σ c :=
    fun c known => Function.update_of_ne (Nat.ne_of_lt known) _ _
  refine ⟨fun u hu => ?_, fun c known => ?_⟩
  · rw [one]
    rcases holds u hu with old | rfl
    · obtain ⟨known, sites⟩ := h.held u old
      exact ⟨Nat.lt_succ_of_lt known, sites.trans (agree _ known).symm⟩
    · rw [node, Function.update_self]
      exact ⟨Nat.lt_succ_self _, rfl⟩
  · rw [one] at known
    rcases Nat.lt_succ_iff_lt_or_eq.1 known with old | rfl
    · exact (h.rooted c old).mono agree old
    · exact rooted

/-- No instance is made, and what is new has the sites of its instance. -/
theorem Stacked.same (h : Stacked σ p) (count : p'.calls.count = p.calls.count)
    (holds : ∀ u, p'.Holds u → p.Holds u ∨ u.node.callId < p.calls.count ∧ u.stack.sites = σ u.node.callId) :
    Stacked σ p' := by
  refine ⟨fun u hu => ?_, count ▸ h.rooted⟩
  rw [count]
  rcases holds u hu with old | new
  · exact h.held u old
  · exact new

/-- A return leads into an instance whose sites are those below the frame that is left. -/
theorem Stacked.behind (h : Stacked σ p) (hx : p.Holds x) {caller : Node} (inner : x.stack.below ≠ [])
    (top : x.stack.top.caller = some caller) (first : p.calls.first? caller = .ok (some y.node))
    (stack : y.stack = x.stack.pop) :
    y.node.callId < p.calls.count ∧ y.stack.sites = σ y.node.callId := by
  obtain ⟨known, sites⟩ := h.held x hx
  have node : y.node.callId = caller.callId := by
    rw [Instances.eq_withInstr_of_first? first]
    rfl
  have popped := Stack.sites_pop inner
  rw [sites] at popped
  rw [node, stack]
  cases h.rooted _ known with
  | root only =>
    -- A root has one site, and the frame that is left is not the outermost.
    rw [only] at popped
    have short := congrArg List.length popped
    rw [List.length_singleton, List.length_cons, Stack.length_sites, Stack.depth] at short
    omega
  | call older called _ =>
    rw [called] at popped
    injection popped with site rest
    cases (congrArg Prod.fst site).trans top
    exact ⟨Nat.lt_trans older known, rest.symm⟩

/-- A move leaves the sites of the known instances as they are. -/
theorem Stacked.moves (h : Stacked σ p) (moves : Moves t p p') :
    ∃ σ', Stacked σ' p' ∧ ∀ c < p.calls.count, σ' c = σ c := by
  cases moves.change with
  | settles _ count _ _ holds =>
    refine ⟨σ, h.same count fun u hu => (holds u hu).imp_right ?_, fun _ _ => rfl⟩
    rintro ⟨x, y, c, c', hx, -, merge⟩
    obtain ⟨-, node, -, stack⟩ := ExecState.merge_ok merge
    rw [node, stack]
    exact h.held x hx
  | @expands n x _ data _ _ transition _ holds =>
    have hx : p.Holds x := .inr ⟨n, data⟩
    obtain ⟨known, sites⟩ := h.held x hx
    have agree (more : List Site) : ∀ c < p.calls.count, Function.update σ p.calls.count more c = σ c :=
      fun c known => Function.update_of_ne (Nat.ne_of_lt known) _ _
    generalize p'.pending = fs at transition holds
    cases transition with
    | stays calls goes =>
      refine ⟨σ, h.same (congrArg Instances.count calls) fun u hu => (holds u hu).imp_right fun mem => ?_,
        fun _ _ => rfl⟩
      rw [(goes u mem).node.1, (goes u mem).sites]
      exact ⟨known, sites⟩
    | leaves calls inner top first stack =>
      refine ⟨σ, h.same (congrArg Instances.count calls) fun u hu => (holds u hu).imp_right fun mem => ?_,
        fun _ _ => rfl⟩
      obtain rfl := List.mem_singleton.1 mem
      exact h.behind hx inner top first stack
    | @enters callee g result f graph calls node stack own _ =>
      have one : p'.calls.count = p.calls.count + 1 :=
        (congrArg Instances.count calls).trans (Instances.count_withNew callee g)
      refine ⟨_, h.extend one (by rw [node]; rfl) ?_ fun u hu => (holds u hu).imp_right List.mem_singleton.1,
        agree _⟩
      refine .call known ?_ own
      rw [Function.update_self, agree _ _ known, stack, Stack.sites_push, sites]
    | @resumes i m' g f _ _ _ graph calls node stack =>
      have one : p'.calls.count = p.calls.count + 1 :=
        (congrArg Instances.count calls).trans (Instances.count_withNew m' g)
      refine ⟨_, h.extend one (by rw [node]; rfl) (.root ?_) fun u hu =>
        (holds u hu).imp_right List.mem_singleton.1, agree _⟩
      rw [Function.update_self, stack, Stack.sites_root]

theorem Moves.count_le (moves : Moves t p p') : p.calls.count ≤ p'.calls.count := by
  cases moves.change with
  | settles _ count => exact Nat.le_of_eq count.symm
  | expands _ _ _ _ transition =>
    rcases transition.calls with same | ⟨m, g, -, new⟩
    · exact Nat.le_of_eq (congrArg Instances.count same.symm)
    · have one : p'.calls.count = p.calls.count + 1 :=
        (congrArg Instances.count new).trans (Instances.count_withNew m g)
      omega

/-- So do any number of moves. -/
theorem Stacked.reaches (h : Stacked σ p) (moves : ReflTransGen (Moves t) p p') :
    ∃ σ', Stacked σ' p' ∧ (∀ c < p.calls.count, σ' c = σ c) ∧ p.calls.count ≤ p'.calls.count := by
  induction moves with
  | refl => exact ⟨σ, h, fun _ _ => rfl, Nat.le_refl _⟩
  | tail _ move ih =>
    obtain ⟨σ₁, stacked, agree, count⟩ := ih
    obtain ⟨σ₂, stacked', agree'⟩ := stacked.moves move
    refine ⟨σ₂, stacked', fun c known => ?_, Nat.le_trans count move.count_le⟩
    exact (agree' c (Nat.lt_of_lt_of_le known count)).trans (agree c known)

theorem IsMoment.stacked (h : p.IsMoment t m) : ∃ σ, Stacked σ p := by
  refine h.invariant (I := fun p => ∃ σ, Stacked σ p) (fun s started => ⟨_, .start started⟩) ?_
  rintro p p' ⟨σ, stacked⟩ moves
  obtain ⟨σ', stacked', -⟩ := stacked.moves moves
  exact ⟨σ', stacked'⟩

/-- States of one instance have the same sites, at whatever moments they are held. -/
theorem IsMoment.sites_eq (h : p.IsMoment t m) (h' : p'.IsMoment t m) (hx : p.Holds x) (hy : p'.Holds y)
    (same : x.node.callId = y.node.callId) : x.stack.sites = y.stack.sites := by
  have later : ∀ {p p' : Snapshot} {x y : ExecState}, p.IsMoment t m → ReflTransGen (Moves t) p p' →
      p.Holds x → p'.Holds y → x.node.callId = y.node.callId → x.stack.sites = y.stack.sites := by
    intro p p' x y h moves hx hy same
    obtain ⟨σ, stacked⟩ := h.stacked
    obtain ⟨σ', stacked', agree, -⟩ := stacked.reaches moves
    obtain ⟨known, sites⟩ := stacked.held x hx
    obtain ⟨-, sites'⟩ := stacked'.held y hy
    rw [sites, sites', ← same, agree _ known]
  rcases h.total h' with moves | moves
  · exact later h moves hx hy same
  · exact (later h' moves hy hx same.symm).symm

/-- Frames that return to the same place with the same local for the result. -/
def SameSite (f g : Frame) : Prop := f.caller = g.caller ∧ f.result = g.result

theorem forall₂_sameSite {s s' : Stack} (h : s.sites = s'.sites) :
    List.Forall₂ SameSite s.toList s'.toList := by
  have sites : s.toList.map Frame.site = s'.toList.map Frame.site := by
    rw [Stack.map_site_toList, Stack.map_site_toList, h]
  have paired : List.Forall₂ (fun f g => f.site = g.site) s.toList s'.toList := by
    rw [← List.forall₂_eq_eq_eq, List.forall₂_map_left_iff, List.forall₂_map_right_iff] at sites
    exact sites
  exact paired.imp fun f g site => Prod.mk.inj site

/-- The call instance determines the stack: whenever two states of one instance are held, their stacks
agree frame by frame on where they return to and on the local that takes the result, the outermost frame
alone has no caller, and a merge of the two returns where both would have. -/
theorem stacks_agree (h : p.IsMoment t m) (h' : p'.IsMoment t m) (hx : p.Holds x) (hy : p'.Holds y)
    (same : x.node.callId = y.node.callId) :
    List.Forall₂ SameSite x.stack.toList y.stack.toList ∧
      (∀ i f, x.stack.toList[i]? = some f → (f.caller = none ↔ i = 0)) ∧
      ∀ r o c c', (x.merge y o).run.run c = (.ok r, c') → List.Forall₂ SameSite r.stack.toList y.stack.toList := by
  have sites := h.sites_eq h' hx hy same
  refine ⟨forall₂_sameSite sites, fun i f found => ?_, fun r o c c' merge => ?_⟩
  · obtain ⟨σ, stacked⟩ := h.stacked
    obtain ⟨known, own⟩ := stacked.held x hx
    have site : (σ x.node.callId).reverse[i]? = some f.site := by
      rw [← own, ← Stack.map_site_toList, List.getElem?_map, found]
      rfl
    exact Rooted.caller_eq_none_iff stacked.rooted known site
  · obtain ⟨-, -, -, stack⟩ := ExecState.merge_ok merge
    rw [stack]
    exact forall₂_sameSite sites

section Picking

def calling : Method := ⟨"A", "run", [.int], .void⟩

def picking : Method := ⟨"A", "pick", [.int], .int⟩

def callingBody : Body where
  method := calling
  locals := [⟨"p", .int⟩, ⟨"y", .byte⟩]
  instructions := [
    .identity ⟨"p", .int⟩ (.parameter 0),
    .assign (.loc ⟨"y", .byte⟩) (.invoke ⟨.static, picking, none, [.loc ⟨"p", .int⟩]⟩),
    .throw (.loc ⟨"p", .int⟩)]
  successors := [[1], [2], []]
  nonempty := List.cons_ne_nil _ _
  successors_length := rfl
  edges_lt := show ∀ i ∈ [1, 2], i < 3 by decide

/-- Two ways join before the return. -/
def pickingBody : Body where
  method := picking
  locals := [⟨"q", .int⟩, ⟨"r", .int⟩]
  instructions := [
    .identity ⟨"q", .int⟩ (.parameter 0),
    .assign (.loc ⟨"r", .int⟩) (.use (.const (.int 0))),
    .branch (.binary .gt (.loc ⟨"q", .int⟩) (.const (.int 0)) .boolean) 4,
    .assign (.loc ⟨"r", .int⟩) (.use (.const (.int 1))),
    .ret (.loc ⟨"r", .int⟩)]
  successors := [[1], [2], [3, 4], [4], []]
  nonempty := List.cons_ne_nil _ _
  successors_length := rfl
  edges_lt := show ∀ i ∈ [1, 2, 3, 4, 4], i < 5 by decide

def callingTask : Task where
  query := {
    program := .ofBodies [callingBody, pickingBody] []
    path := ⟨[⟨.sink, ⟨"A", "end", [], .void⟩, 0, none, none⟩], by decide⟩ }
  limit := 1
  witness := false
  solver := ⟨"lightweight", fun constraints => .ok (ModelSearch.check 100 constraints)⟩

/-- Whether the state to be received after a number of moves passes a test. -/
def receivesAfter (t : Task) (m : Method) (k : Nat) (test : ExecState → Bool) : Bool :=
  (nth? t m k).any fun p => p.pending.head?.any test

theorem exists_received {k : Nat} {test : ExecState → Bool} (h : receivesAfter t m k test = true) :
    ∃ p x, nth? t m k = some p ∧ x ∈ p.pending ∧ test x = true := by
  obtain ⟨p, after, tested⟩ := (Option.any_eq_true ..).1 h
  obtain ⟨x, head, tested⟩ := (Option.any_eq_true ..).1 tested
  exact ⟨p, x, after, List.mem_of_mem_head? head, tested⟩

/-- The state that enters the call and, later, the one that arrives where the two ways join. -/
theorem stacks_agree_picking : ∃ (p p' : Snapshot) (x y : ExecState),
    p.IsMoment callingTask calling ∧ p'.IsMoment callingTask calling ∧ p.Holds x ∧ p'.Holds y ∧
    x.node = ⟨1, picking, 0⟩ ∧ y.node = ⟨1, picking, 4⟩ ∧
    List.Forall₂ SameSite x.stack.toList y.stack.toList ∧
    (∀ i f, x.stack.toList[i]? = some f → (f.caller = none ↔ i = 0)) := by
  have enters : receivesAfter callingTask calling 3 (fun x => x.node = ⟨1, picking, 0⟩) = true := by
    decide +kernel
  have joins : receivesAfter callingTask calling 12 (fun x => x.node = ⟨1, picking, 4⟩) = true := by
    decide +kernel
  obtain ⟨p, x, after, mem, node⟩ := exists_received enters
  obtain ⟨p', y, after', mem', node'⟩ := exists_received joins
  have node := of_decide_eq_true node
  have node' := of_decide_eq_true node'
  have moment := isMoment_of_nth? after
  have moment' := isMoment_of_nth? after'
  have same : x.node.callId = y.node.callId := by rw [node, node']
  obtain ⟨frames, outermost, -⟩ := stacks_agree moment moment' (.inl mem) (.inl mem') same
  exact ⟨p, p', x, y, moment, moment', .inl mem, .inl mem', node, node', frames, outermost⟩

end Picking
end Snapshot
end SinkReach
