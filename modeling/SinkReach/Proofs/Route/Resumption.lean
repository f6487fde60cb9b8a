import SinkReach.Proofs.Route.DepthFirst
import SinkReach.Proofs.Route.Instances
import SinkReach.Proofs.Route.KeyOrder

/-!
Starting in the middle of a pruned graph, as a return does that resumes in a caller. The leg to the first
key goes over the vertices which it admits in the very order of the search that ranked them, so an edge that
goes up in rank is judged when the walk is done with its end. From every vertex that the entry reaches, a
path on which ranks go up to the first key is kept therefore, and so are those from key to key.
-/
namespace SinkReach.Digraph

variable {g : Digraph} {rank? : Nat → Option Nat} {vs : List Nat} {bound fuel key u v x y : Nat} {s s' : Search}
  {w w' : Walk}

section Mirroring

/-- The vertices that a leg to a key of the given rank may enter. -/
abbrev upTo (rank? : Nat → Option Nat) (bound : Nat) : Nat → Bool := fun v => (rank? v).any (· ≤ bound)

/-- Ranks go up from each vertex of the list to those behind it, and to no others. -/
def RankedBy (rank? : Nat → Option Nat) (vs : List Nat) : Prop :=
  ∀ u rest, u :: rest <:+ vs → ∀ x, Ascends rank? u x ↔ x ∈ rest

/-- If the vertex climbs to the key it is known to lead there, and so are its edges that do. -/
structure Walk.Climbed (g : Digraph) (rank? : Nat → Option Nat) (key : Nat) (w : Walk) (x : Nat) : Prop where
  leads : g.Climbs rank? x key → x ∈ w.leading
  kept : ∀ y, g.Edge x y → Ascends rank? x y → g.Climbs rank? y key → w.kept.Edge x y

theorem Walk.Extends.climbed {admissible : Nat → Bool} (h : w.Extends g admissible u w')
    (climbed : w.Climbed g rank? key x) : w'.Climbed g rank? key x :=
  ⟨fun climb => h.leading (climbed.leads climb), fun y edge up climb => h.kept x y (climbed.kept y edge up climb)⟩

/-- Up to the rank of the key, the walk has entered what the search has met, and is done with what the
search has finished. -/
structure Walk.Mirrors (g : Digraph) (rank? : Nat → Option Nat) (key : Nat) (s : Search) (w : Walk) : Prop where
  entered : ∀ x, AtMost rank? x key → (x ∈ s.seen ↔ x ∈ w.visited)
  climbed : ∀ x ∈ s.finished, AtMost rank? x key → w.Climbed g rank? key x

/-- A search from a vertex above the key meets nothing that the walk may enter. -/
theorem Walk.Mirrors.barred (h : w.Mirrors g rank? key s) (ranked : RankedBy rank? vs) (orderly : s.Orderly)
    (above : ¬ AtMost rank? v key) (order : (g.explore fuel v s).finished <:+ vs) :
    w.Mirrors g rank? key (g.explore fuel v s) := by
  have grown := explore_grows g fuel v orderly
  have met : ∀ x ∈ (g.explore fuel v s).seen, AtMost rank? x key → x ∈ s.seen := by
    intro x mem low
    by_contra new
    have finished := grown.finished mem new
    cases fuel with
    | zero => exact new mem
    | succ fuel =>
      by_cases seen : v ∈ s.seen
      · rw [explore_of_seen seen] at mem
        exact new mem
      rw [explore_succ seen] at finished order
      rcases List.mem_cons.1 finished with rfl | mem
      · exact above low
      · exact above ((AtMost.of_ascends ((ranked _ _ order x).2 mem)).trans low)
  refine ⟨fun x low => ?_, fun x finished low => h.climbed x ?_ low⟩
  · rw [← h.entered x low]
    exact ⟨fun mem => met x mem low, fun mem => grown.met mem⟩
  · by_contra unfinished
    have wasOpen : s.Open x := ⟨met x (grown.orderly.met x finished) low, unfinished⟩
    exact ((grown.opened x).2 wasOpen).2 finished

/-- What a walk starts with as the search starts from the same vertex. -/
structure Walk.InStep (g : Digraph) (rank? : Nat → Option Nat) (key fuel : Nat) (s : Search) (w : Walk) : Prop where
  orderly : s.Orderly
  mirrors : w.Mirrors g rank? key s
  sound : w.Sound
  lead : key ∈ w.leading
  enough : g.unmet s.seen < fuel

/-- With that fuel every walk mirrors the search that starts in step with it. -/
def WalksMirror (g : Digraph) (rank? : Nat → Option Nat) (vs : List Nat) (key bound fuel : Nat) : Prop :=
  ∀ (v : Nat) (s : Search) (w : Walk), v ∈ g.vertices → v ∉ s.seen → AtMost rank? v key →
    w.InStep g rank? key fuel s → (g.explore fuel v s).finished <:+ vs →
    (g.walk (upTo rank? bound) fuel v (w.visit v)).Mirrors g rank? key (g.explore fuel v s)

theorem enter_mirrors (sub : g.WalksMirror rank? vs key bound fuel) (known : v ∈ g.vertices)
    (low : AtMost rank? v key) (inStep : w.InStep g rank? key fuel s)
    (order : (g.explore fuel v s).finished <:+ vs) :
    (g.enter (upTo rank? bound) fuel v w).Mirrors g rank? key (g.explore fuel v s) := by
  unfold enter
  by_cases seen : v ∈ s.seen
  · rw [explore_of_seen seen, if_pos (List.contains_iff_mem.2 ((inStep.mirrors.entered v low).1 seen))]
    exact inStep.mirrors
  · rw [if_neg fun old => seen ((inStep.mirrors.entered v low).2 (List.contains_iff_mem.1 old))]
    exact sub v s w known seen low inStep order

theorem Climbs.isSome (climb : g.Climbs rank? v key) (hb : rank? key = some bound) : (rank? v).isSome = true := by
  rcases Relation.ReflTransGen.cases_head climb with rfl | ⟨z, ⟨-, i, j, hi, -, -⟩, -⟩
  · rw [hb, Option.isSome_some]
  · rw [hi, Option.isSome_some]

/-- After an edge was crossed in both, they are in step again, and the edge was kept if it climbs. -/
theorem cross_inStep (closed : g.Closed) (hb : rank? key = some bound) (ranked : RankedBy rank? vs)
    (sub : g.WalksMirror rank? vs key bound fuel) (edge : g.Edge u v) (inStep : w.InStep g rank? key fuel s)
    (order : (g.explore fuel v s).finished <:+ vs) :
    (g.cross (upTo rank? bound) fuel u w v).InStep g rank? key fuel (g.explore fuel v s) ∧
      (v ∈ (g.explore fuel v s).finished → g.Climbs rank? v key →
        (g.cross (upTo rank? bound) fuel u w v).kept.Edge u v) := by
  have grown := explore_grows g fuel v inStep.orderly
  have extended := cross_extends (walk_extends g (upTo rank? bound) fuel) edge w
  have enough := Nat.lt_of_le_of_lt (unmet_antitone grown.met) inStep.enough
  suffices mirrors : (g.cross (upTo rank? bound) fuel u w v).Mirrors g rank? key (g.explore fuel v s) ∧
      (v ∈ (g.explore fuel v s).finished → g.Climbs rank? v key →
      (g.cross (upTo rank? bound) fuel u w v).kept.Edge u v) from
    ⟨⟨grown.orderly, mirrors.1, extended.sound inStep.sound, extended.leading inStep.lead, enough⟩, mirrors.2⟩
  rw [cross_eq]
  by_cases low : AtMost rank? v key
  · rw [if_pos ((any_le_iff hb).2 low)]
    have entered := enter_mirrors sub (mem_vertices_of_edge closed edge) low inStep order
    have judging : Walk.Extends g (upTo rank? bound) u (g.enter (upTo rank? bound) fuel v w)
        (judged u v (g.enter (upTo rank? bound) fuel v w)) := .judge_met edge
    refine ⟨⟨fun x low => ?_, fun x finished low => judging.climbed (entered.climbed x finished low)⟩,
      fun finished climb => ?_⟩
    · rw [judged_visited]
      exact entered.entered x low
    · have leads := (entered.climbed v finished low).leads climb
      rw [judged, if_pos (List.contains_iff_mem.2 leads)]
      exact Walk.keep_edge.2 (.inr ⟨rfl, rfl⟩)
  · rw [if_neg (mt (any_le_iff hb).1 low)]
    refine ⟨inStep.mirrors.barred ranked inStep.orderly low order, fun finished climb => ?_⟩
    exact absurd (climb.atMost (climb.isSome hb)) low

theorem crossAll_inStep (closed : g.Closed) (hb : rank? key = some bound) (ranked : RankedBy rank? vs)
    (sub : g.WalksMirror rank? vs key bound fuel) {vs' : List Nat} (edges : ∀ v ∈ vs', g.Edge u v)
    (inStep : w.InStep g rank? key fuel s)
    (order : u :: (vs'.foldl (fun s v => g.explore fuel v s) s).finished <:+ vs) :
    (vs'.foldl (g.cross (upTo rank? bound) fuel u) w).InStep g rank? key fuel
        (vs'.foldl (fun s v => g.explore fuel v s) s) ∧
      ∀ v ∈ vs', Ascends rank? u v → g.Climbs rank? v key →
        (vs'.foldl (g.cross (upTo rank? bound) fuel u) w).kept.Edge u v := by
  induction vs' generalizing s w with
  | nil => exact ⟨inStep, fun _ mem => nomatch mem⟩
  | cons v vs' ih =>
    obtain ⟨edge, edges⟩ := List.forall_mem_cons.1 edges
    have first := explore_grows g fuel v inStep.orderly
    have rest := exploreAll_grows (fun w s => explore_grows g fuel w) edges first.orderly
    have extended := crossAll_extends (walk_extends g (upTo rank? bound) fuel) edges
      (g.cross (upTo rank? bound) fuel u w v)
    have before : (g.explore fuel v s).finished <:+ vs :=
      rest.later.trans ((List.suffix_cons u _).trans order)
    obtain ⟨inStep', crossed⟩ := cross_inStep closed hb ranked sub edge inStep before
    obtain ⟨ended, others⟩ := ih edges inStep' order
    refine ⟨ended, List.forall_mem_cons.2 ⟨fun up climb => extended.kept u v (crossed ?_ climb), others⟩⟩
    -- What ranks above a vertex is finished when the search is back at it, so it was not left open.
    have finished : v ∈ (vs'.foldl (fun s v => g.explore fuel v s) (g.explore fuel v s)).finished :=
      (ranked _ _ order v).1 up
    have seen : v ∈ (g.explore fuel v s).seen :=
      (explore_meets closed inStep.orderly (mem_vertices_of_edge closed edge) inStep.enough).1
    by_contra unfinished
    exact ((rest.opened v).2 ⟨seen, unfinished⟩).2 finished

/-- A walk from a vertex mirrors the search from there. -/
theorem walk_mirrors (closed : g.Closed) (hb : rank? key = some bound) (ranked : RankedBy rank? vs)
    (known : v ∈ g.vertices) (new : v ∉ s.seen) (low : AtMost rank? v key)
    (inStep : w.InStep g rank? key fuel s) (order : (g.explore fuel v s).finished <:+ vs) :
    (g.walk (upTo rank? bound) fuel v (w.visit v)).Mirrors g rank? key (g.explore fuel v s) := by
  induction fuel generalizing v s w with
  | zero => cases inStep.enough
  | succ fuel ih =>
    rw [explore_succ new] at order ⊢
    rw [walk_succ]
    have met : (w.visit v).Mirrors g rank? key { s with seen := v :: s.seen } := by
      refine ⟨fun x low => ?_, fun x finished low =>
        ⟨(inStep.mirrors.climbed x finished low).leads, (inStep.mirrors.climbed x finished low).kept⟩⟩
      show x ∈ v :: s.seen ↔ x ∈ v :: w.visited
      rw [List.mem_cons, List.mem_cons, inStep.mirrors.entered x low]
    have started : (w.visit v).InStep g rank? key fuel { s with seen := v :: s.seen } :=
      ⟨inStep.orderly.meet v, met, inStep.sound, inStep.lead,
        Nat.lt_of_lt_of_le (unmet_cons_lt known new) (Nat.lt_succ_iff.1 inStep.enough)⟩
    obtain ⟨ended, kept⟩ := crossAll_inStep closed hb ranked (fun v s w => ih) (fun _ mem => mem) started order
    refine ⟨ended.mirrors.entered, fun x finished low => ?_⟩
    rcases List.mem_cons.1 finished with rfl | finished
    · refine ⟨fun climb => ?_, kept⟩
      -- The vertex leads to the key if it is the key, or if the first edge on the way up was kept.
      rcases Relation.ReflTransGen.cases_head climb with rfl | ⟨z, ⟨edge, up⟩, climb⟩
      · exact ended.lead
      · exact ended.sound x z (kept z edge up climb)
    · exact ended.mirrors.climbed x finished low

end Mirroring

section Tours

variable {entry : Nat} {rest keys : List Nat}

theorem rankedBy_finishing (g : Digraph) (entry : Nat) : RankedBy (g.rank? entry) (g.finishing entry) :=
  fun _ _ suffix _ => ascends_iff_of_suffix (finishing_nodup g entry) suffix

/-- The first leg keeps a path to its key from wherever ranks go up to it. -/
theorem leg_climbs_from (closed : g.Closed) (vertices : g.vertices = entry :: rest)
    (hb : g.rank? entry key = some bound) (there : g.Reaches entry u) (climb : g.Climbs (g.rank? entry) u key) :
    (g.leg (g.rank? entry) bound entry key ⟨[], [], g.edgeless⟩).kept.Reaches u key := by
  have known : entry ∈ g.vertices := vertices ▸ List.mem_cons_self
  have low : AtMost (g.rank? entry) entry key := by
    obtain ⟨i, hi, le⟩ := rank?_entry_le hb
    exact ⟨i, bound, hi, hb, le⟩
  have started : (Walk.lead ⟨[], [], g.edgeless⟩ key).InStep g (g.rank? entry) key (g.order + 1) ⟨[], []⟩ := by
    refine ⟨Search.orderly_empty, ⟨fun x _ => ?_, (fun x mem => nomatch mem)⟩, fun x y edge => ?_,
      Walk.mem_lead.2 (.inl rfl), Nat.lt_succ_of_le (unmet_le_order g [])⟩
    · rw [Walk.lead_visited]
    · rw [Walk.lead_kept] at edge
      exact absurd edge edgeless_edge
  have mirrors := walk_mirrors closed hb (rankedBy_finishing g entry) known List.not_mem_nil low started
    (List.suffix_refl _)
  have finished : u ∈ g.finishing entry := (mem_finishing_iff closed known).2 there
  clear there
  induction climb using Relation.ReflTransGen.head_induction_on with
  | refl => exact .refl
  | @head u v step climb path =>
    obtain ⟨edge, up⟩ := step
    have ranked := Climbs.isSome climb hb
    have low := (AtMost.of_ascends up).trans (Climbs.atMost climb ranked)
    exact .head ((mirrors.climbed u finished low).kept v edge up climb) (path (rankIn?_isSome.1 ranked))

/-- From every vertex that the entry reaches, pruning keeps a walk through the keys in order wherever there
is one along which ranks go up. -/
theorem prune_tours_from (closed : g.Closed) (vertices : g.vertices = entry :: rest)
    (there : g.Reaches entry u) (tour : Tours (fun u v => g.Edge u v ∧ Ascends (g.rank? entry) u v) u keys) :
    ∃ p, g.prune keys = .ok p ∧ Tours p.Edge u keys := by
  have known : entry ∈ g.vertices := vertices ▸ List.mem_cons_self
  rw [prune_eq vertices]
  have chain := tours_iff_chain.1 tour
  cases keys with
  | nil => exact ⟨g.edgeless, rfl, [], .singleton _, .done _⟩
  | cons key keys =>
    obtain ⟨climb, others⟩ := List.isChain_cons_cons.1 chain
    have ranked : (g.rank? entry u).isSome = true := (rank?_isSome_iff closed known).2 there
    obtain ⟨-, bound, -, hb, -⟩ := Climbs.atMost climb ranked
    have extended := leg_extends g (g.rank? entry) bound entry key ⟨[], [], g.edgeless⟩
    have bare : Walk.Sound ⟨[], [], g.edgeless⟩ := fun x y edge => absurd edge edgeless_edge
    have below : ∀ y ∈ (g.leg (g.rank? entry) bound entry key ⟨[], [], g.edgeless⟩).visited,
        AtMost (g.rank? entry) y key := by
      intro y mem
      rcases extended.entered y mem with old | ⟨admitted, -⟩
      · rcases Walk.mem_heading_visited.1 old with rfl | none
        · obtain ⟨i, hi, le⟩ := rank?_entry_le hb
          exact ⟨i, bound, hi, hb, le⟩
        · cases none
      · exact (any_le_iff hb).1 admitted
    obtain ⟨w, ok, kept, chain'⟩ := walkKeys_climbs closed (extended.sound bare.heading) below
      (by rw [hb]; rfl) others
    refine ⟨w.kept, by rw [walkKeys_cons hb, ok]; rfl, tours_iff_chain.2 (.cons_cons ?_ chain')⟩
    exact Relation.ReflTransGen.mono kept _ _ (leg_climbs_from closed vertices hb there climb)

/-- Without cycles ranks go up along every edge behind the entry. -/
theorem Acyclic.ascends (acyclic : g.Acyclic) (closed : g.Closed) (vertices : g.vertices = entry :: rest)
    (there : g.Reaches entry x) (edge : g.Edge x y) : Ascends (g.rank? entry) x y := by
  obtain ⟨sorted, nodup⟩ := finishing_sorted closed acyclic vertices
  exact sorted.ascends nodup ((mem_finishing_iff closed (vertices ▸ List.mem_cons_self)).2 there) edge

/-- Without cycles ranks go up along every walk through the keys. -/
theorem Acyclic.tours_ascending (acyclic : g.Acyclic) (closed : g.Closed) (vertices : g.vertices = entry :: rest)
    (there : g.Reaches entry u) (tour : Tours g.Edge u keys) :
    Tours (fun u v => g.Edge u v ∧ Ascends (g.rank? entry) u v) u keys := by
  obtain ⟨walk, isWalk, visits⟩ := tour
  refine ⟨walk, ?_, visits⟩
  clear visits
  induction walk generalizing u with
  | nil => exact .singleton u
  | cons v walk ih =>
    obtain ⟨edge, isWalk⟩ := List.isChain_cons_cons.1 isWalk
    exact .cons_cons ⟨edge, acyclic.ascends closed vertices there edge⟩ (ih (there.tail edge) isWalk)

end Tours
end SinkReach.Digraph

namespace SinkReach

namespace Instances

variable {α : Type} {q : Query} {n site : Node} {s s' : Instances α} {b : Body}

/-- A resumed caller has instructions that the path names. -/
theorem returnSite_keys {i : InstrId} {m : Method} (h : returnSite q n = .ok (i, m)) : q.path.keys m ≠ [] := by
  unfold returnSite at h
  split at h
  · cases h
  · split at h
    · cases h
    · split at h
      next keys =>
        cases h
        obtain ⟨e, mem, same⟩ := List.any_eq_true.1 keys
        exact List.ne_nil_of_mem (List.mem_map.2 ⟨e, List.mem_filter.2 ⟨mem, same⟩, rfl⟩)
      next => cases h

/-- The instance that a return resumes in has the caller's graph, pruned to the caller's keys. -/
theorem resume_pruned (resumed : (resume q n).run.run s = (.ok site, s')) (body : q.body site.method = .ok b) :
    ∃ i, s'.of site = .ok i ∧ b.graph.prune (q.path.keys site.method) = .ok i.graph := by
  obtain ⟨i, m, g, found, graph, rfl, rfl⟩ := resume_ok resumed
  refine ⟨⟨m, g, {}⟩, ?_, Query.graph_prune body graph (returnSite_keys found)⟩
  unfold of
  rw [getElem?_withNew]
  exact if_pos rfl

/-- The pruned graph of a body has a walk through its keys from wherever ranks go up along one. -/
theorem tours_of_prune {g : Digraph} {u : InstrId} {keys : List InstrId} (pruned : b.graph.prune keys = .ok g)
    (there : b.graph.Reaches Body.entry u)
    (tour : Tours (fun u v => b.graph.Edge u v ∧ Digraph.Ascends (b.graph.rank? Body.entry) u v) u keys) :
    Tours g.Edge u keys := by
  obtain ⟨rest, vertices⟩ := b.graph_vertices
  obtain ⟨p, pruned', kept⟩ := Digraph.prune_tours_from b.graph_closed vertices there tour
  cases pruned.symm.trans pruned'
  exact kept

/-- Resumption is not cut off where ranks go up from the call site through the caller's keys: the resumed
instance still has a walk through them. -/
theorem resume_tours (resumed : (resume q n).run.run s = (.ok site, s')) (body : q.body site.method = .ok b)
    (there : b.graph.Reaches Body.entry site.instr)
    (tour : Tours (fun u v => b.graph.Edge u v ∧ Digraph.Ascends (b.graph.rank? Body.entry) u v)
      site.instr (q.path.keys site.method)) :
    ∃ i, s'.of site = .ok i ∧ Tours i.graph.Edge site.instr (q.path.keys site.method) := by
  obtain ⟨i, found, pruned⟩ := resume_pruned resumed body
  exact ⟨i, found, tours_of_prune pruned there tour⟩

/-- In a caller without loops resumption is never cut off. -/
theorem resume_tours_of_acyclic (resumed : (resume q n).run.run s = (.ok site, s'))
    (body : q.body site.method = .ok b) (acyclic : b.graph.Acyclic)
    (there : b.graph.Reaches Body.entry site.instr)
    (tour : Tours b.graph.Edge site.instr (q.path.keys site.method)) :
    ∃ i, s'.of site = .ok i ∧ Tours i.graph.Edge site.instr (q.path.keys site.method) := by
  obtain ⟨i, found, pruned⟩ := resume_pruned resumed body
  obtain ⟨rest, vertices⟩ := b.graph_vertices
  exact ⟨i, found, tours_of_prune pruned there (acyclic.tours_ascending b.graph_closed vertices there tour)⟩

end Instances

section Callers

def looping : Method := ⟨"A", "loop", [], .void⟩

/-- A loop at 1 that calls at 2 and is left to 4. -/
def loopingBody : Body where
  method := looping
  locals := []
  instructions := [
    .nop, .branch (.binary .eq (.const (.int 0)) (.const (.int 0)) .boolean) 4,
    .invoke ⟨.static, fallingBack, none, []⟩, .goto 1, .nop, .retVoid]
  successors := [[1], [2, 4], [3], [1], [5], []]
  nonempty := List.cons_ne_nil _ _
  successors_length := rfl
  edges_lt := show ∀ i ∈ [1, 2, 4, 3, 1, 5], i < 6 by decide

/-- The callee returns to its call, and the sink is the given instruction of the caller. -/
def loopingQuery (sink : InstrId) : Query where
  program := .ofBodies [fallingBackBody, loopingBody] []
  path := ⟨[⟨.ret, fallingBack, 3, some 2, some looping⟩, ⟨.sink, looping, sink, none, none⟩],
    List.cons_ne_nil _ _⟩

/-- In the loop the walk from the call to the jump back is kept. -/
theorem resume_tours_jumpBack : ∃ s', (Instances.resume (loopingQuery 3) ⟨0, fallingBack, 3⟩).run.run
      (Instances.empty : Instances Unit) = (.ok ⟨0, looping, 2⟩, s') ∧
    ∃ i, s'.of ⟨0, looping, 2⟩ = .ok i ∧ Tours i.graph.Edge 2 [3] := by
  have pruned : (loopingQuery 3).graph looping =
      .ok ⟨[(0, [1]), (1, [2]), (2, [3]), (3, []), (4, []), (5, [])]⟩ := by cbv
  have resumed := Instances.resume_run (s := (Instances.empty : Instances Unit)) (n := ⟨0, fallingBack, 3⟩)
    (i := 2) rfl pruned rfl
  have first : loopingBody.graph.rank? Body.entry 2 = some 4 := by decide +kernel
  have second : loopingBody.graph.rank? Body.entry 3 = some 5 := by decide +kernel
  have up : Digraph.Ascends (loopingBody.graph.rank? Body.entry) 2 3 := ⟨4, 5, first, second, by decide⟩
  have there : loopingBody.graph.Reaches Body.entry 2 := .head (b := 1) (by decide) (.single (by decide))
  refine ⟨_, resumed, Instances.resume_tours resumed (b := loopingBody) rfl there ?_⟩
  exact ⟨[3], .cons_cons ⟨by decide, up⟩ (.singleton _), .later (.here (.done _))⟩

/-- A key behind the loop of the call is cut off: from the entry it is found without the call, whose rank is
above the key's, so that no edge leaves the call in the resumed instance. -/
theorem resume_cuts_off_loop : ∃ s', (Instances.resume (loopingQuery 4) ⟨0, fallingBack, 3⟩).run.run
      (Instances.empty : Instances Unit) = (.ok ⟨0, looping, 2⟩, s') ∧
    (loopingQuery 4).body looping = .ok loopingBody ∧ (loopingQuery 4).path.keys looping = [4] ∧
    loopingBody.graph.Reaches Body.entry 2 ∧ Tours loopingBody.graph.Edge 2 [4] ∧
    ∃ i, s'.of ⟨0, looping, 2⟩ = .ok i ∧ ¬ Tours i.graph.Edge 2 [4] := by
  have pruned : (loopingQuery 4).graph looping =
      .ok ⟨[(0, [1]), (1, [4]), (2, []), (3, []), (4, []), (5, [])]⟩ := by cbv
  have resumed := Instances.resume_run (s := (Instances.empty : Instances Unit)) (n := ⟨0, fallingBack, 3⟩)
    (i := 2) rfl pruned rfl
  have there : loopingBody.graph.Reaches Body.entry 2 := .head (b := 1) (by decide) (.single (by decide))
  refine ⟨_, resumed, rfl, rfl, there,
    ⟨[3, 1, 4], by decide, .later (.later (.later (.here (.done _))))⟩, _, rfl, fun tour => ?_⟩
  obtain ⟨path, -⟩ := List.isChain_cons_cons.1 (tours_iff_chain.1 tour)
  rcases Relation.ReflTransGen.cases_head path with same | ⟨v, edge, -⟩
  · cases same
  · cases edge

end Callers
end SinkReach
