import SinkReach.Proofs.Route.Digraph
import SinkReach.Route.KeyPath

/-!
Depth-first search of any graph, cycles included. A search closes all that it opens, finishes exactly the
vertices behind the one where it starts, and puts what it finishes before all that was finished earlier.
-/
namespace SinkReach.Digraph

variable {g : Digraph} {fuel u v x y : Nat} {s s' s'' : Search}

/-- A vertex that was met and is not finished yet. -/
def Search.Open (s : Search) (v : Nat) : Prop := v ∈ s.seen ∧ v ∉ s.finished

/-- The finished vertices were met, and none was finished twice. -/
structure Search.Orderly (s : Search) : Prop where
  met : ∀ x ∈ s.finished, x ∈ s.seen
  nodup : s.finished.Nodup

theorem Search.orderly_empty : Search.Orderly ⟨[], []⟩ := ⟨(fun _ mem => nomatch mem), .nil⟩

/-- What a search from a vertex adds: it meets vertices behind that one, and finishes all that it opens. -/
structure Search.Grows (g : Digraph) (v : Nat) (s s' : Search) : Prop where
  orderly : s'.Orderly
  met : s.seen ⊆ s'.seen
  later : s.finished <:+ s'.finished
  opened : ∀ x, s'.Open x ↔ s.Open x
  behind : ∀ x ∈ s'.seen, x ∈ s.seen ∨ g.Reaches v x

namespace Search.Grows

theorem refl (orderly : s.Orderly) (v : Nat) : s.Grows g v s where
  orderly := orderly
  met := fun _ mem => mem
  later := List.suffix_refl _
  opened := fun _ => .rfl
  behind := fun _ mem => .inl mem

theorem trans (h : s.Grows g v s') (h' : s'.Grows g v s'') : s.Grows g v s'' where
  orderly := h'.orderly
  met := fun _ mem => h'.met (h.met mem)
  later := h.later.trans h'.later
  opened := fun x => (h'.opened x).trans (h.opened x)
  behind := fun x mem => (h'.behind x mem).elim (h.behind x) .inr

/-- A search from a successor is one of what is behind the vertex. -/
theorem of_edge (edge : g.Edge u v) (h : s.Grows g v s') : s.Grows g u s' where
  orderly := h.orderly
  met := h.met
  later := h.later
  opened := h.opened
  behind := fun x mem => (h.behind x mem).imp_right (.head edge)

/-- What is met meanwhile is finished meanwhile. -/
theorem finished (h : s.Grows g v s') (mem : x ∈ s'.seen) (new : x ∉ s.seen) : x ∈ s'.finished := by
  by_contra unfinished
  exact new ((h.opened x).1 ⟨mem, unfinished⟩).1

end Search.Grows

theorem exploreAll_grows (sub : ∀ w s, Search.Orderly s → s.Grows g w (g.explore fuel w s)) {ws : List Nat}
    (edges : ∀ w ∈ ws, g.Edge v w) (orderly : s.Orderly) :
    s.Grows g v (ws.foldl (fun s w => g.explore fuel w s) s) := by
  induction ws generalizing s with
  | nil => exact .refl orderly v
  | cons w ws ih =>
    obtain ⟨edge, edges⟩ := List.forall_mem_cons.1 edges
    have first := (sub w s orderly).of_edge edge
    exact first.trans (ih edges first.orderly)

/-- A search that starts at a new vertex finishes it last. -/
theorem explore_succ (new : v ∉ s.seen) : g.explore (fuel + 1) v s =
    { (g.successors v).foldl (fun s w => g.explore fuel w s) { s with seen := v :: s.seen } with
      finished := v :: ((g.successors v).foldl (fun s w => g.explore fuel w s)
        { s with seen := v :: s.seen }).finished } := by
  rw [explore, if_neg (mt List.contains_iff_mem.1 new)]

theorem explore_of_seen (seen : v ∈ s.seen) : g.explore fuel v s = s := by
  cases fuel with
  | zero => rfl
  | succ fuel => rw [explore, if_pos (List.contains_iff_mem.2 seen)]

theorem Search.Orderly.meet (h : s.Orderly) (v : Nat) : Search.Orderly { s with seen := v :: s.seen } :=
  ⟨fun x mem => List.mem_cons_of_mem _ (h.met x mem), h.nodup⟩

/-- A vertex that is met now is open, besides those that were. -/
theorem Search.Orderly.open_meet (h : s.Orderly) (new : v ∉ s.seen) :
    Search.Open { s with seen := v :: s.seen } x ↔ x = v ∨ s.Open x := by
  constructor
  · rintro ⟨met, unfinished⟩
    exact (List.mem_cons.1 met).imp_right fun met => ⟨met, unfinished⟩
  · rintro (rfl | ⟨met, unfinished⟩)
    · exact ⟨List.mem_cons_self, fun finished => new (h.met x finished)⟩
    · exact ⟨List.mem_cons_of_mem _ met, unfinished⟩

theorem explore_grows (g : Digraph) (fuel v : Nat) (orderly : s.Orderly) : s.Grows g v (g.explore fuel v s) := by
  induction fuel generalizing v s with
  | zero => exact .refl orderly v
  | succ fuel ih =>
    by_cases new : v ∈ s.seen
    · rw [explore_of_seen new]
      exact .refl orderly v
    rw [explore_succ new]
    have edges : ∀ w ∈ g.successors v, g.Edge v w := fun _ mem => mem
    have grown := exploreAll_grows (fun w s => ih w) edges (orderly.meet v)
    generalize (g.successors v).foldl (fun s w => g.explore fuel w s) { s with seen := v :: s.seen } = s₂
      at grown
    have vOpen : s₂.Open v := (grown.opened v).2 ((orderly.open_meet new).2 (.inl rfl))
    have before : ∀ x, s₂.Open x ↔ x = v ∨ s.Open x := fun x => (grown.opened x).trans (orderly.open_meet new)
    refine ⟨⟨fun x mem => ?_, List.nodup_cons.2 ⟨vOpen.2, grown.orderly.nodup⟩⟩, fun x mem => ?_,
      grown.later.trans (List.suffix_cons v _), fun x => ?_, fun x mem => ?_⟩
    · rcases List.mem_cons.1 mem with rfl | mem
      · exact vOpen.1
      · exact grown.orderly.met x mem
    · exact grown.met (List.mem_cons_of_mem _ mem)
    · constructor
      · rintro ⟨met, unfinished⟩
        obtain ⟨other, unfinished⟩ := not_or.1 (mt List.mem_cons.2 unfinished)
        exact ((before x).1 ⟨met, unfinished⟩).resolve_left other
      · intro wasOpen
        obtain ⟨met, unfinished⟩ := (before x).2 (.inr wasOpen)
        refine ⟨met, fun mem => ?_⟩
        rcases List.mem_cons.1 mem with rfl | mem
        · exact new wasOpen.1
        · exact unfinished mem
    · rcases grown.behind x mem with old | behind
      · rcases List.mem_cons.1 old with rfl | old
        · exact .inr .refl
        · exact .inl old
      · exact .inr behind

section Completeness

/-- Of the vertices finished in between, all successors were met. -/
def Search.Meets (g : Digraph) (s s' : Search) : Prop :=
  ∀ x ∈ s'.finished, x ∉ s.finished → ∀ y, g.Edge x y → y ∈ s'.seen

theorem Search.Meets.trans (h : s.Meets g s') (h' : s'.Meets g s'') (met : s'.seen ⊆ s''.seen) :
    s.Meets g s'' := by
  intro x mem new y edge
  by_cases early : x ∈ s'.finished
  · exact met (h x early new y edge)
  · exact h' x mem early y edge

theorem exploreAll_meets (closed : g.Closed)
    (sub : ∀ w s, Search.Orderly s → w ∈ g.vertices → g.unmet s.seen < fuel →
      w ∈ (g.explore fuel w s).seen ∧ s.Meets g (g.explore fuel w s))
    {ws : List Nat} (edges : ∀ w ∈ ws, g.Edge v w) (orderly : s.Orderly) (enough : g.unmet s.seen < fuel) :
    (∀ w ∈ ws, w ∈ (ws.foldl (fun s w => g.explore fuel w s) s).seen) ∧
      s.Meets g (ws.foldl (fun s w => g.explore fuel w s) s) := by
  induction ws generalizing s with
  | nil => exact ⟨fun _ mem => (nomatch mem), fun _ mem new => absurd mem new⟩
  | cons w ws ih =>
    obtain ⟨edge, edges⟩ := List.forall_mem_cons.1 edges
    have first := explore_grows g fuel w orderly
    have rest := exploreAll_grows (fun w s => explore_grows g fuel w) edges first.orderly
    obtain ⟨met, meets⟩ := sub w s orderly (mem_vertices_of_edge closed edge) enough
    obtain ⟨metRest, meetsRest⟩ := ih edges first.orderly (Nat.lt_of_le_of_lt (unmet_antitone first.met) enough)
    exact ⟨List.forall_mem_cons.2 ⟨rest.met met, metRest⟩, meets.trans meetsRest rest.met⟩

/-- With enough fuel a search meets its vertex, and all successors of what it finishes. -/
theorem explore_meets (closed : g.Closed) (orderly : s.Orderly) (known : v ∈ g.vertices)
    (enough : g.unmet s.seen < fuel) : v ∈ (g.explore fuel v s).seen ∧ s.Meets g (g.explore fuel v s) := by
  induction fuel generalizing v s with
  | zero => cases enough
  | succ fuel ih =>
    by_cases new : v ∈ s.seen
    · rw [explore_of_seen new]
      exact ⟨new, fun _ mem new => absurd mem new⟩
    rw [explore_succ new]
    have edges : ∀ w ∈ g.successors v, g.Edge v w := fun _ mem => mem
    obtain ⟨met, meets⟩ := exploreAll_meets closed (fun w s => ih) edges (orderly.meet v)
      (Nat.lt_of_lt_of_le (unmet_cons_lt known new) (Nat.lt_succ_iff.1 enough))
    have grown := exploreAll_grows (fun w s => explore_grows g fuel w) edges (orderly.meet v)
    refine ⟨grown.met List.mem_cons_self, fun x mem unfinished y edge => ?_⟩
    rcases List.mem_cons.1 mem with rfl | mem
    · exact met y edge
    · exact meets x mem unfinished y edge

variable {entry : Nat}

/-- The entry is finished last, whatever the graph. -/
theorem finishing_eq_cons (g : Digraph) (entry : Nat) : ∃ vs, g.finishing entry = entry :: vs := by
  simp [finishing, explore]

theorem entry_mem_finishing (g : Digraph) (entry : Nat) : entry ∈ g.finishing entry := by
  obtain ⟨vs, finished⟩ := finishing_eq_cons g entry
  rw [finished]
  exact List.mem_cons_self

theorem finishing_nodup (g : Digraph) (entry : Nat) : (g.finishing entry).Nodup :=
  (explore_grows g (g.order + 1) entry Search.orderly_empty).orderly.nodup

/-- The search from the entry finishes the vertices that it reaches, and no others. -/
theorem mem_finishing_iff (closed : g.Closed) (known : entry ∈ g.vertices) :
    x ∈ g.finishing entry ↔ g.Reaches entry x := by
  have grown := explore_grows g (g.order + 1) entry Search.orderly_empty
  obtain ⟨-, meets⟩ := explore_meets closed Search.orderly_empty known
    (Nat.lt_succ_of_le (unmet_le_order g []))
  constructor
  · intro mem
    exact (grown.behind x (grown.orderly.met x mem)).resolve_left fun none => nomatch none
  · intro path
    induction path with
    | refl => exact entry_mem_finishing g entry
    | tail _ edge ih => exact grown.finished (meets _ ih (fun none => nomatch none) _ edge) fun none => nomatch none

end Completeness

end SinkReach.Digraph
