import SinkReach.Proofs.Route.Ranking
import SinkReach.Proofs.Table

/-!
Depth-first search without recursion. The vertices the search is in stand on a stack, each with the successors
that are left to try, and a vertex that has none left is ranked and taken off. The stack empties, with a rank left
for every vertex that is taken off, and the ranks are those of the recursive search.
-/
namespace SinkReach.Digraph

/-- A search part way, the vertex entered last on top of the stack. -/
structure Descent where
  stack : List (Nat × List Nat)
  seen : List Nat
  ranks : Table Nat Nat

namespace Descent

def start (g : Digraph) (entry : Nat) : Descent := ⟨[(entry, g.successors entry)], [entry], {}⟩

/-- Tries the next successor of the vertex on top, or takes the vertex off with the greatest rank that is left.
Nothing follows an empty stack, and nothing a vertex for which no rank is left. -/
def step? (g : Digraph) (d : Descent) : Option Descent :=
  match d.stack with
  | [] => none
  | (v, w :: ws) :: stack =>
    if d.seen.contains w then some { d with stack := (v, ws) :: stack }
    else some { d with stack := (w, g.successors w) :: (v, ws) :: stack, seen := w :: d.seen }
  | (v, []) :: stack =>
    let finished := d.ranks.entries.length
    if finished < g.order then some { d with stack := stack, ranks := d.ranks.insert v (g.order - finished - 1) }
    else none

/-- Some number of steps leads from one state to the other. -/
def Runs (g : Digraph) : Descent → Descent → Prop := Relation.ReflTransGen fun d d' => d.step? g = some d'

end Descent

variable {g : Digraph} {fuel order v w entry : Nat} {s : Search} {vs ws : List Nat} {stack : List (Nat × List Nat)}

/-- Ranks of finished vertices, the one finished last standing first. -/
def rankTable (order : Nat) : List Nat → Table Nat Nat
  | [] => {}
  | v :: vs => (rankTable order vs).insert v (order - vs.length - 1)

theorem get?_rankTable (room : vs.length ≤ order) : (rankTable order vs).get? v = rankIn? order vs v := by
  induction vs with
  | nil => rfl
  | cons u vs ih =>
    have less : vs.length < order := room
    rw [rankTable, Table.get?_insert, rankIn?_cons less, ih (Nat.le_of_lt less)]
    simp only [beq_iff_eq]

theorem length_rankTable (nodup : vs.Nodup) (room : vs.length ≤ order) :
    (rankTable order vs).entries.length = vs.length := by
  induction vs with
  | nil => rfl
  | cons v vs ih =>
    obtain ⟨new, nodup⟩ := List.nodup_cons.1 nodup
    have before : vs.length ≤ order := Nat.le_of_succ_le room
    have fresh : (rankTable order vs).get? v = none := by
      rw [get?_rankTable before, ← Option.not_isSome_iff_eq_none]
      exact fun ranked => new (rankIn?_isSome.1 ranked)
    rw [rankTable, Table.length_insert _ fresh, ih nodup before, List.length_cons]

namespace Descent

/-- What the recursive search has met and finished, with a stack. -/
def ofSearch (g : Digraph) (stack : List (Nat × List Nat)) (s : Search) : Descent :=
  ⟨stack, s.seen, rankTable g.order s.finished⟩

theorem step?_seen (seen : w ∈ s.seen) :
    (ofSearch g ((v, w :: ws) :: stack) s).step? g = some (ofSearch g ((v, ws) :: stack) s) :=
  if_pos (List.contains_iff_mem.2 seen)

theorem step?_new (new : w ∉ s.seen) : (ofSearch g ((v, w :: ws) :: stack) s).step? g =
    some (ofSearch g ((w, g.successors w) :: (v, ws) :: stack) { s with seen := w :: s.seen }) :=
  if_neg (mt List.contains_iff_mem.1 new)

/-- With all finished vertices in the graph, there is a rank left for one more. -/
theorem step?_finish (nodup : (v :: s.finished).Nodup) (inside : v :: s.finished ⊆ g.vertices) :
    (ofSearch g ((v, []) :: stack) s).step? g =
      some (ofSearch g stack { s with finished := v :: s.finished }) := by
  have room : s.finished.length < g.order := length_le_order nodup inside
  have count := length_rankTable (List.nodup_cons.1 nodup).2 (Nat.le_of_lt room)
  simp only [step?, ofSearch, count, if_pos room, rankTable]

end Descent

open Descent

theorem explore_subset (closed : g.Closed) (orderly : s.Orderly) (inside : s.seen ⊆ g.vertices)
    (known : v ∈ g.vertices) : (g.explore fuel v s).seen ⊆ g.vertices := by
  intro x mem
  rcases (explore_grows g fuel v orderly).behind x mem with old | path
  · exact inside old
  · exact mem_vertices_of_reaches closed known path

theorem runs_exploreAll (closed : g.Closed)
    (sub : ∀ v s, Search.Orderly s → s.seen ⊆ g.vertices → v ∈ g.vertices → v ∉ s.seen → g.unmet s.seen < fuel →
      ∀ stack, Runs g (ofSearch g ((v, g.successors v) :: stack) { s with seen := v :: s.seen })
        (ofSearch g stack (g.explore fuel v s)))
    (edges : ∀ w ∈ ws, g.Edge v w) (orderly : s.Orderly) (inside : s.seen ⊆ g.vertices)
    (enough : g.unmet s.seen < fuel) (stack : List (Nat × List Nat)) : Runs g (ofSearch g ((v, ws) :: stack) s)
      (ofSearch g ((v, []) :: stack) (ws.foldl (fun s w => g.explore fuel w s) s)) := by
  induction ws generalizing s with
  | nil => exact .refl
  | cons w ws ih =>
    obtain ⟨edge, edges⟩ := List.forall_mem_cons.1 edges
    have known := mem_vertices_of_edge closed edge
    have grown := explore_grows g fuel w orderly
    have rest := ih edges grown.orderly (explore_subset closed orderly inside known)
      (Nat.lt_of_le_of_lt (unmet_antitone grown.met) enough)
    by_cases seen : w ∈ s.seen
    · rw [explore_of_seen seen] at rest
      rw [List.foldl_cons, explore_of_seen seen]
      exact .head (step?_seen seen) rest
    · have entered := sub w s orderly inside known seen enough ((v, ws) :: stack)
      exact .head (step?_new seen) (entered.trans rest)

/-- Whatever is on the stack below a vertex that is entered, the vertex comes off with all done that the
recursive search does from it. -/
theorem runs_explore (closed : g.Closed) (orderly : s.Orderly) (inside : s.seen ⊆ g.vertices)
    (known : v ∈ g.vertices) (new : v ∉ s.seen) (enough : g.unmet s.seen < fuel) (stack : List (Nat × List Nat)) :
    Runs g (ofSearch g ((v, g.successors v) :: stack) { s with seen := v :: s.seen })
      (ofSearch g stack (g.explore fuel v s)) := by
  induction fuel generalizing v s stack with
  | zero => cases enough
  | succ fuel ih =>
    have result := (explore_grows g (fuel + 1) v orderly).orderly
    have within : (g.explore (fuel + 1) v s).seen ⊆ g.vertices := explore_subset closed orderly inside known
    rw [explore_succ new] at result within ⊢
    have left := Nat.lt_of_lt_of_le (unmet_cons_lt known new) (Nat.lt_succ_iff.1 enough)
    have edges : ∀ w ∈ g.successors v, g.Edge v w := fun _ mem => mem
    have tried := runs_exploreAll closed (fun _ _ => ih) edges (orderly.meet v)
      (List.cons_subset.2 ⟨known, inside⟩) left stack
    -- What is finished is in the graph, this vertex included, so a rank is left for it.
    have finished := fun x mem => within (result.met x mem)
    exact tried.tail (step?_finish result.nodup finished)

/-- Ranks that a depth-first search from the entry gives. -/
structure RanksDepthFirst (g : Digraph) (entry : Nat) (rank? : Nat → Option Nat) : Prop where
  reached : ∀ v, (rank? v).isSome = true ↔ g.Reaches entry v
  apart : ∀ u v i, rank? u = some i → rank? v = some i → u = v
  below : ∀ v i, rank? v = some i → i < g.order
  lowest : ∃ i, rank? entry = some i ∧ ∀ v j, rank? v = some j → i ≤ j
  closing : ∀ u v i j, g.Edge u v → rank? u = some i → rank? v = some j → j ≤ i → g.Reaches v u

theorem ranksDepthFirst (closed : g.Closed) (known : entry ∈ g.vertices) :
    g.RanksDepthFirst entry (g.rank? entry) where
  reached := fun _ => rank?_isSome_iff closed known
  apart := fun _ _ _ => rankIn?_injective
  below := fun _ _ => rank?_lt_order closed known
  lowest := by
    obtain ⟨i, first⟩ := Option.isSome_iff_exists.1 ((rank?_isSome_iff closed known).2 .refl)
    refine ⟨i, first, fun v j hv => ?_⟩
    obtain ⟨i', first', le⟩ := rank?_entry_le hv
    cases first.symm.trans first'
    exact le
  closing := fun _ _ _ _ => reaches_of_rank?_le closed known

/-- A search on a stack ends with the stack empty, and with a rank for every vertex that it took off. The ranks
are those of the recursive search: the vertices behind the entry have one each, below the number of vertices and
the entry the lowest, and an edge that does not go up closes a cycle. -/
theorem descent_ranks (closed : g.Closed) (known : entry ∈ g.vertices) :
    ∃ d, Runs g (.start g entry) d ∧ d.stack = [] ∧ d.ranks.get? = g.rank? entry ∧
      g.RanksDepthFirst entry d.ranks.get? := by
  have enough : g.unmet [] < g.order + 1 := Nat.lt_succ_of_le (unmet_le_order g [])
  have runs := runs_explore closed Search.orderly_empty (List.nil_subset _) known List.not_mem_nil enough []
  have room := length_le_order (finishing_nodup g entry) (finishing_subset closed known)
  have ranks : (rankTable g.order (g.finishing entry)).get? = g.rank? entry := funext fun _ => get?_rankTable room
  exact ⟨_, runs, rfl, ranks, ranks ▸ ranksDepthFirst closed known⟩

section Circle

/-- A circle with a way in, a way out, an edge from a vertex to itself and a vertex that nothing reaches. -/
def circle : Digraph := ⟨[(0, [1]), (1, [2, 1]), (2, [3, 4]), (3, [1]), (4, []), (5, [0])]⟩

theorem descent_ranks_circle : circle.Closed ∧ 0 ∈ circle.vertices ∧
    ∃ d, Runs circle (.start circle 0) d ∧ d.stack = [] ∧
      circle.vertices.map d.ranks.get? = [some 1, some 2, some 3, some 5, some 4, none] ∧
      circle.Edge 3 1 ∧ circle.Reaches 1 3 := by
  have closed : circle.Closed := by decide
  have known : 0 ∈ circle.vertices := by decide
  obtain ⟨d, runs, done, ranks, depthFirst⟩ := descent_ranks closed known
  have given : circle.vertices.map d.ranks.get? = [some 1, some 2, some 3, some 5, some 4, none] := by
    rw [ranks]
    decide
  have edge : circle.Edge 3 1 := by decide
  have back : circle.Reaches 1 3 :=
    depthFirst.closing 3 1 5 2 edge (by rw [ranks]; decide) (by rw [ranks]; decide) (by decide)
  exact ⟨closed, known, d, runs, done, given, edge, back⟩

end Circle
end SinkReach.Digraph
