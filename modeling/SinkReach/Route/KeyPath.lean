import SinkReach.Route.Digraph

/-!
Pruning of a graph to the edges that lie on paths which visit key vertices in order. Vertices are
ranked by a depth-first search from the entry, the vertex finished last lowest; on the way to a key no
vertex ranked above it is entered.
-/
namespace SinkReach.Digraph

/-- Vertices met and vertices finished by a depth-first search, the latest first. -/
structure Search where
  seen : List Nat
  finished : List Nat

/-- Depth-first search from a vertex, at most `fuel` deep. -/
def explore (g : Digraph) : Nat → Nat → Search → Search
  | 0, _, s => s
  | fuel + 1, v, s =>
    if s.seen.contains v then s
    else
      let s := (g.successors v).foldl (fun s w => g.explore fuel w s) { s with seen := v :: s.seen }
      { s with finished := v :: s.finished }

/-- Vertices reachable from the entry, the last finished first. -/
def finishing (g : Digraph) (entry : Nat) : List Nat :=
  (g.explore (g.order + 1) entry ⟨[], []⟩).finished

/-- Rank of a vertex by its place among the finished ones; the greatest rank is `order - 1`. -/
def rankIn? (order : Nat) (finished : List Nat) (v : Nat) : Option Nat :=
  (finished.findIdx? (· == v)).map (· + (order - finished.length))

/-- Rank of a vertex that the search from the entry finishes. -/
def rank? (g : Digraph) (entry v : Nat) : Option Nat := rankIn? g.order (g.finishing entry) v

/-- Vertices entered, vertices known to lead to a key, and the edges kept so far. -/
structure Walk where
  visited : List Nat
  leading : List Nat
  kept : Digraph

namespace Walk

def visit (w : Walk) (v : Nat) : Walk := { w with visited := v :: w.visited }

def lead (w : Walk) (v : Nat) : Walk :=
  if w.leading.contains v then w else { w with leading := v :: w.leading }

/-- Keeps an edge, whose source then leads to a key. -/
def keep (w : Walk) (u v : Nat) : Walk := { w with kept := w.kept.addEdge u v }.lead u

end Walk

/-- Walks on from a vertex through vertices that pass the test, each entered once, and keeps the edges
into vertices that lead to a key. -/
def walk (g : Digraph) (admissible : Nat → Bool) : Nat → Nat → Walk → Walk
  | 0, _, w => w
  | fuel + 1, u, w =>
    (g.successors u).foldl (fun w v =>
      if admissible v then
        let w := if w.visited.contains v then w else g.walk admissible fuel v (w.visit v)
        if w.leading.contains v then w.keep u v else w
      else w) w

/-- Why a graph cannot be pruned. -/
inductive PruneError where
  | emptyGraph
  | unreachableKey (key : Nat)
deriving DecidableEq, Repr

/-- Cause in words, vertices being named by `vertex`. -/
def PruneError.message (vertex : Nat → String) : PruneError → String
  | emptyGraph => "Graph error: cannot prune an empty graph"
  | unreachableKey key => "Graph error: key vertex " ++ vertex key ++ " is unreachable from the entry"

/-- Walks from key to key. -/
def walkKeys (g : Digraph) (rank? : Nat → Option Nat) : Nat → List Nat → Walk → Except PruneError Walk
  | _, [], w => .ok w
  | current, key :: keys, w =>
    match rank? key with
    | none => .error (.unreachableKey key)
    | some bound =>
      let admissible (v : Nat) : Bool := (rank? v).any (· ≤ bound)
      g.walkKeys rank? key keys
        (g.walk admissible (g.order + 1) current ((w.lead key).visit current))

/-- The graph with all its vertices and the edges on paths through the keys in order. -/
def prune (g : Digraph) (keys : List Nat) : Except PruneError Digraph :=
  match g.vertices with
  | [] => .error .emptyGraph
  | entry :: _ =>
    let finished := g.finishing entry
    (g.walkKeys (rankIn? g.order finished) entry keys ⟨[], [], g.edgeless⟩).map (·.kept)

end SinkReach.Digraph
