/-!
Finite directed graphs on numbers. Vertices and the successors of each stand in the order in which
they were added; the first vertex is the entry.
-/
namespace SinkReach

structure Digraph where
  adjacency : List (Nat × List Nat)
deriving DecidableEq, Repr, Inhabited

namespace Digraph

def empty : Digraph := ⟨[]⟩

def vertices (g : Digraph) : List Nat := g.adjacency.map (·.1)

def order (g : Digraph) : Nat := g.adjacency.length

def contains (g : Digraph) (v : Nat) : Bool := g.vertices.contains v

/-- Successors in the order of their edges. -/
def successors (g : Digraph) (v : Nat) : List Nat :=
  match g.adjacency.find? fun e => e.1 == v with
  | some (_, next) => next
  | none => []

def edgeCount (g : Digraph) : Nat := g.adjacency.foldl (fun n e => n + e.2.length) 0

def addVertex (g : Digraph) (v : Nat) : Digraph :=
  if g.contains v then g else ⟨g.adjacency ++ [(v, [])]⟩

/-- Adds an edge and its missing ends; a repeated edge changes nothing. -/
def addEdge (g : Digraph) (u v : Nat) : Digraph :=
  let g := (g.addVertex u).addVertex v
  ⟨g.adjacency.map fun e => if e.1 == u && !e.2.contains v then (e.1, e.2 ++ [v]) else e⟩

/-- The same vertices without any edge. -/
def edgeless (g : Digraph) : Digraph := ⟨g.adjacency.map fun e => (e.1, [])⟩

end Digraph
end SinkReach
