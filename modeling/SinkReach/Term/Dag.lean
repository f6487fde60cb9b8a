import Std.Data.HashMap
import SinkReach.Term.Basic

/-!
Traversal of shared terms. Every node reachable from a list of roots is visited once, operands before
the node, from left to right. A node counts as seen if one of its label and structure was met before.
-/
namespace SinkReach.Term

/-- Nodes met so far by label, and the visited nodes, the latest first. -/
structure Visited where
  seen : Std.HashMap Label Term
  nodes : List Term

namespace Visited

def empty : Visited := ⟨{}, []⟩

def met (v : Visited) (t : Term) : Bool := v.seen[t.label]?.any (·.same t)

def mark (v : Visited) (t : Term) : Visited := { v with seen := v.seen.insert t.label t }

def push (v : Visited) (t : Term) : Visited := { v with nodes := t :: v.nodes }

end Visited

mutual

/-- Visits what is not yet seen below a node, then the node. -/
def visit (v : Visited) : Term → Visited
  | t@(leaf _ _) => if v.met t then v else (v.mark t).push t
  | t@(unary _ _ a) => if v.met t then v else (a.visit (v.mark t)).push t
  | t@(binary _ _ a b) => if v.met t then v else (b.visit (a.visit (v.mark t))).push t
  | t@(ternary _ _ a b c) =>
    if v.met t then v else (c.visit (b.visit (a.visit (v.mark t)))).push t
  | t@(junction _ _ items) => if v.met t then v else (visitAll (v.mark t) items).push t

def visitAll (v : Visited) : List Term → Visited
  | [] => v
  | t :: ts => visitAll (t.visit v) ts

end

/-- Distinct nodes below the roots, in the order of the traversal. -/
def nodes (roots : List Term) : List Term := (visitAll .empty roots).nodes.reverse

/-- Free constants below the roots with their sorts; of two sorts of one name the last visited. -/
def freeVars (roots : List Term) : Table String TermSort :=
  (nodes roots).foldl (fun vars t =>
    match t with
    | leaf _ (.var name sort) => vars.insert name sort
    | _ => vars) {}

end SinkReach.Term
