import SinkReach.Route.Node

/-!
Nodes waiting to be processed. A node is processed at most once. The first successor of a node is put
in front, so straight lines run to their end; other successors wait at the back, where states that
arrive later can still be merged into theirs.
-/
namespace SinkReach

structure Worklist where
  queue : List Node
  processed : List Node
deriving DecidableEq, Repr, Inhabited

namespace Worklist

def start (n : Node) : Worklist := ⟨[n], []⟩

def pop? (w : Worklist) : Option (Node × Worklist) :=
  match w.queue with
  | [] => none
  | n :: queue => some (n, { w with queue })

def isProcessed (w : Worklist) (n : Node) : Bool := w.processed.contains n

/-- Marks a node as processed. -/
def mark (w : Worklist) (n : Node) : Worklist :=
  if w.isProcessed n then w else { w with processed := n :: w.processed }

/-- Queues a node that is not processed yet. -/
def schedule (w : Worklist) (n : Node) (first : Bool) : Worklist :=
  if w.isProcessed n then w
  else if first then { w with queue := n :: w.queue }
  else { w with queue := w.queue ++ [n] }

end Worklist
end SinkReach
