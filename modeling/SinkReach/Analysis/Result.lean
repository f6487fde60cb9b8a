import SinkReach.Fault
import SinkReach.Json.Basic

/-!
Results of an analysis: a verdict, the evidence for a reachable sink, and counts of the work done.
-/
namespace SinkReach

inductive Verdict where
  /-- The sink was reached under a condition that has a model. -/
  | reachable
  /-- The sink was reached, but its condition has no model. -/
  | unreachable
  /-- The sink was never reached. -/
  | exhausted
  /-- The solver could not decide the condition of the sink. -/
  | unknown
  | failed (fault : Fault)
  /-- The program was stopped and gives no answer. -/
  | aborted

namespace Verdict

/-- Verdict of a search that a fault ends. -/
def ofFault : Fault → Verdict
  | .overflow => aborted
  | f => failed f

def text : Verdict → String
  | reachable => "reachable"
  | unreachable => "unreachable"
  | exhausted => "unreachable (exhausted)"
  | unknown => "unknown"
  | failed f => "failed: " ++ f.message
  | aborted => "aborted"

/-- Name in documents. -/
def name : Verdict → String
  | reachable => "reachable"
  | unreachable => "unreachable"
  | exhausted => "exhausted"
  | unknown => "unknown"
  | failed _ => "failed"
  | aborted => "aborted"

/-- Whether the sink is refuted. -/
def refuted : Verdict → Bool
  | unreachable | exhausted => true
  | _ => false

/-- Whether the analysis has no answer. -/
def undecided : Verdict → Bool
  | unknown | failed _ | aborted => true
  | _ => false

end Verdict

/-- Work done: nodes taken from the worklist, states merged, nodes processed, and solver queries. -/
structure Stats where
  iterations : Nat := 0
  merged : Nat := 0
  processed : Nat := 0
  queries : Nat := 0
deriving DecidableEq, Repr, Inhabited

/-- A parameter of the outermost frame; one that the model leaves open has no value. -/
structure WitnessParameter where
  name : String
  ty : Ty
  value : Option String
deriving DecidableEq, Repr, Inhabited

/-- Nodes on the way to the sink and the parameters that lead there. -/
structure Witness where
  path : List Node
  parameters : List WitnessParameter
deriving DecidableEq, Repr, Inhabited

structure Result where
  verdict : Verdict
  witness : Option Witness
  stats : Stats

namespace Stats

def encode (s : Stats) : Json :=
  .obj [("iterations", .ofNat s.iterations), ("states_merged", .ofNat s.merged),
    ("nodes_processed", .ofNat s.processed), ("solver_queries", .ofNat s.queries)]

end Stats

namespace Witness

def encode (w : Witness) : Json :=
  .obj [("path", .ofList (fun n => .str n.text) w.path),
    ("parameters", .ofList (fun p => .obj [("name", .str p.name), ("ty", .str p.ty.text),
      ("value", .ofOption .str p.value)]) w.parameters)]

/-- Lines of the report. -/
def lines (w : Witness) : List String :=
  ["path:"] ++ w.path.map (fun n => "  " ++ n.text) ++
    w.parameters.map fun p => "  " ++ p.name ++ ": " ++ p.ty.text ++ " = " ++ p.value.getD "<any>"

end Witness

namespace Result

/-- Whether the sink may be reachable: it is not refuted. -/
def reachable (r : Result) : Bool := !r.verdict.refuted

/-- Whether the analysis could not complete. -/
def failed (r : Result) : Bool := r.verdict.undecided

def text (r : Result) : String :=
  r.verdict.text ++ " (" ++ toString r.stats.iterations ++ " iterations, " ++
    toString r.stats.processed ++ " nodes, " ++ toString r.stats.merged ++ " merges, " ++
    toString r.stats.queries ++ " solver queries)"

def encode (r : Result) : Json :=
  let reason := match r.verdict with
    | .failed f => [("reason", .str f.message)]
    | _ => []
  .obj ([("verdict", .str r.verdict.name)] ++ reason ++
    (r.witness.map fun w => ("witness", w.encode)).toList ++ [("stats", r.stats.encode)])

end Result
end SinkReach
