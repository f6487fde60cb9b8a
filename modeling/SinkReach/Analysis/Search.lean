import SinkReach.Analysis.Result
import SinkReach.Analysis.Worklist
import SinkReach.Settings.Basic
import SinkReach.Step.Merge
import SinkReach.Step.Next
import SinkReach.Term.Memo

/-!
The search for the sink. Nodes are taken from a worklist; the state kept at a node is expanded once, and
each state that follows is merged into the one kept at its own node. The first arrival at the sink ends
the search with a question to the solver, and so does an empty worklist without one. Returns along the
taint path may make new call instances for ever, hence a bound on the number of steps.
-/
namespace SinkReach

/-- Question, limit of calls and solver of an analysis, and the kind of build that it runs in. -/
structure Task where
  query : Query
  limit : Nat
  witness : Bool
  solver : Solver
  overflow : Overflow := .panics

structure Search where
  world : World
  worklist : Worklist
  stats : Stats

/-- Operations of the search that may fail, what they changed until then being kept. -/
abbrev Searching := ExceptT Fault (StateM Search)

namespace Searching

/-- Runs an operation on the world. -/
def explore (x : Explore α) : Searching α := fun s =>
  let (r, w) := x s.world
  (r, { s with world := w })

def count (f : Stats → Stats) : Searching Unit :=
  modifyThe Search fun s => { s with stats := f s.stats }

/-- Keeps a state at its node, merged with the one already there, and queues the node. -/
def receive (o : Overflow) (first : Option Node) (incoming : ExecState) : Searching Unit := do
  let target := incoming.node
  let stored ← match (← getThe Search).world.calls.data? target with
    | none => pure incoming
    | some previous =>
      count fun s => { s with merged := s.merged + 1 }
      explore (Explore.onContext (previous.merge incoming o))
  let calls ← liftExcept ((← getThe Search).world.calls.keep target stored)
  modifyThe Search fun s => { s with
    world := { s.world with calls }
    worklist := s.worklist.schedule target (first.map (·.instr) = some target.instr) }

/-- Expands the state kept at a node. -/
def expand (t : Task) (n : Node) (s : ExecState) : Searching Unit := do
  let first ← explore (Explore.askCalls (·.first? n))
  let following ← explore (s.next t.query t.limit)
  following.forM (receive t.overflow first)

end Searching

/-- Evidence for a reachable sink. -/
def Witness.ofState (s : ExecState) (model : Assignment) : Witness where
  path := s.path.toList
  parameters := s.stack.outermost.parameters.map fun (id, v) =>
    ⟨id.name, id.ty, (v.term.evalShared model).toOption.map Value.text⟩

namespace Task

/-- Asks the solver about the state at the sink. -/
def conclude (t : Task) (s : ExecState) (stats : Stats) : Result :=
  let stats := { stats with queries := stats.queries + 1 }
  match t.solver.check s.symbolic.constraints with
  | .error f => ⟨.failed f, none, stats⟩
  | .ok (.sat model) => ⟨.reachable, if t.witness then some (.ofState s model) else none, stats⟩
  | .ok .unsat => ⟨.unreachable, none, stats⟩
  | .ok .unknown => ⟨.unknown, none, stats⟩

end Task

/-- A search goes on or has a result. -/
inductive Progress where
  | running (s : Search)
  | done (r : Result)

namespace Search

/-- Search with the initial state at the entry of a method. -/
def start (t : Task) (m : Method) : Except Fault Search := do
  let (entry, calls) := (Instances.enter t.query m).run.run .empty
  let entry ← entry
  let calls ← Instances.keep calls entry (.initial entry)
  return ⟨⟨calls, {}⟩, .start entry, {}⟩

/-- Processes a node that was taken from the worklist. -/
def process (t : Task) (s : Search) (n : Node) : Progress :=
  match s.world.calls.data? n with
  | none => .done ⟨.failed (.noState n), none, s.stats⟩
  | some state =>
    let s := { s with stats := { s.stats with processed := s.stats.processed + 1 } }
    if t.query.path.isSink state.node.method state.node.instr then .done (t.conclude state s.stats)
    else
      match (Searching.expand t n state).run.run s with
      | (.ok (), s) => .running s
      | (.error f, s) => .done ⟨.ofFault f, none, s.stats⟩

/-- Takes one node from the worklist. -/
def step (t : Task) (s : Search) : Progress :=
  match s.worklist.pop? with
  | none => .done ⟨.exhausted, none, s.stats⟩
  | some (n, worklist) =>
    let s := { s with worklist, stats := { s.stats with iterations := s.stats.iterations + 1 } }
    if worklist.isProcessed n then .running s
    else ({ s with worklist := worklist.mark n }).process t n

/-- Goes on for at most `fuel` steps. -/
def run (t : Task) : Nat → Search → Option Result
  | 0, _ => none
  | fuel + 1, s =>
    match s.step t with
    | .done r => some r
    | .running s => run t fuel s

end Search

/-- Settings with the solver that decides the sink's condition. -/
structure Analyzer where
  settings : Settings
  solver : Solver

namespace Analyzer

/-- Analyzer with the solver that valid settings name. -/
def ofSettings (s : Settings) : Except SettingsError Analyzer := do
  s.validate
  return ⟨s, ← s.solver.solver⟩

def task (a : Analyzer) (q : Query) (o : Overflow := .panics) : Task :=
  ⟨q, a.settings.methodCalls, a.settings.witness, a.solver, o⟩

/-- Decides whether the path can be followed from the entry of a method; no result if `fuel` steps do
not suffice. -/
def analyze (a : Analyzer) (fuel : Nat) (q : Query) (m : Method) (o : Overflow := .panics) : Option Result :=
  match Search.start (a.task q o) m with
  | .error f => some ⟨.failed f, none, {}⟩
  | .ok s => s.run (a.task q o) fuel

/-- Whether the path may be followed from the method of its first entry. -/
def validatePath (a : Analyzer) (fuel : Nat) (q : Query) (o : Overflow := .panics) : Option Bool :=
  (a.analyze fuel q q.path.first.method o).map Result.reachable

end Analyzer
end SinkReach
