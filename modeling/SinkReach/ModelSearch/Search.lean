import SinkReach.Fault
import SinkReach.ModelSearch.Domain
import SinkReach.Term.Memo

/-!
A decision procedure for conjunctions of constraints: contradictory facts refute them, and a
backtracking search over candidate values looks for a model. The constants are assigned in the order of
their names, and a conjunct is checked as soon as its last constant has a value. A search that fails
refutes the conjunction only if every domain is complete and the budget lasted.
-/
namespace SinkReach

/-- Answer to the question whether constraints have a model. -/
inductive Answer where
  | sat (model : Assignment)
  | unsat
  | unknown

namespace ModelSearch

inductive Outcome where
  | found (model : Assignment)
  | exhausted (budget : Nat)
  | aborted

/-- A constant with its candidates and the conjuncts to check once it has a value. -/
structure Level where
  domain : Domain
  checks : List Term

/-- Whether all terms are true, values of shared nodes being remembered. -/
def allTrue (env : Assignment) : List Term → Term.Memory → Bool
  | [], _ => true
  | t :: ts, memory =>
    match (t.recallBool env).run.run memory with
    | (.ok true, memory) => allTrue env ts memory
    | _ => false

/-- Tries the values of one constant in turn, each at the price of one assignment. -/
def tryValues (level : Level) (next : Assignment → Nat → Outcome) (env : Assignment) :
    List Value → Nat → Outcome
  | [], budget => .exhausted budget
  | _ :: _, 0 => .aborted
  | v :: vs, budget + 1 =>
    let extended := env.insert level.domain.name v
    if allTrue extended level.checks {} then
      match next extended budget with
      | .found model => .found model
      | .exhausted budget => tryValues level next env vs budget
      | .aborted => .aborted
    else tryValues level next env vs budget

/-- Assigns the constants of the levels one after the other. -/
def search : List Level → Assignment → Nat → Outcome
  | [], env, _ => .found env
  | level :: levels, env, budget => tryValues level (search levels) env level.domain.values budget

/-- Position of the last constant of a conjunct among the names. -/
def lastPosition (names : List String) (conjunct : Term) : Nat :=
  let mine := Term.freeVars [conjunct]
  ((names.zipIdx.filter fun (name, _) => mine.contains name).map (·.2)).getLastD 0

def levels (domains : List Domain) (conjuncts : List Term) : List Level :=
  let names := domains.map (·.name)
  let placed := conjuncts.map fun t => (lastPosition names t, t)
  domains.zipIdx.map fun (d, i) => ⟨d, (placed.filter fun (k, _) => k == i).map (·.2)⟩

/-- Decides conjuncts without constants. -/
def decideClosed : List Term → Term.Memory → Answer
  | [], _ => .sat {}
  | t :: ts, memory =>
    match (t.recallBool {}).run.run memory with
    | (.ok true, memory) => decideClosed ts memory
    | (.ok false, _) => .unsat
    | (.error _, _) => .unknown

/-- Decides conjuncts with constants. -/
def decideOpen (budget : Nat) (vars : Table String TermSort) (conjuncts : List Term) : Answer :=
  let facts := Facts.ofConjuncts vars conjuncts
  if facts.refuted then .unsat
  else
    let literals := Literals.ofConjuncts conjuncts
    let domains := vars.entries.map fun (name, sort) => Domain.ofFacts facts literals name sort
    let complete := domains.all (·.complete)
    if domains.any (·.values.isEmpty) then if complete then .unsat else .unknown
    else match search (levels domains conjuncts) {} budget with
      | .found model => .sat model
      | .exhausted _ => if complete then .unsat else .unknown
      | .aborted => .unknown

/-- Decides the conjunction of the constraints with a budget of assignments. -/
def check (budget : Nat) (constraints : List Term) : Answer :=
  let conjuncts := openConjunctions constraints []
  if conjuncts.any fun t => t.bool? == some false then .unsat
  else
    let conjuncts := conjuncts.filter fun t => !(t.bool? == some true)
    let vars := Term.freeVars conjuncts
    if vars.entries.isEmpty then decideClosed conjuncts {} else decideOpen budget vars conjuncts

end ModelSearch

/-- A decision procedure, which may itself fail. -/
structure Solver where
  name : String
  check : List Term → Except Fault Answer

end SinkReach
