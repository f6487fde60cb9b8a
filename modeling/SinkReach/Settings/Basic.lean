import SinkReach.Json.Basic
import SinkReach.ModelSearch.Search

/-!
Settings of an analysis: how often a method may be entered, whether a witness is wanted, and what the
solver may spend. A preset is a starting point; every number has a range that is checked before use.
-/
namespace SinkReach

/-- Trade-off between effort and latency. -/
inductive Preset where
  | fast
  | balanced
  | thorough
deriving DecidableEq, Repr, Inhabited

namespace Preset

def all : List Preset := [fast, balanced, thorough]

def name : Preset → String
  | fast => "fast"
  | balanced => "balanced"
  | thorough => "thorough"

end Preset

/-- Decision procedures that settings may name; only the first is part of this build. -/
inductive Backend where
  | lightweight
  | z3
deriving DecidableEq, Repr, Inhabited

namespace Backend

def all : List Backend := [lightweight, z3]

def name : Backend → String
  | lightweight => "lightweight"
  | z3 => "z3"

def available : Backend → Bool
  | lightweight => true
  | z3 => false

end Backend

/-- Settings that are numbers. -/
inductive Limit where
  | methodCalls
  | timeout
  | assignments
deriving DecidableEq, Repr

namespace Limit

def name : Limit → String
  | methodCalls => "max_method_calls"
  | timeout => "solver.timeout_ms"
  | assignments => "solver.max_assignments"

/-- Greatest value; the least one is always one. -/
def greatest : Limit → Nat
  | methodCalls => 64
  | timeout => 3600000
  | assignments => 10000000

def hint : Limit → String
  | methodCalls => "A method must be enterable at least once"
  | timeout => "Solver timeout should be at most 1 hour"
  | assignments => "Model search budget must be finite"

end Limit

/-- Why settings are refused. -/
inductive SettingsError where
  | range (limit : Limit) (value : Nat)
  | unknownPreset (name : String)
  | backendUnavailable (backend : Backend)
  | malformed
deriving DecidableEq, Repr

def SettingsError.message : SettingsError → String
  | range l n =>
    "Invalid range for field '" ++ l.name ++ "': " ++ toString n ++ " not in 1..=" ++
      toString l.greatest ++ ". " ++ l.hint
  | unknownPreset name => "Unknown preset '" ++ name ++ "'. Valid presets: fast, balanced, thorough"
  | backendUnavailable b =>
    "Solver backend '" ++ b.name ++ "' is not available in this build (enable the `" ++ b.name ++
      "` feature)"
  | malformed => "YAML parsing error"

namespace Limit

/-- Refuses a value out of range. -/
def check (l : Limit) (n : Nat) : Except SettingsError Unit :=
  if n = 0 ∨ l.greatest < n then .error (.range l n) else .ok ()

end Limit

/-- Preset of a name in letters of either case. -/
def Preset.ofName (s : String) : Except SettingsError Preset :=
  match all.find? fun p => p.name == s.toLower with
  | some p => .ok p
  | none => .error (.unknownPreset s)

structure SolverSettings where
  backend : Backend := .lightweight
  timeout : Nat := 10000
  assignments : Nat := 50000
deriving DecidableEq, Repr, Inhabited

namespace SolverSettings

def ofPreset : Preset → SolverSettings
  | .fast => { timeout := 2000, assignments := 5000 }
  | .balanced => {}
  | .thorough => { timeout := 60000, assignments := 1000000 }

def validate (s : SolverSettings) : Except SettingsError Unit := do
  Limit.timeout.check s.timeout
  Limit.assignments.check s.assignments
  if s.backend.available then return () else .error (.backendUnavailable s.backend)

/-- The decision procedure that the settings name. -/
def solver (s : SolverSettings) : Except SettingsError Solver := do
  s.validate
  return ⟨s.backend.name, fun constraints => .ok (ModelSearch.check s.assignments constraints)⟩

end SolverSettings

structure Settings where
  preset : Preset := .balanced
  methodCalls : Nat := 4
  witness : Bool := true
  solver : SolverSettings := {}
deriving DecidableEq, Repr, Inhabited

namespace Settings

/-- The fast preset does without witnesses. -/
def ofPreset (p : Preset) : Settings where
  preset := p
  witness := p ≠ .fast
  solver := .ofPreset p

def validate (s : Settings) : Except SettingsError Unit := do
  Limit.methodCalls.check s.methodCalls
  s.solver.validate

end Settings
end SinkReach
