import SinkReach.Settings.Basic
import SinkReach.Yaml.Node

/-!
Documents of settings. Every entry may be left out and then has its own default, whatever preset the
document names; unknown and repeated entries are refused.
-/
namespace SinkReach

namespace Yaml

/-- Number of digits in a base. -/
def digits? (base : Nat) : List Char → Option Nat
  | [] => none
  | cs => cs.foldlM (fun n c => do
      let d ← Json.hexDigit? c
      if d < base then some (n * base + d) else none) 0

/-- Text of a scalar that may spell a value of a basic type: a plain one, or a literal one that is tagged
with the type. -/
def spelling? (type : String) : Yaml → Option String
  | scalar text .plain _ => some text
  | scalar text .literal (some tag) => if tag = "tag:yaml.org,2002:" ++ type then some text else none
  | _ => none

/-- A number below a bound, with a base mark or decimal without leading zeros. -/
def natBelow? (bound : Nat) (y : Yaml) : Option Nat := do
  let cs := match (← y.spelling? "int").toList with
    | '+' :: cs => cs
    | cs => cs
  let n ← match cs with
    | '0' :: 'x' :: cs => digits? 16 cs
    | '0' :: 'o' :: cs => digits? 8 cs
    | '0' :: 'b' :: cs => digits? 2 cs
    | '0' :: _ :: _ => none
    | cs => digits? 10 cs
  if n < bound then some n else none

/-- A truth value in one of three spellings. -/
def bool? (y : Yaml) : Option Bool := do
  let text ← y.spelling? "bool"
  if ["true", "True", "TRUE"].contains text then some true
  else if ["false", "False", "FALSE"].contains text then some false
  else none

/-- Spellings of nothing. -/
def nulls : List String := ["", "~", "null", "Null", "NULL"]

/-- Name that a scalar gives: its text, or its own tag with nothing behind it. -/
def name? : Yaml → Option String
  | scalar text style (some tag) =>
    match tag.toList with
    | '!' :: cs => if style = .plain && nulls.contains text then some (String.ofList cs) else none
    | _ => some text
  | scalar text _ none => some text
  | mapping _ => none

/-- One of the items, by its name. -/
def named? (items : List α) (name : α → String) (y : Yaml) : Option α := do
  let text ← y.name?
  items.find? fun a => name a == text

/-- Text of a key, whatever its style and tag. -/
def key? : Yaml → Option String
  | scalar text _ _ => some text
  | mapping _ => none

/-- Entries of a mapping whose keys are among those given, each at most once; nothing at all is an
empty mapping. -/
def entries? (keys : List String) : Yaml → Option (List (String × Yaml))
  | mapping entries => do
    let given ← entries.mapM fun (k, v) => do return (← k.key?, v)
    let names := given.map (·.1)
    if names.all keys.contains && names.eraseDups.length = names.length then some given else none
  | scalar "" .plain _ => some []
  | scalar _ _ _ => none

/-- Value of a key, or the default if it is left out. -/
def entry (entries : List (String × Yaml)) (key : String) (read : Yaml → Option α) (default : α) :
    Option α :=
  match entries.lookup key with
  | some v => read v
  | none => some default

end Yaml

namespace SolverSettings

def ofYaml? (y : Yaml) : Option SolverSettings := do
  let es ← y.entries? ["backend", "timeout_ms", "max_assignments"]
  let d : SolverSettings := {}
  return {
    backend := ← Yaml.entry es "backend" (Yaml.named? Backend.all Backend.name) d.backend
    timeout := ← Yaml.entry es "timeout_ms" (Yaml.natBelow? 0x100000000) d.timeout
    assignments :=
      ← Yaml.entry es "max_assignments" (Yaml.natBelow? 0x10000000000000000) d.assignments }

def encode (s : SolverSettings) : Json :=
  .obj [("backend", .str s.backend.name), ("timeout_ms", .ofNat s.timeout),
    ("max_assignments", .ofNat s.assignments)]

end SolverSettings

namespace Settings

def ofYaml? (y : Yaml) : Option Settings := do
  let es ← y.entries? ["preset", "max_method_calls", "produce_model", "solver"]
  let d : Settings := {}
  return {
    preset := ← Yaml.entry es "preset" (Yaml.named? Preset.all Preset.name) d.preset
    methodCalls := ← Yaml.entry es "max_method_calls" (Yaml.natBelow? 0x100000000) d.methodCalls
    witness := ← Yaml.entry es "produce_model" Yaml.bool? d.witness
    solver := ← Yaml.entry es "solver" SolverSettings.ofYaml? d.solver }

/-- Reads and validates a document. -/
def parse (text : String) : Except SettingsError Settings := do
  match (Yaml.parse? text).bind ofYaml? with
  | none => .error .malformed
  | some s =>
    s.validate
    return s

def encode (s : Settings) : Json :=
  .obj [("preset", .str s.preset.name), ("max_method_calls", .ofNat s.methodCalls),
    ("produce_model", .bool s.witness), ("solver", s.solver.encode)]

/-- The document of the settings, every entry written out. -/
def yaml (s : Settings) : String :=
  "preset: " ++ s.preset.name ++ "\nmax_method_calls: " ++ toString s.methodCalls ++
    "\nproduce_model: " ++ (if s.witness then "true" else "false") ++
    "\nsolver:\n  backend: " ++ s.solver.backend.name ++
    "\n  timeout_ms: " ++ toString s.solver.timeout ++
    "\n  max_assignments: " ++ toString s.solver.assignments ++ "\n"

end Settings
end SinkReach
