import SinkReach.Analysis.Search
import SinkReach.Json.Parser
import SinkReach.Json.Printer
import SinkReach.Settings.Codec

/-!
The command line: options, the files they name, and the report. The exit code is zero if the sink may
be reached, one if it is refuted, two if there is no answer, and 101 if the program was stopped.
-/
namespace SinkReach.CommandLine

/-- Form of the report. -/
inductive Format where
  | text
  | json
deriving DecidableEq, Repr, Inhabited

def Format.ofName? : String → Option Format
  | "text" => some .text
  | "json" => some .json
  | _ => none

structure Options where
  program : Option String := none
  taintPath : Option String := none
  method : Option String := none
  settings : Option String := none
  preset : Option String := none
  format : Option Format := none
deriving DecidableEq, Repr, Inhabited

/-- What the arguments ask for. -/
inductive Request where
  | help
  | analysis (program taintPath : String) (options : Options)
deriving DecidableEq, Repr, Inhabited

/-- Why there is no report. -/
inductive Refusal where
  | usage
  | settings (e : SettingsError)
  | unreadable (file : String)
  | malformed (file : String)
  | noMethod (name : String)
  | cutOff
deriving DecidableEq, Repr

def Refusal.message : Refusal → String
  | usage => "invalid arguments, see --help"
  | settings e => e.message
  | unreadable file => "cannot read " ++ file
  | malformed file => "loading " ++ file ++ " failed"
  | noMethod name => "no method named " ++ name ++ " in the program"
  | cutOff => "the search was cut off"

namespace Options

/-- Gives an option that has no value yet one. -/
def assign (o : Options) (name value : String) : Option Options :=
  match name with
  | "--program" =>
    if o.program.isNone && !value.isEmpty then some { o with program := value } else none
  | "--taint-path" =>
    if o.taintPath.isNone && !value.isEmpty then some { o with taintPath := value } else none
  | "--method" => if o.method.isNone then some { o with method := value } else none
  | "--config" =>
    if o.settings.isNone && !value.isEmpty then some { o with settings := value } else none
  | "--preset" => if o.preset.isNone then some { o with preset := value } else none
  | "--format" =>
    if o.format.isNone then (Format.ofName? value).map fun f => { o with format := some f } else none
  | _ => none

/-- The request of complete options; settings come from a file or from a preset. -/
def request? (o : Options) : Option Request :=
  match o.program, o.taintPath with
  | some program, some path =>
    if o.settings.isSome && o.preset.isSome then none else some (.analysis program path o)
  | _, _ => none

end Options

/-- Whether an argument can be the value of the option before it. -/
def isValue (arg : String) : Bool := !arg.startsWith "-" || arg = "-"

/-- Name and value of an argument that holds both. -/
def splitValue? (arg : String) : Option (String × String) :=
  match arg.splitOn "=" with
  | name :: value :: more => some (name, Text.join "=" (value :: more))
  | _ => none

/-- Reads the arguments from left to right. -/
def parseFrom (o : Options) : List String → Option Request
  | [] => o.request?
  | ["--"] => o.request?
  | arg :: args =>
    if arg = "--help" || arg.startsWith "-h" then some .help
    else match splitValue? arg with
      | some (name, value) => do parseFrom (← o.assign name value) args
      | none =>
        match args with
        | value :: args => if isValue value then do parseFrom (← o.assign arg value) args else none
        | [] => none

def parse (args : List String) : Except Refusal Request :=
  match parseFrom {} args with
  | some r => .ok r
  | none => .error .usage

/-- Lines of the help text. -/
def helpLines : List String :=
  ["Confirm taint-path reachability with interprocedural symbolic execution",
    "",
    "Usage: symex-confirm [OPTIONS] --program <PROGRAM> --taint-path <TAINT_PATH>",
    "",
    "Options:",
    "      --program <PROGRAM>        Program (JSON)",
    "      --taint-path <TAINT_PATH>  Taint path (JSON), sink last",
    "      --method <METHOD>          Entry method as `Class.name`; defaults to the first " ++
      "taint-path entry's method",
    "      --config <CONFIG>          Engine configuration (YAML)",
    "      --preset <PRESET>          Configuration preset: fast, balanced or thorough",
    "      --format <FORMAT>          [default: text] [possible values: text, json]",
    "  -h, --help                     Print help",
    "",
    "Builds without the `z3` feature use a candidate-search solver: conditions it cannot decide " ++
      "(e.g. nonlinear arithmetic) report unknown and exit with 2."]

/-- Lines, each with its end. -/
def unlines (lines : List String) : String := String.join (lines.map (· ++ "\n"))

/-- Exit code and standard output. -/
structure Report where
  exit : Nat
  output : String
deriving DecidableEq, Repr, Inhabited

/-- Contents of the files that could be read. -/
abbrev Files := String → Option String

namespace Files

/-- Name of a file in the directory itself; single dots and doubled slashes before it do not count. -/
def baseName? (path : String) : Option String :=
  match path.splitOn "/" with
  | "" :: _ :: _ => none
  | parts => if parts.dropLast.all fun p => p = "" || p = "." then parts.getLast? else none

/-- The files of one directory, by their names. -/
def ofDirectory (files : List (String × String)) : Files :=
  fun path => (baseName? path).bind fun name => files.lookup name

def text (files : Files) (name : String) : Except Refusal String :=
  match files name with
  | some s => .ok s
  | none => .error (.unreadable name)

/-- A file that holds a document. -/
def document (files : Files) (name : String) (decode : Json → Decoded α) : Except Refusal α := do
  match (Json.scan? (← files.text name)).map decode with
  | some (.ok a) => return a
  | _ => .error (.malformed name)

end Files

def liftSettings : Except SettingsError α → Except Refusal α
  | .ok a => .ok a
  | .error e => .error (.settings e)

namespace Options

def loadSettings (o : Options) (files : Files) : Except Refusal Settings := do
  match o.settings, o.preset with
  | some file, _ => liftSettings (Settings.parse (← files.text file))
  | none, some name => do return .ofPreset (← liftSettings (Preset.ofName name))
  | none, none => return {}

/-- The method to start from: the one named, or that of the path's first entry. -/
def startMethod (o : Options) (q : Query) : Except Refusal Method :=
  match o.method with
  | none => .ok q.path.first.method
  | some name =>
    match q.program.find? name with
    | some m => .ok m
    | none => .error (.noMethod name)

end Options

/-- Report on a method; a program that was stopped prints nothing. -/
def report (format : Format) (m : Method) (r : Result) : Report :=
  match r.verdict, format with
  | .aborted, _ => ⟨101, ""⟩
  | _, .json => ⟨exitCode r, r.encode.pretty ++ "\n"⟩
  | _, .text => ⟨exitCode r, unlines ((m.text ++ ": " ++ r.text) :: (r.witness.map Witness.lines).getD [])⟩
where
  exitCode (r : Result) : Nat := if r.failed then 2 else if r.reachable then 0 else 1

/-- Answers a request. -/
def answer (fuel : Nat) (files : Files) : Request → Except Refusal Report
  | .help => .ok ⟨0, unlines helpLines⟩
  | .analysis program path o => do
    let settings ← o.loadSettings files
    let program ← files.document program Program.decode
    let path ← files.document path TaintPath.decode
    let q : Query := ⟨program, path⟩
    let m ← o.startMethod q
    let analyzer ← liftSettings (Analyzer.ofSettings settings)
    match analyzer.analyze fuel q m with
    | some r => return report (o.format.getD .text) m r
    | none => .error .cutOff

/-- Answers the arguments. -/
def run (fuel : Nat) (files : Files) (args : List String) : Except Refusal Report := do
  answer fuel files (← parse args)

/-- Files that a request names. -/
def Request.files : Request → List String
  | .help => []
  | .analysis program path o => [program, path] ++ o.settings.toList

end SinkReach.CommandLine
