import SinkReach.CommandLine

/-!
Entry point: reads the files that the arguments name and prints the report.
-/
namespace SinkReach.CommandLine

/-- Bound on the steps of a search, beyond any that ends in a lifetime. -/
def patience : Nat := Nat.pow 2 62

/-- Contents of a file, if it can be read. -/
def readFile (name : String) : IO (Option String) := do
  try
    return some (← IO.FS.readFile ⟨name⟩)
  catch _ =>
    return none

end SinkReach.CommandLine

open SinkReach.CommandLine in
/-- Exit code two goes with every refusal. -/
def main (args : List String) : IO UInt32 := do
  let outcome ← match parse args with
    | .error e => pure (Except.error e)
    | .ok request =>
      let contents ← request.files.mapM fun name => do return (name, ← readFile name)
      pure (answer patience (fun name => (contents.lookup name).join) request)
  match outcome with
  | .ok r =>
    IO.print r.output
    return r.exit.toUInt32
  | .error e =>
    IO.eprintln e.message
    return 2
