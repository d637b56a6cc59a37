import Dataflow.Cli.Basic

/-!
The program: arguments in, files and text out.
-/

namespace Dataflow.Cli

/-- The refusal behind an error of the system. -/
def osError : IO.Error → OsError
  | .noFileOrDirectory .. => .notFound
  | .permissionDenied .. => .permissionDenied
  | .inappropriateType .. => .isADirectory
  | _ => .notFound

/-- The outcome of an action of the system. -/
def attemptHost {α : Type} (act : IO α) : IO (Except OsError α) := do
  match ← act.toBaseIO with
  | .ok a => pure (.ok a)
  | .error e => pure (.error (osError e))

/-- The files of the system. -/
def systemHost : Host IO where
  readFile path := attemptHost (IO.FS.readFile path)
  writeFile path text := attemptHost (IO.FS.writeFile path text)
  refusal _ := .notFound

end Dataflow.Cli

def main (args : List String) : IO UInt32 := do
  let result ← Dataflow.Cli.run Dataflow.Cli.systemHost args
  IO.print result.stdout
  IO.eprint result.stderr
  return result.exit.toUInt32
