/-!
# Refusals of the system

Why the system would not open a file, start a program or pass text on to one.
-/

namespace Dataflow

inductive OsError where
  | notFound
  | execFormat
  | permissionDenied
  | notADirectory
  | isADirectory
  | brokenPipe
deriving DecidableEq, Repr

/-- The system's number of a refusal. -/
def OsError.code : OsError → Nat
  | .notFound => 2
  | .execFormat => 8
  | .permissionDenied => 13
  | .notADirectory => 20
  | .isADirectory => 21
  | .brokenPipe => 32

def OsError.text : OsError → String
  | .notFound => "No such file or directory"
  | .execFormat => "Exec format error"
  | .permissionDenied => "Permission denied"
  | .notADirectory => "Not a directory"
  | .isADirectory => "Is a directory"
  | .brokenPipe => "Broken pipe"

/-- The system's wording and number. -/
def OsError.message (e : OsError) : String :=
  e.text ++ " (os error " ++ toString e.code ++ ")"

end Dataflow
