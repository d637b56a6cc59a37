import Dataflow.OsError
import Dataflow.Text.Split
import Dataflow.Text.Utf8

/-!
# Building and running rendered programs

The source is written to a file, a command builds it, and the program that comes out is run. A path is a list
of octets, as the system has it, and need not spell a text; a command is a text.
-/

namespace Dataflow

/-- The step of a build that failed. -/
inductive Stage where
  | build
  | run
deriving DecidableEq, Repr

def Stage.name : Stage → String
  | .build => "build"
  | .run => "run"

inductive ToolError where
  | spawn (stage : Stage) (cause : OsError)
  | failed (stage : Stage) (status : Int) (stdout stderr : String)
  | io (cause : OsError)
deriving DecidableEq, Repr

namespace ToolError

def message : ToolError → String
  | .spawn stage cause => stage.name ++ " failed to start: " ++ cause.message
  | .failed stage status _ stderr => stage.name ++ " exited with " ++ toString status ++ "\n" ++ stderr
  | .io cause => cause.message

/-- What is behind the fault. -/
def causes : ToolError → List String
  | .spawn _ cause => [cause.message]
  | _ => []

end ToolError

namespace Toolchain

/-- A path as one word of a shell command. Octets that spell no character are lost. -/
def quote (path : List UInt8) : String := "'" ++ Text.replace (Text.decodeLossy path) "'" "'\\''" ++ "'"

/-- A command with the paths in the places that are marked for them. The source is put in first, so
a mark in its path is filled too. -/
def expand (template : String) (input output : List UInt8) : String :=
  Text.replace (Text.replace template "\x7binput\x7d" (quote input)) "\x7boutput\x7d" (quote output)

end Toolchain

end Dataflow
