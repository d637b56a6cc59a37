import Dataflow.Oracle.Basic

/-!
# A tool that follows a script

For every line the script has a list of answers, given one after the other; the last one is repeated.
After each answer the tool prints its prompt and a line end.
-/

namespace Dataflow

structure Script where
  prompt : String
  /-- What is printed at the start. -/
  banner : String
  answers : List (String × List String)
  /-- The answer to a line that is not in the script. -/
  fallback : String
  /-- Lines on which the tool ends without an answer. -/
  die : List String
deriving Repr

namespace Script

/-- How often each line has been asked, ascending by line. -/
abbrev Asked := List (String × Nat)

/-- The `k`-th answer to a line. -/
def answer (s : Script) (line : String) (k : Nat) : String :=
  match s.answers.lookup line with
  | some answers => (answers[k]?.or answers.getLast?).getD s.fallback
  | none => s.fallback

def launch (s : Script) : Reaction Asked :=
  { state := [], output := [Text.encode s.banner], exited := false }

def tool (s : Script) : Tool Asked := fun asked line =>
  if line ∈ s.die then { state := asked, output := [], exited := true }
  else
    let k := (Assoc.get? line asked).getD 0
    { state := Assoc.insert line (k + 1) asked
      output := [Text.encode (s.answer line k ++ s.prompt ++ "\n")]
      exited := false }

/-- A script is a program that always starts. -/
def started (s : Script) : Except OsError (Tool Asked × Reaction Asked) := .ok (s.tool, s.launch)

end Script

end Dataflow
