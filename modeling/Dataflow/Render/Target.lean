import Dataflow.Render.Cpp
import Dataflow.Render.Haskell

/-!
# Targets

The languages in which a plan can be written out.
-/

namespace Dataflow

inductive Target where
  | cpp
  | haskell
deriving DecidableEq, Repr

namespace Target

def name : Target → String
  | .cpp => "cpp"
  | .haskell => "haskell"

/-- The ending of the name of a source file, without the dot. -/
def extension : Target → String
  | .cpp => "cpp"
  | .haskell => "hs"

/-- The command that builds a source file, with marks for the file and the program to be made. -/
def buildCommand : Target → String
  | .cpp => "g++ -std=c++17 -O1 -o \x7boutput\x7d \x7binput\x7d"
  | .haskell => "ghc -v0 -O0 -outputdir \x7boutput\x7d.build -o \x7boutput\x7d \x7binput\x7d"

/-- The target of a name. -/
def ofName? : String → Option Target
  | "cpp" | "c++" => some .cpp
  | "haskell" | "hs" => some .haskell
  | _ => none

/-- What is said of a name that no target has. -/
def unknown (name : String) : String := "unknown backend `" ++ name ++ "`"

/-- The source of a plan. -/
def source : Target → ProgramPlan → String
  | .cpp => Cpp.source
  | .haskell => Haskell.source

end Target

end Dataflow
