/-!
# Lines of source text

A piece of source text is a list of lines. Indenting puts two blanks before every line that is not
empty.
-/

namespace Dataflow.Render

/-- The lines one level further in. -/
def indent (lines : List String) : List String :=
  lines.map fun line => if line.isEmpty then line else "  " ++ line

/-- Lines as text, each with its line end. -/
def unlines (lines : List String) : String :=
  String.join (lines.map (· ++ "\n"))

end Dataflow.Render
