import Dataflow.Program.Basic

/-!
# Programs as pictures

The text of a picture for Graphviz: a record for every node, with a field for every pin, and an edge
for every arrow.
-/

namespace Dataflow

namespace Dot

/-- The characters that have a meaning in a record label. -/
def isReserved (c : Char) : Bool :=
  c = '"' || c = '\x7b' || c = '\x7d' || c = '|' || c = '<' || c = '>' || c = '\\'

/-- Puts a backslash before each character of a class. -/
def escape (reserved : Char → Bool) (s : String) : String :=
  String.ofList (s.toList.flatMap fun c => if reserved c then ['\\', c] else [c])

/-- Text in a record label. -/
def escapeRecord : String → String := escape isReserved

/-- Text in quotes. -/
def escapeQuoted : String → String := escape fun c => c = '"' || c = '\\'

def braces (s : String) : String := "\x7b" ++ s ++ "\x7d"

/-- The fields of a node. -/
def nodeLabel (n : Node) : String :=
  let title := escapeRecord n.title
  if n.pins.isEmpty then braces title
  else
    let pins := n.pins.zipIdx.map fun (pin, k) =>
      "<p" ++ toString k ++ "> " ++ escapeRecord pin.brancher.render
    braces (title ++ "|" ++ braces ("|".intercalate pins))

def nodeLine (n : Node) (i : Nat) : String :=
  "  " ++ nodeName i ++ " [label=\"" ++ nodeLabel n ++ "\"];"

def arrowLine (a : Arrow) : String :=
  "  " ++ nodeName a.source ++ ":p" ++ toString a.pin ++ " -> " ++ nodeName a.target ++
    " [label=\"" ++ escapeQuoted a.text ++ "\"];"

end Dot

/-- The program as a picture, without a line end behind the last line. -/
def Program.toDot (p : Program) : String :=
  "\n".intercalate
    (["digraph program \x7b", "  rankdir=TB;",
      "  node [shape=record fontname=\"Helvetica\" fontsize=10];",
      "  edge [fontname=\"Helvetica\" fontsize=9];"] ++
      p.nodes.zipIdx.map (fun (n, i) => Dot.nodeLine n i) ++
      p.arrows.map Dot.arrowLine ++ ["\x7d"])

end Dataflow
