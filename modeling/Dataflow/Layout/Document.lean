import Dataflow.Json.Reader
import Dataflow.Json.Writer
import Dataflow.Layout.Basic

/-!
# Layouts as JSON documents

A record is an object with its fields in any order, or a list of them in the order in which they are
declared. Fields that the record does not have are passed over, unless they stand in a list; a field
may not be given twice. A missing field has its default, if there is one.
-/

namespace Dataflow

namespace Json

/-- Gives a field of a record its value, once. -/
def setField (names : List String) (values : List (Option Json)) (key : String) (v : Json) :
    Option (List (Option Json)) :=
  match names.idxOf? key with
  | none => some values
  | some i =>
    match values[i]? with
    | some none => some (values.set i (some v))
    | _ => none

/-- The values of the fields of a record, from an object. -/
def collect (names : List String) (values : List (Option Json)) :
    List (List Nat × Json) → Option (List (Option Json))
  | [] => some values
  | (key, v) :: rest => do
    let key ← textOf? key
    let values ← setField names values key v
    collect names values rest

/-- The values of the fields of a record, absent where they are missing. -/
def record? (names : List String) : Json → Option (List (Option Json))
  | .obj fields => collect names (names.map fun _ => none) fields
  | .arr items =>
    if items.length ≤ names.length then
      some (items.map some ++ List.replicate (names.length - items.length) none)
    else none
  | _ => none

/-- The value of a field that may be missing. -/
def orElse {α : Type} (value : α) (read : Json → Option α) : Option Json → Option α
  | none => some value
  | some j => read j

/-- A list whose items are all read. -/
def listOf? {α : Type} (read : Json → Option α) (j : Json) : Option (List α) := do
  (← j.list?).mapM read

/-- An object with fields in the given order. -/
def ofFields (fields : List (String × Json)) : Json :=
  .obj (fields.map fun (name, v) => (name.toList.map Char.toNat, v))

end Json

namespace Position

def ofJson? (j : Json) : Option Position := do
  match ← j.record? ["x", "y"] with
  | [x, y] => do
    let x ← (← x).float?
    let y ← (← y).float?
    pure { x, y }
  | _ => none

def toJson (p : Position) : Json :=
  .ofFields [("x", .ofFloat p.x), ("y", .ofFloat p.y)]

end Position

namespace LayoutConnection

def ofJson? (j : Json) : Option LayoutConnection := do
  match ← j.record? ["text", "target"] with
  | [text, target] => do
    let text ← (← text).text?
    let target ← (← target).nat?
    pure { text, target }
  | _ => none

def toJson (c : LayoutConnection) : Json :=
  .ofFields [("text", .ofText c.text), ("target", .ofNat c.target)]

end LayoutConnection

namespace LayoutPin

def ofJson? (j : Json) : Option LayoutPin := do
  match ← j.record? ["label", "connections"] with
  | [label, connections] => do
    let label ← Json.orElse "" Json.text? label
    let connections ← Json.orElse [] (Json.listOf? LayoutConnection.ofJson?) connections
    pure { label, connections }
  | _ => none

def toJson (p : LayoutPin) : Json :=
  .ofFields
    [("label", .ofText p.label), ("connections", .arr (p.connections.map LayoutConnection.toJson))]

end LayoutPin

namespace LayoutNode

def ofJson? (j : Json) : Option LayoutNode := do
  match ← j.record? ["id", "position", "text", "has_input", "pins"] with
  | [id, position, text, hasInput, pins] => do
    let id ← (← id).nat?
    let position ← Json.orElse {} Position.ofJson? position
    let text ← (← text).text?
    let hasInput ← Json.orElse true Json.bool? hasInput
    let pins ← Json.orElse [] (Json.listOf? LayoutPin.ofJson?) pins
    pure { id, position, text, hasInput, pins }
  | _ => none

def toJson (n : LayoutNode) : Json :=
  .ofFields
    [("id", .ofNat n.id), ("position", n.position.toJson), ("text", .ofText n.text),
     ("has_input", .bool n.hasInput), ("pins", .arr (n.pins.map LayoutPin.toJson))]

end LayoutNode

namespace Layout

def ofJson? (j : Json) : Option Layout := do
  match ← j.record? ["nodes", "libraries", "imports"] with
  | [nodes, libraries, imports] => do
    let nodes ← Json.listOf? LayoutNode.ofJson? (← nodes)
    let libraries ← Json.orElse [] (Json.listOf? Json.text?) libraries
    let imports ← Json.orElse [] (Json.listOf? Json.text?) imports
    pure { nodes, libraries, imports }
  | _ => none

def toJson (l : Layout) : Json :=
  .ofFields
    [("nodes", .arr (l.nodes.map LayoutNode.toJson)),
     ("libraries", .arr (l.libraries.map Json.ofText)), ("imports", .arr (l.imports.map Json.ofText))]

/-- Reads a document. -/
def read (text : String) : Except LayoutError Layout :=
  match (Json.read? text).bind ofJson? with
  | some l => .ok l
  | none => .error .malformed

/-- The document of a layout. -/
def render (l : Layout) : String := l.toJson.pretty

end Layout

end Dataflow
