import Dataflow.Draft
import Dataflow.OsError
import Dataflow.Text.Blank
import Dataflow.Text.Split

/-!
# Layouts

A layout is what an editor keeps of a drawn program: nodes with identities and positions, and the
libraries and imports that the rendered source asks for. Loading a layout gives the draft, in which
nodes are numbered in the order of the document.
-/

namespace Dataflow

structure Position where
  x : Float := 0.0
  y : Float := 0.0
deriving Repr, BEq

structure LayoutConnection where
  text : String
  /-- The identity of the node that the connection enters. -/
  target : Nat
deriving Repr, BEq

structure LayoutPin where
  label : String := ""
  connections : List LayoutConnection := []
deriving Repr, BEq

structure LayoutNode where
  id : Nat
  position : Position := {}
  /-- A type, or a name and a type. -/
  text : String
  hasInput : Bool := true
  pins : List LayoutPin := []
deriving Repr, BEq

structure Layout where
  nodes : List LayoutNode
  libraries : List String := []
  imports : List String := []
deriving Repr, BEq

inductive LayoutError where
  /-- The file cannot be read. -/
  | unreadable (cause : OsError)
  /-- The text is no layout. -/
  | malformed
  | duplicateId (id : Nat)
  | unknownTarget (node target : Nat)
  | badText (node : Nat) (text : String)
  | draft (cause : DraftError)
deriving Repr

def LayoutError.message : LayoutError → String
  | .unreadable cause => "cannot read layout: " ++ cause.message
  | .malformed => "malformed layout: not a layout document"
  | .duplicateId id => s!"node id {id} appears twice"
  | .unknownTarget node target => s!"node {node} connects to unknown node {target}"
  | .badText node text => "node " ++ toString node ++ " has malformed text `" ++ text ++ "`"
  | .draft cause => cause.message

namespace Layout

/-- The name and the type in the text of a node, neither of them blank. -/
def splitText? (text : String) : Option (Option String × String) :=
  match Text.splitOnce [':', ':'] text.toList with
  | some (name, type) =>
    let name := Text.trimBlank name
    let type := Text.trimBlank type
    if name.isEmpty || type.isEmpty then none
    else some (some (String.ofList name), String.ofList type)
  | none =>
    let type := Text.trimBlank text.toList
    if type.isEmpty then none else some (none, String.ofList type)

/-- A node of the draft. -/
def draftNode (n : LayoutNode) : Except LayoutError DraftNode :=
  match splitText? n.text with
  | none => .error (.badText n.id n.text)
  | some (name, type) =>
    .ok { type, name, branchers := n.pins.map LayoutPin.label, hasInput := n.hasInput }

/-- The nodes of the draft; `seen` holds the identities of the nodes before them. -/
def draftNodes (seen : List Nat) : List LayoutNode → Except LayoutError (List DraftNode)
  | [] => .ok []
  | n :: rest => do
    let node ← draftNode n
    if n.id ∈ seen then throw (.duplicateId n.id)
    let nodes ← draftNodes (n.id :: seen) rest
    pure (node :: nodes)

/-- Every connection, with the node it leaves, the number of that node, and the pin. -/
def wires (l : Layout) : List (LayoutNode × Nat × Nat × LayoutConnection) :=
  l.nodes.zipIdx.flatMap fun (n, i) =>
    n.pins.zipIdx.flatMap fun (pin, k) => pin.connections.map fun c => (n, i, k, c)

/-- The number of the node with an identity. -/
def indexOf? (l : Layout) (id : Nat) : Option Nat := l.nodes.findIdx? fun n => n.id = id

/-- Adds connections to a draft in order. -/
def connectAll (l : Layout) (d : Draft) :
    List (LayoutNode × Nat × Nat × LayoutConnection) → Except LayoutError Draft
  | [] => .ok d
  | (n, i, k, c) :: rest =>
    match l.indexOf? c.target with
    | none => .error (.unknownTarget n.id c.target)
    | some target =>
      match d.connect { source := i, target, pin := k, text := c.text } with
      | .ok d => connectAll l d rest
      | .error e => .error (.draft e)

/-- The program that a layout draws. -/
def toDraft (l : Layout) : Except LayoutError Draft := do
  let nodes ← draftNodes [] l.nodes
  l.connectAll { nodes } l.wires

end Layout

end Dataflow
