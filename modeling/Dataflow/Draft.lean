import Dataflow.TypingError

/-!
# Drawn graphs

A draft is a program as an editor draws it: nodes and connections whose types, branchers and
morphisms are still text.
-/

namespace Dataflow

structure DraftNode where
  /-- The text of the node's type. -/
  type : String
  name : Option String
  /-- One text for every output pin. -/
  branchers : List String
  hasInput : Bool
deriving DecidableEq, Repr, Inhabited

/-- An arrow from an output pin of one node to the input of another. -/
structure Connection where
  source : Nat
  target : Nat
  pin : Nat
  /-- The text of the arrow's morphism. -/
  text : String
deriving DecidableEq, Repr

structure Draft where
  nodes : List DraftNode := []
  connections : List Connection := []
deriving DecidableEq, Repr

namespace Draft

/-- Adds a node. Nodes are numbered in the order in which they are added. -/
def addNode (d : Draft) (node : DraftNode) : Draft × Nat :=
  ({ d with nodes := d.nodes ++ [node] }, d.nodes.length)

/-- A connection needs a pin of a node to leave from and a node with an input to enter. -/
def check (d : Draft) (c : Connection) : Except DraftError Unit :=
  match d.nodes[c.source]? with
  | none => .error (.unknownNode c.source)
  | some source =>
    if source.branchers.length ≤ c.pin then
      .error (.pinOutOfRange c.source c.pin source.branchers.length)
    else
      match d.nodes[c.target]? with
      | none => .error (.unknownNode c.target)
      | some target => if target.hasInput then .ok () else .error (.noInput c.target)

/-- Adds a connection that fits. -/
def connect (d : Draft) (c : Connection) : Except DraftError Draft :=
  match d.check c with
  | .ok _ => .ok { d with connections := d.connections ++ [c] }
  | .error e => .error e

/-- The connections that leave a node, in the order in which they were added. -/
def outgoing (d : Draft) (node : Nat) : List Connection :=
  d.connections.filter fun c => c.source = node

/-- The nodes that a node's connections enter. -/
def successors (d : Draft) (node : Nat) : List Nat :=
  (d.outgoing node).map Connection.target

/-- Whether a connection enters a node. -/
def isTargeted (d : Draft) (node : Nat) : Bool :=
  d.connections.any fun c => c.target = node

/-- Refuses the first connection that does not fit. -/
def checkAll (d : Draft) : List Connection → Except DraftError Unit
  | [] => .ok ()
  | c :: rest =>
    match d.check c with
    | .ok _ => checkAll d rest
    | .error e => .error e

end Draft

end Dataflow
