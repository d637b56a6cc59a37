import Dataflow.Draft
import Dataflow.Term

/-!
# Typed programs

A program is a graph whose texts have been read. Nodes and arrows are numbered, and each knows the
others by number: a pin lists its arrows, a node lists the arrows that enter it, an arrow names both
its ends. A node that no arrow enters is a root, and one that no arrow leaves is a sink.
-/

namespace Dataflow

structure Pin where
  brancher : Brancher
  /-- The brancher as written. -/
  label : String
  arrows : List Nat
deriving Repr, Inhabited

structure Node where
  ty : Ty
  name : Option String
  hasInput : Bool
  pins : List Pin
  incoming : List Nat
  /-- The type of the sinks that the node reaches, or a variable if there is no such type. -/
  returnType : Ty
deriving Repr, Inhabited

structure Arrow where
  source : Nat
  pin : Nat
  target : Nat
  morphism : Morphism
  /-- The morphism as written. -/
  text : String
deriving Repr, Inhabited

structure Program where
  nodes : List Node
  arrows : List Arrow
deriving Repr, Inhabited

/-- The name of a node in messages. -/
def nodeName (node : Nat) : String := "n" ++ toString node

/-- The name of an arrow in messages. -/
def arrowName (arrow : Nat) : String := "a" ++ toString arrow

namespace Node

def isRoot (n : Node) : Bool := n.incoming.isEmpty

def isSink (n : Node) : Bool := n.pins.all fun pin => pin.arrows.isEmpty

def isBranching (n : Node) : Bool := 1 < n.pins.length

/-- The arrows that leave a node, pin by pin. -/
def outgoing (n : Node) : List Nat := n.pins.flatMap Pin.arrows

/-- The name, if there is one, and the type. -/
def title (n : Node) : String :=
  match n.name with
  | some name => name ++ " :: " ++ n.ty.pretty
  | none => n.ty.pretty

end Node

def Arrow.isPositional (a : Arrow) : Bool := a.morphism.isPositional

namespace Program

/-- A node by number. -/
def node (p : Program) (i : Nat) : Node := p.nodes.getD i default

/-- An arrow by number. -/
def arrow (p : Program) (i : Nat) : Arrow := p.arrows.getD i default

/-- The nodes that no arrow enters. -/
def roots (p : Program) : List Nat :=
  (List.range p.nodes.length).filter fun i => (p.node i).isRoot

/-- The nodes that a node's arrows enter, pin by pin. -/
def successors (p : Program) (i : Nat) : List Nat :=
  (p.node i).outgoing.map fun a => (p.arrow a).target

/-- The first node of a name. -/
def findNamed? (p : Program) (name : String) : Option Nat :=
  (List.range p.nodes.length).find? fun i => (p.node i).name = some name

/-- The graph as drawn, with the types in their canonical spelling. -/
def toDraft (p : Program) : Draft where
  nodes := p.nodes.map fun n =>
    { type := n.ty.pretty
      name := n.name
      branchers := n.pins.map Pin.label
      hasInput := n.hasInput }
  connections := p.arrows.map fun a =>
    { source := a.source, target := a.target, pin := a.pin, text := a.text }

end Program

end Dataflow
