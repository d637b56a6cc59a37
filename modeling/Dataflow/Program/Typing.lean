import Dataflow.Program.Basic
import Dataflow.Reach

/-!
# From drawn graphs to typed programs

Node types are read first. Each node then gets the type of the sinks it reaches, and a named node
that takes no input becomes a function from its own type to that type, which the texts of the graph
may name. Branchers and arrows are read last, and the inputs of an intersection must fill each slot
of its tuple once.
-/

namespace Dataflow

variable {m : Type → Type} [Monad m]

/-- What a name in type text means, applied to arguments. A name that begins in lower case is a
variable. -/
def Ty.meaning (find : Resolver m) (text name : String) (args : List Ty) :
    ExceptT TypingError m Ty := do
  if TyExpr.startsLower name then return .var name
  match ← find name with
  | none => throw (.unresolvedType name text)
  | some ⟨.type, ty⟩ =>
    match args, ty with
    | [], ty => pure ty
    | args, .con head [] => pure (.con head args)
    | _, _ =>
      throw (.read (ReadError.within { message := "type `" ++ name ++ "` takes no arguments" } text))
  | some ⟨kind, _⟩ => throw (.wrongKind name kind)

/-- Reads type text whose names have the meaning that the resolver gives them. -/
def Ty.read (find : Resolver m) (text : String) : ExceptT TypingError m Ty :=
  match TyExpr.read text with
  | .ok e => e.resolve (Ty.meaning find text)
  | .error e => throw (.read e)

namespace Draft

/-- The types of the sinks that a node reaches. -/
def sinkTypes (d : Draft) (types : List Ty) (node : Nat) : List Ty :=
  ((reach d.successors d.connections.length [node]).filter fun i =>
    (d.successors i).isEmpty).map fun i => types.getD i .unit

/-- The one type of the sinks that a node reaches; a variable named after the node if there is no
sink, or if they differ. -/
def returnType (d : Draft) (types : List Ty) (node : Nat) : Ty :=
  match d.sinkTypes types node with
  | [] => .var ("r" ++ toString node)
  | t :: rest => if rest.all (· = t) then t else .var ("r" ++ toString node)

/-- The functions that a graph defines: its named nodes without input. -/
def functions (d : Draft) (types : List Ty) : SymbolTable :=
  ⟨Assoc.ofList (d.nodes.zipIdx.filterMap fun (node, i) =>
    match node.name with
    | some name =>
      if !node.hasInput && !d.isTargeted i then
        some (name, ⟨.function, .func (types.getD i .unit) (d.returnType types i)⟩)
      else none
    | none => none)⟩

/-- The numbers of the connections with a property. -/
def arrowsWhere (d : Draft) (p : Connection → Bool) : List Nat :=
  (d.connections.zipIdx.filter fun c => p c.1).map (·.2)

/-- Reads the branchers of a node. A single pin is taken whatever its text says. -/
def readPins (d : Draft) (find : Resolver m) (i : Nat) (node : DraftNode) :
    ExceptT TypingError m (List Pin) :=
  node.branchers.zipIdx.mapM fun (label, k) => do
    let brancher ← if node.branchers.length = 1 then pure .any else Brancher.read find label
    pure { brancher, label, arrows := d.arrowsWhere fun c => c.source = i && c.pin = k }

def readNode (d : Draft) (find : Resolver m) (types : List Ty) (i : Nat) (node : DraftNode) :
    ExceptT TypingError m Node := do
  let pins ← d.readPins find i node
  pure
    { ty := types.getD i .unit
      name := node.name
      hasInput := node.hasInput
      pins
      incoming := d.arrowsWhere fun c => c.target = i
      returnType := d.returnType types i }

def readArrow (find : Resolver m) (c : Connection) : ExceptT TypingError m Arrow := do
  let morphism ← Morphism.read find c.text
  pure { source := c.source, pin := c.pin, target := c.target, morphism, text := c.text }

end Draft

/-- Refuses a slot that is out of range or filled before; `filled` holds the slots so far. -/
def fillSlots (ty : Ty) (filled : List Nat) : List Nat → Except SlotFault Nat
  | [] => .ok filled.length
  | slot :: rest =>
    if ty.components.length ≤ slot then .error (.outOfRange slot ty)
    else if slot ∈ filled then .error (.filledTwice slot)
    else fillSlots ty (filled ++ [slot]) rest

namespace Program

/-- The slots that the arrows into a node fill. -/
def slots (p : Program) (n : Node) : List Nat :=
  n.incoming.filterMap fun a => (p.arrow a).morphism.slot?.join

/-- The inputs of a node are all positional, and then fill every slot once, or none is. -/
def checkNode (p : Program) (i : Nat) (n : Node) : Except TypingError Unit :=
  let slots := p.slots n
  if slots.isEmpty then .ok ()
  else if slots.length ≠ n.incoming.length then .error (.mixedPositional i)
  else
    match fillSlots n.ty [] slots with
    | .error fault => .error (.badPosition i fault)
    | .ok filled =>
      let arity := n.ty.components.length
      if filled ≠ arity then .error (.badPosition i (.missing filled arity)) else .ok ()

/-- Refuses the first node whose inputs do not fit. -/
def checkNodes (p : Program) : List (Node × Nat) → Except TypingError Unit
  | [] => .ok ()
  | (n, i) :: rest =>
    match p.checkNode i n with
    | .ok _ => checkNodes p rest
    | .error e => .error e

/-- Reads a drawn graph. -/
def ofDraft (find : Resolver m) (d : Draft) : ExceptT TypingError m Program := do
  match d.checkAll d.connections with
  | .error e => throw (.draft e)
  | .ok _ =>
    let types ← d.nodes.mapM fun node => Ty.read find node.type
    let find := (d.functions types).shadowing find
    let nodes ← d.nodes.zipIdx.mapM fun (node, i) => d.readNode find types i node
    let arrows ← d.connections.mapM (Draft.readArrow find)
    let p : Program := ⟨nodes, arrows⟩
    match p.checkNodes p.nodes.zipIdx with
    | .ok _ => pure p
    | .error e => throw e

end Program

end Dataflow
