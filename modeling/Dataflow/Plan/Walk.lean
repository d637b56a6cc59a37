import Dataflow.Plan.Apply
import Dataflow.Program.Typing

/-!
# Planning

A program is divided into functions: one for each named root, and a main function for the roots
without a name. Each function is walked from its roots. A node is visited once all arrows into it
have been followed; nodes with several pins wait until no other node is ready, so that a fork is
opened only when nothing is left to do before it. Following an arrow defines the variable of its
target under the condition of the pin it leaves, and a sink gives the result and closes its scopes.
-/

namespace Dataflow

/-- A place in a program at which types have to agree. -/
inductive TypeSite where
  | result (function : String) (node : Nat)
  | guard (test : String) (node : Nat)
  | pattern (pattern : Pattern) (node : Nat)
  | slot (text : String) (node : Nat)
  | arrow (text : String) (source target : Nat)
deriving Repr

def TypeSite.describe : TypeSite → String
  | .result function node => "result of `" ++ function ++ "` at " ++ nodeName node
  | .guard test node => "guard `" ++ test ++ "` on " ++ nodeName node
  | .pattern p node => "pattern `" ++ p.render ++ "` on " ++ nodeName node
  | .slot text node => "`" ++ text ++ "` into " ++ nodeName node
  | .arrow text source target =>
    "`" ++ text ++ "` from " ++ nodeName source ++ " to " ++ nodeName target

inductive PlanError where
  | typing (site : TypeSite) (cause : MatchError)
  | brancherArity (node expected found : Nat)
  | nonExhaustive (node : Nat)
  | danglingPin (node pin : Nat)
  | sharedNode (node : Nat) (first second : String)
  | orphan (node : Nat)
  | ambiguousJoin (node : Nat)
  | mainInput (node : Nat) (found : Ty)
  | scope (function : String) (cause : ScopeError)
deriving Repr

def PlanError.message : PlanError → String
  | .typing site cause => "cannot type " ++ site.describe ++ ": " ++ cause.message
  | .brancherArity node expected found =>
    s!"node n{node}: brancher has {found} component(s), the node type has {expected}"
  | .nonExhaustive node => s!"node n{node}: the last pin must match every value"
  | .danglingPin node pin => s!"node n{node}: pin {pin} leads nowhere"
  | .sharedNode node first second =>
    s!"node n{node} is reachable from both `{first}` and `{second}`"
  | .orphan node => s!"node n{node} is defined where no scope is open"
  | .ambiguousJoin node => s!"node n{node} joins inputs that can hold at the same time"
  | .mainInput node found => s!"unnamed root n{node} has type {found.pretty}, expected ()"
  | .scope function cause => s!"in `{function}`: {cause.message}"

/-! ## Functions -/

/-- A function before it is walked. -/
structure Seed where
  name : String
  roots : List Nat
  /-- The root that is the parameter; the main function has none. -/
  param : Option Nat
deriving DecidableEq, Repr

namespace Program

/-- The functions of the named roots among `roots`, and the roots without a name. -/
def splitRoots (p : Program) : List Nat → Except PlanError (List Seed × List Nat)
  | [] => .ok ([], [])
  | i :: rest =>
    match (p.node i).name with
    | some name => do
      let (seeds, unnamed) ← splitRoots p rest
      pure (⟨name, [i], some i⟩ :: seeds, unnamed)
    | none =>
      if (p.node i).ty = .unit then do
        let (seeds, unnamed) ← splitRoots p rest
        pure (seeds, i :: unnamed)
      else .error (.mainInput i (p.node i).ty)

/-- The nodes that a function's roots reach. -/
def reachOf (p : Program) (s : Seed) : List Nat :=
  reach p.successors p.arrows.length s.roots

/-- Refuses a node that two functions reach; `before` holds the functions already looked at, with
what they reach. -/
def checkShared (p : Program) (before : List (Seed × List Nat)) :
    List Seed → Except PlanError Unit
  | [] => .ok ()
  | s :: rest =>
    let nodes := p.reachOf s
    let shared := nodes.findSome? fun i =>
      (before.find? fun owner => i ∈ owner.2).map fun owner => (i, owner.1.name)
    match shared with
    | some (i, first) => .error (.sharedNode i first s.name)
    | none => checkShared p (before ++ [(s, nodes)]) rest

/-- The functions of a program. -/
def seeds (p : Program) : Except PlanError (List Seed) := do
  let (named, unnamed) ← p.splitRoots p.roots
  let seeds := if unnamed.isEmpty then named else named ++ [⟨mainName, unnamed, none⟩]
  p.checkShared [] seeds
  pure seeds

end Program

/-! ## Branches -/

mutual

/-- A pattern fits the type of the value it is matched against. -/
def Pattern.check (node : Nat) : Pattern → Ty → Except PlanError Unit
  | .any, _ => .ok ()
  | .value l, ty =>
    match ty.matching l.ty with
    | .ok _ => .ok ()
    | .error e => .error (.typing (.pattern (.value l) node) e)
  | .tuple ps, ty =>
    match ty with
    | .tuple tys =>
      if tys.length = ps.length then checkList node ps tys
      else .error (.brancherArity node tys.length ps.length)
    | _ => .error (.brancherArity node 1 ps.length)
termination_by structural p => p

def Pattern.checkList (node : Nat) : List Pattern → List Ty → Except PlanError Unit
  | p :: ps, ty :: tys =>
    match check node p ty with
    | .ok _ => checkList node ps tys
    | .error e => .error e
  | _, _ => .ok ()
termination_by structural ps => ps

end

/-- The label of a branch at a node. -/
def Brancher.label (node : Nat) (ty : Ty) : Brancher → Except PlanError BranchLabel
  | .any => .ok .otherwise
  | .pattern p =>
    match p.check node ty with
    | .ok _ => .ok (.pattern (nodeVar node) p ty)
    | .error e => .error e
  | .guard test =>
    match test.applyTo (nodeVar node) ty with
    | .error e => .error (.typing (.guard test.render node) e)
    | .ok (expr, out) =>
      match out.matching .bool with
      | .ok _ => .ok (.guard expr)
      | .error e => .error (.typing (.guard test.render node) e)

/-- The labels of the pins of a node, numbered from `k`. A pin without arrows leads nowhere. -/
def pinLabels (node : Nat) (ty : Ty) : (k : Nat) → List Pin → Except PlanError (List BranchLabel)
  | _, [] => .ok []
  | k, pin :: pins =>
    if pin.arrows.isEmpty then .error (.danglingPin node k)
    else do
      let label ← pin.brancher.label node ty
      let labels ← pinLabels node ty (k + 1) pins
      pure (label :: labels)

/-! ## The walk -/

/-- How far the walk of a function has come. -/
structure Walk where
  scopes : ScopeBuilder Step BranchLabel := .start
  /-- Nodes that are ready, with their conditions. -/
  ready : List (Nat × Condition) := []
  /-- Nodes with several pins that are ready. -/
  forks : List (Nat × Condition) := []
  /-- The arrows followed, with the conditions of the pins they leave. -/
  followed : List (Nat × Condition) := []
  resultType : Option Ty := none
deriving Repr

namespace Walk

/-- Puts a node into the queue it waits in. -/
def enqueue (p : Program) (w : Walk) (node : Nat) (c : Condition) : Walk :=
  if (p.node node).isBranching then { w with forks := w.forks ++ [(node, c)] }
  else { w with ready := w.ready ++ [(node, c)] }

/-- The next node to visit. -/
def next? (w : Walk) : Option ((Nat × Condition) × Walk) :=
  match w.ready, w.forks with
  | item :: rest, _ => some (item, { w with ready := rest })
  | [], item :: rest => some (item, { w with forks := rest })
  | [], [] => none

/-- The arrows into a node that have been followed. -/
def arrivals (p : Program) (w : Walk) (node : Nat) : List (Nat × Condition) :=
  w.followed.filter fun a => (p.arrow a.1).target = node

def addStep (w : Walk) (c : Condition) (step : Step) : Walk :=
  { w with scopes := w.scopes.define c step }

/-- Names the components of a node whose value is a tuple. -/
def unpack (p : Program) (w : Walk) (node : Nat) (c : Condition) : Walk :=
  match (p.node node).ty with
  | .tuple items =>
    let vars := (List.range items.length).map (componentVar (nodeVar node))
    w.addStep c (.unpack (nodeVar node) vars (.tuple items))
  | _ => w

/-- Binds the variable of a node. -/
def define (p : Program) (w : Walk) (node : Nat) (c : Condition) (expr : Expr) :
    Except PlanError Walk :=
  if w.scopes.receiving c = 0 then .error (.orphan node)
  else .ok ((w.addStep c (.bind (nodeVar node) (p.node node).ty expr)).unpack p node c)

end Walk

/-- The value that an arrow brings to its target. -/
def Program.arrowExpr (p : Program) (a : Arrow) : Except PlanError Expr :=
  let site := TypeSite.arrow a.text a.source a.target
  match a.morphism.applyTo (nodeVar a.source) (p.node a.source).ty with
  | .error e => .error (.typing site e)
  | .ok (expr, out) =>
    match out.matching (p.node a.target).ty with
    | .ok _ => .ok expr
    | .error e => .error (.typing site e)

/-- The components of an intersection, by slot. -/
def Program.slotExprs (p : Program) (node : Nat) (slots : List (Nat × Expr)) :
    List Arrow → Except PlanError (List (Nat × Expr))
  | [] => .ok slots
  | a :: rest =>
    match a.morphism with
    | .slot (some slot) =>
      let expected := (p.node node).ty.components.getD slot .unit
      match expected.matching (p.node a.source).ty with
      | .ok _ => slotExprs p node (Assoc.insert slot (.var (nodeVar a.source)) slots) rest
      | .error e => .error (.typing (.slot a.text node) e)
    | _ => slotExprs p node slots rest

namespace Walk

/-- All arrows into a node have been followed: an intersection is built under the conjunction of
their conditions, and any other node is reached under the disjunction. -/
def arrive (p : Program) (w : Walk) (node : Nat) : Except PlanError Walk := do
  let arrivals := w.arrivals p node
  let conditions := arrivals.map (·.2)
  if arrivals.any fun a => (p.arrow a.1).isPositional then
    let c := conditions.foldl .and .always
    let slots ← p.slotExprs node [] (arrivals.map fun a => p.arrow a.1)
    let w ← w.define p node c (.tuple (slots.map (·.2)))
    pure (w.enqueue p node c)
  else
    let c := conditions.tail.foldl .or (conditions.head?.getD .always)
    pure (w.enqueue p node c)

/-- Binds the target of an arrow that is not positional. Two arrows into one node must not hold at
the same time. -/
def bindTarget (p : Program) (w : Walk) (a : Arrow) (c : Condition) : Except PlanError Walk :=
  if (w.arrivals p a.target).any fun b => b.2.implies c || c.implies b.2 then
    .error (.ambiguousJoin a.target)
  else
    match p.arrowExpr a with
    | .ok expr => w.define p a.target c expr
    | .error e => .error e

/-- Follows an arrow. -/
def follow (p : Program) (w : Walk) (arrow : Nat) (c : Condition) : Except PlanError Walk := do
  let a := p.arrow arrow
  let w ← if a.isPositional then pure w else w.bindTarget p a c
  let w := { w with followed := w.followed ++ [(arrow, c)] }
  if (w.arrivals p a.target).length = (p.node a.target).incoming.length then w.arrive p a.target
  else pure w

/-- Follows arrows in order. -/
def followAll (p : Program) (w : Walk) : List (Nat × Condition) → Except PlanError Walk
  | [] => .ok w
  | (arrow, c) :: rest =>
    match w.follow p arrow c with
    | .ok w => followAll p w rest
    | .error e => .error e

/-- A sink gives the result of the function. All sinks have one type. -/
def sink (p : Program) (function : String) (w : Walk) (node : Nat) (c : Condition) :
    Except PlanError Walk :=
  let ty := (p.node node).ty
  let found := w.resultType.getD ty
  if found ≠ ty then .error (.typing (.result function node) (.mismatch found ty))
  else if w.scopes.receiving c = 0 then .error (.orphan node)
  else
    let scopes := (w.scopes.define c (.result (.var (nodeVar node)))).close c
    .ok { w with scopes, resultType := some ty }

/-- Opens the branches of a node, and says under which condition each pin is left. -/
def branch (p : Program) (w : Walk) (node : Nat) (c : Condition) :
    Except PlanError (Walk × List Condition) := do
  let n := p.node node
  if n.isBranching then
    let labels ← pinLabels node n.ty 0 n.pins
    if n.pins.getLast?.any fun pin => pin.brancher.isIrrefutable then
      pure ({ w with scopes := w.scopes.fork c labels }, w.scopes.branchConditions c labels)
    else .error (.nonExhaustive node)
  else pure (w, n.pins.map fun _ => c)

/-- Visits a node. -/
def visit (p : Program) (function : String) (w : Walk) (node : Nat) (c : Condition) :
    Except PlanError Walk := do
  let n := p.node node
  if n.isSink then w.sink p function node c
  else
    let (w, conditions) ← w.branch p node c
    w.followAll p ((n.pins.zip conditions).flatMap fun (pin, c) => pin.arrows.map fun a => (a, c))

/-- Visits nodes while there are any; no node is visited twice, so their number bounds the visits. -/
def run (p : Program) (function : String) : (fuel : Nat) → Walk → Except PlanError Walk
  | 0, w => .ok w
  | fuel + 1, w =>
    match w.next? with
    | none => .ok w
    | some ((node, c), w) =>
      match w.visit p function node c with
      | .ok w => run p function fuel w
      | .error e => .error e

/-- The walk at the roots: the roots of the main function hold the unit value, and the parameter of
any other function is there already. -/
def atRoots (p : Program) (s : Seed) : List Nat → Walk → Walk
  | [], w => w
  | i :: rest, w =>
    let w :=
      match s.param with
      | none => w.addStep .always (.bind (nodeVar i) (p.node i).ty (.lit .unit))
      | some _ => w.unpack p i .always
    atRoots p s rest (w.enqueue p i .always)

end Walk

namespace Program

/-- The plan of one function. -/
def planFunction (p : Program) (s : Seed) : Except PlanError FunctionPlan := do
  let w ← Walk.run p s.name p.nodes.length (Walk.atRoots p s s.roots {})
  match w.scopes.extract with
  | .error e => .error (.scope s.name e)
  | .ok body =>
    pure
      { name := s.name
        param := s.param.map nodeVar
        paramType := s.param.elim .unit fun i => (p.node i).ty
        resultType := w.resultType.getD .unit
        body }

/-- Plans functions in order. -/
def planFunctions (p : Program) : List Seed → Except PlanError (List FunctionPlan)
  | [] => .ok []
  | s :: rest =>
    match p.planFunction s with
    | .error e => .error e
    | .ok f =>
      match planFunctions p rest with
      | .ok fs => .ok (f :: fs)
      | .error e => .error e

/-- The plan of a program. -/
def plan (p : Program) : Except PlanError ProgramPlan := do
  let seeds ← p.seeds
  let functions ← p.planFunctions seeds
  pure { functions }

end Program

end Dataflow
