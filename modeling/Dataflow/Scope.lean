import Dataflow.Condition

/-!
# Scopes

A tree of scopes is built from the top: definitions go into the open scopes, and an open scope can
fork into a child for each label or close. Every scope has a path condition. An operation under a
condition concerns the open scopes whose own condition implies it, so what is defined before a fork
is seen behind every branch, and what is defined later for several branches is copied into each.
-/

namespace Dataflow

inductive ScopeError where
  | unclosed (scopes : Nat)
  | emptyBranch (condition : Condition)
deriving DecidableEq, Repr

def ScopeError.message : ScopeError → String
  | .unclosed scopes => s!"{scopes} scope(s) still open at extraction"
  | .emptyBranch condition => "branch under `" ++ condition.render ++ "` has no definitions"

/-- Definitions, and behind them a choice among labelled blocks. -/
inductive Block (δ ℓ : Type) where
  | mk (definitions : List δ) (branches : List (ℓ × Block δ ℓ))
deriving Repr, Inhabited

namespace Block

variable {δ ℓ : Type}

def definitions : Block δ ℓ → List δ
  | .mk ds _ => ds

def branches : Block δ ℓ → List (ℓ × Block δ ℓ)
  | .mk _ bs => bs

def isEmpty (b : Block δ ℓ) : Bool := b.definitions.isEmpty && b.branches.isEmpty

end Block

/-- Scopes while they are built. A scope that forked or closed is no longer open. -/
inductive ScopeTree (δ ℓ : Type) where
  | mk (condition : Condition) (definitions : List δ) (isOpen : Bool)
      (children : List (ℓ × ScopeTree δ ℓ))
deriving Repr, Inhabited

namespace ScopeTree

variable {δ ℓ : Type}

def condition : ScopeTree δ ℓ → Condition
  | .mk c _ _ _ => c

/-- An open scope with nothing in it. -/
def fresh (c : Condition) : ScopeTree δ ℓ := .mk c [] true []

mutual

/-- How many open scopes satisfy a test of their condition. -/
def count (p : Condition → Bool) : ScopeTree δ ℓ → Nat
  | .mk c _ isOpen children => (if isOpen && p c then 1 else 0) + countList p children
termination_by structural t => t

def countList (p : Condition → Bool) : List (ℓ × ScopeTree δ ℓ) → Nat
  | [] => 0
  | (_, t) :: rest => count p t + countList p rest
termination_by structural ts => ts

end

mutual

/-- Changes the open scopes whose condition implies `c`. -/
def update (c : Condition) (f : Condition → List δ → ScopeTree δ ℓ) :
    ScopeTree δ ℓ → ScopeTree δ ℓ
  | .mk own ds isOpen children =>
    if isOpen && own.implies c then f own ds
    else .mk own ds isOpen (updateList c f children)
termination_by structural t => t

def updateList (c : Condition) (f : Condition → List δ → ScopeTree δ ℓ) :
    List (ℓ × ScopeTree δ ℓ) → List (ℓ × ScopeTree δ ℓ)
  | [] => []
  | (l, t) :: rest => (l, update c f t) :: updateList c f rest
termination_by structural ts => ts

end

mutual

/-- The finished tree, in which every branch has something in it. -/
def toBlock : ScopeTree δ ℓ → Except ScopeError (Block δ ℓ)
  | .mk _ ds _ children =>
    match toBlocks children with
    | .ok branches => .ok (.mk ds branches)
    | .error e => .error e
termination_by structural t => t

def toBlocks : List (ℓ × ScopeTree δ ℓ) → Except ScopeError (List (ℓ × Block δ ℓ))
  | [] => .ok []
  | (l, t) :: rest =>
    match toBlock t with
    | .error e => .error e
    | .ok b =>
      if b.isEmpty then .error (.emptyBranch t.condition)
      else
        match toBlocks rest with
        | .ok bs => .ok ((l, b) :: bs)
        | .error e => .error e
termination_by structural ts => ts

end

end ScopeTree

/-- A tree of scopes and the number of the next branch. -/
structure ScopeBuilder (δ ℓ : Type) where
  tree : ScopeTree δ ℓ
  /-- The number of the next branch; a count without a bound. -/
  nextVar : Nat
deriving Repr, Inhabited

namespace ScopeBuilder

variable {δ ℓ : Type}

/-- One open scope, which is always reached. -/
def start : ScopeBuilder δ ℓ := ⟨.fresh .always, 1⟩

/-- How many open scopes an operation under `c` concerns. -/
def receiving (b : ScopeBuilder δ ℓ) (c : Condition) : Nat := b.tree.count fun own => own.implies c

def openScopes (b : ScopeBuilder δ ℓ) : Nat := b.tree.count fun _ => true

/-- Adds a definition to the scopes concerned. -/
def define (b : ScopeBuilder δ ℓ) (c : Condition) (d : δ) : ScopeBuilder δ ℓ :=
  { b with tree := b.tree.update c fun own ds => .mk own (ds ++ [d]) true [] }

/-- The variables of the branches of the next fork. -/
def branchVars (b : ScopeBuilder δ ℓ) (labels : List ℓ) : List (ℓ × Int) :=
  labels.zipIdx.map fun (l, i) => (l, ((b.nextVar + i : Nat) : Int))

/-- Forks the scopes concerned, with a new variable for each branch. -/
def fork (b : ScopeBuilder δ ℓ) (c : Condition) (labels : List ℓ) : ScopeBuilder δ ℓ :=
  let branches := b.branchVars labels
  { tree := b.tree.update c fun own ds =>
      .mk own ds false (branches.map fun (l, k) => (l, .fresh (own.and (.literal k))))
    nextVar := b.nextVar + labels.length }

/-- The conditions under which the branches of the next fork are taken. -/
def branchConditions (b : ScopeBuilder δ ℓ) (c : Condition) (labels : List ℓ) : List Condition :=
  (b.branchVars labels).map fun (_, k) => c.and (.literal k)

/-- Closes the scopes concerned. -/
def close (b : ScopeBuilder δ ℓ) (c : Condition) : ScopeBuilder δ ℓ :=
  { b with tree := b.tree.update c fun own ds => .mk own ds false [] }

/-- The blocks, once nothing is open. -/
def extract (b : ScopeBuilder δ ℓ) : Except ScopeError (Block δ ℓ) :=
  match b.openScopes with
  | 0 => b.tree.toBlock
  | n => .error (.unclosed n)

end ScopeBuilder

end Dataflow
