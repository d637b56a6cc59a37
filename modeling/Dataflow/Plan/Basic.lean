import Dataflow.Pattern
import Dataflow.Plan.Expr
import Dataflow.Scope

/-!
# Plans

A plan is a program as a list of functions. The body of a function is a tree of blocks, whose steps
bind a variable for each node and whose branches are chosen by the value of a node. Plans are what
the renderers write out and what the evaluator runs.
-/

namespace Dataflow

inductive Step where
  | bind (var : String) (ty : Ty) (expr : Expr)
  /-- Names the components of a tuple. -/
  | unpack (tuple : String) (vars : List String) (ty : Ty)
  /-- Gives the function's result. -/
  | result (expr : Expr)
deriving Repr, Inhabited

/-- When a branch is taken. -/
inductive BranchLabel where
  | otherwise
  | pattern (subject : String) (pattern : Pattern) (ty : Ty)
  | guard (test : Expr)
deriving Repr, Inhabited

/-- Taken for every value. -/
def BranchLabel.isIrrefutable : BranchLabel → Bool
  | .otherwise => true
  | .pattern _ p _ => p.isIrrefutable
  | .guard _ => false

abbrev Body := Block Step BranchLabel

structure FunctionPlan where
  name : String
  /-- The parameter; the main function has none. -/
  param : Option String
  paramType : Ty
  resultType : Ty
  body : Body
deriving Repr, Inhabited

def FunctionPlan.isMain (f : FunctionPlan) : Bool := f.param.isNone

structure ProgramPlan where
  functions : List FunctionPlan
  /-- What the rendered source includes or links. -/
  libraries : List String := []
  /-- The modules that the rendered source imports. -/
  imports : List String := []
deriving Repr, Inhabited

namespace ProgramPlan

/-- The first function of a name. -/
def function? (p : ProgramPlan) (name : String) : Option FunctionPlan :=
  p.functions.find? fun f => f.name = name

def main? (p : ProgramPlan) : Option FunctionPlan :=
  p.functions.find? FunctionPlan.isMain

end ProgramPlan

/-- The name of the main function. -/
def mainName : String := "main"

/-- The variable of a node. -/
def nodeVar (node : Nat) : String := "v" ++ toString node

/-- The variable of a component of a tuple. -/
def componentVar (tuple : String) (k : Nat) : String := tuple ++ "_" ++ toString k

end Dataflow
