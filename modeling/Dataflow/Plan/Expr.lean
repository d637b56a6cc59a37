import Dataflow.Literal.Basic

/-!
# Expressions of a plan

A call gives arguments in the order of the parameters. A hole among them, or an argument missing at
the end, leaves a parameter open and makes the call a function.
-/

namespace Dataflow

inductive Expr where
  | var (name : String)
  | lit (l : Literal)
  | call (func : String) (arity : Nat) (args : List (Option Expr))
  | tuple (items : List Expr)
  | lambda (param : String) (body : Expr)
deriving Repr, Inhabited

namespace Expr

/-- How many parameters a call leaves open. -/
def missing : Expr → Nat
  | .call _ arity args => args.countP Option.isNone + (arity - args.length)
  | _ => 0

mutual

/-- Equality, in which numbers with a point compare as numbers. -/
def beq : Expr → Expr → Bool
  | .var x, .var y => x == y
  | .lit a, .lit b => a == b
  | .call f n as, .call g m bs => f == g && n == m && beqArgs as bs
  | .tuple as, .tuple bs => beqList as bs
  | .lambda x a, .lambda y b => x == y && beq a b
  | _, _ => false
termination_by structural e => e

def beqArgs : List (Option Expr) → List (Option Expr) → Bool
  | [], [] => true
  | none :: as, none :: bs => beqArgs as bs
  | some a :: as, some b :: bs => beq a b && beqArgs as bs
  | _, _ => false
termination_by structural as => as

def beqList : List Expr → List Expr → Bool
  | [], [] => true
  | a :: as, b :: bs => beq a b && beqList as bs
  | _, _ => false
termination_by structural as => as

end

instance : BEq Expr := ⟨beq⟩

mutual

/-- The expression as text. -/
def render : Expr → String
  | .var name => name
  | .lit l => l.render
  | .call func _ args => func ++ "(" ++ ", ".intercalate (renderArgs args) ++ ")"
  | .tuple items => "(" ++ ", ".intercalate (renderList items) ++ ")"
  | .lambda param body => "\\" ++ param ++ " -> " ++ render body
termination_by structural e => e

/-- The arguments of a call; a hole is an underscore. -/
def renderArgs : List (Option Expr) → List String
  | [] => []
  | none :: rest => "_" :: renderArgs rest
  | some e :: rest => render e :: renderArgs rest
termination_by structural es => es

def renderList : List Expr → List String
  | [] => []
  | e :: rest => render e :: renderList rest
termination_by structural es => es

end

end Expr

end Dataflow
