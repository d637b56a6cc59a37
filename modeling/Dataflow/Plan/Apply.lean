import Dataflow.Morphism.Build
import Dataflow.Plan.Basic

/-!
# Morphisms as expressions

A morphism can be called with inputs, which fill its open parameters from the left, or stand as a
value, a function if it has open parameters. On an arrow or in a guard it is applied to the variable
of a node; a tuple fills as many parameters as it has components.
-/

namespace Dataflow

namespace Morphism

/-- The identity as a function. -/
def identityExpr : Expr := .call "id" 1 [none]

/-- Arguments for the given positions: the bound ones in their places, and the inputs, as long as
there are any, in the others. -/
def fill (bound : List (Nat × Expr)) : List Nat → List Expr → List (Option Expr)
  | [], _ => []
  | i :: rest, inputs =>
    match Assoc.get? i bound, inputs with
    | some e, inputs => some e :: fill bound rest inputs
    | none, e :: inputs => some e :: fill bound rest inputs
    | none, [] => none :: fill bound rest []

mutual

/-- The morphism called with inputs. -/
def call : Morphism → List Expr → Expr
  | .named name params _, inputs => .call name params.length (inputs.map some)
  | .literal l, _ => .lit l
  | .slot _, inputs => inputs.head?.getD identityExpr
  | .tuple parts _ _, inputs => .tuple (callParts parts inputs)
  | .bound base bindings _ _, inputs =>
    let args := fill (valueBindings bindings) (List.range base.arity) inputs
    match base with
    | .named name params _ => .call name params.length args
    | base => call base (args.filterMap id)
termination_by structural f => f

/-- The parts of a tuple, each called with the inputs that the tuple got. -/
def callParts : List Morphism → List Expr → List Expr
  | [], _ => []
  | f :: fs, inputs =>
    (if f.arity = 0 then value f else call f inputs) :: callParts fs inputs
termination_by structural fs => fs

/-- The morphism as a value. -/
def value : Morphism → Expr
  | .named name params _ => .call name params.length (params.map fun _ => none)
  | .literal l => .lit l
  | .slot _ => identityExpr
  | .tuple parts [] _ => .tuple (valueParts parts)
  | .tuple parts (_ :: _) _ => .lambda "arg" (.tuple (callParts parts [.var "arg"]))
  | .bound base bindings _ _ =>
    let args := fill (valueBindings bindings) (List.range base.arity) []
    match base with
    | .named name params _ => .call name params.length args
    | base => call base (args.filterMap id)
termination_by structural f => f

def valueParts : List Morphism → List Expr
  | [] => []
  | f :: fs => value f :: valueParts fs
termination_by structural fs => fs

def valueBindings : List (Nat × Morphism) → List (Nat × Expr)
  | [] => []
  | (i, f) :: rest => (i, value f) :: valueBindings rest
termination_by structural fs => fs

end

/-- Matches parameters against the components of a tuple, one by one. -/
def matchComponents (s : Subst) : List Ty → List Ty → Except MatchError Subst
  | param :: params, ty :: tys =>
    match (param.matching ty).bind s.merge with
    | .ok s => matchComponents s params tys
    | .error e => .error e
  | _, _ => .ok s

/-- The substitution under which a tuple fills all parameters, of which there are at least two. -/
def spread? (params : List Ty) (ty : Ty) : Option Subst :=
  match ty with
  | .tuple items =>
    if 2 ≤ params.length ∧ params.length = items.length then
      (matchComponents .empty params items).toOption
    else none
  | _ => none

/-- The morphism applied to the variable `var` of type `ty`, with the type that comes out. -/
def applyTo (f : Morphism) (var : String) (ty : Ty) : Except MatchError (Expr × Ty) :=
  match f with
  | .slot _ => .ok (.var var, ty)
  | f =>
    match f.params with
    | [] => .ok (f.value, f.result)
    | param :: params =>
      match spread? (param :: params) ty with
      | some s =>
        let args := (List.range (params.length + 1)).map fun k => Expr.var (componentVar var k)
        .ok (f.call args, s.apply f.result)
      | none =>
        match param.matching ty with
        | .ok s => .ok (f.call [.var var], s.apply f.target)
        | .error e => .error e

end Morphism

end Dataflow
