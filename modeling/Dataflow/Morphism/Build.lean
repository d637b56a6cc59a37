import Dataflow.Morphism.Render
import Dataflow.Ty.Subst

/-!
# Building morphisms

Named functions and values, tuples that share one input, and partial application. Binding an
argument matches the parameter against the argument's type and specialises the other parameters
and the result. Binding a partial application again extends its bindings, so a base is never
itself a partial application.
-/

namespace Dataflow

inductive BindError where
  /-- No argument is for a parameter that is still open. -/
  | emptyBinding (morphism : String)
  | argument (morphism : String) (index : Nat) (cause : MatchError)
  /-- A part of a tuple refuses the input that the parts share. -/
  | tupleSource (component : String) (cause : MatchError)
deriving DecidableEq, Repr

namespace BindError

def message : BindError → String
  | .emptyBinding morphism => "binding of `" ++ morphism ++ "` supplies no parameter it accepts"
  | .argument morphism index cause =>
    "argument " ++ toString index ++ " of `" ++ morphism ++ "`: " ++ cause.message
  | .tupleSource component cause =>
    "tuple component `" ++ component ++ "` does not accept the common input: " ++ cause.message

def cause? : BindError → Option MatchError
  | .emptyBinding _ => none
  | .argument _ _ cause => some cause
  | .tupleSource _ cause => some cause

end BindError

namespace Morphism

/-- A named function; its parameters are read off the curried type. -/
def ofFunction (name : String) (ty : Ty) : Morphism :=
  let (params, result) := ty.uncurry
  .named name params result

/-- A named value, without parameters even if its type is a function. -/
def ofValue (name : String) (ty : Ty) : Morphism :=
  .named name [] ty

/-- The input type that the parts of a tuple share: the first ground source, or else the first
source; absent if no part takes an input. -/
def sharedSource (parts : List Morphism) : Option Ty :=
  let sources := (parts.filter fun part => 0 < part.arity).map source
  (sources.find? Ty.isGround).or sources.head?

/-- The types of the components when every part is fed the shared input. -/
def componentTypes (source : Ty) : List Morphism → Except BindError (List Ty)
  | [] => .ok []
  | part :: parts => do
    let ty ←
      if part.arity = 0 then pure part.result
      else
        match part.source.matching source with
        | .ok s => pure (s.apply part.target)
        | .error e => throw (.tupleSource part.render e)
    let rest ← componentTypes source parts
    pure (ty :: rest)

/-- A tuple of morphisms. It takes an input if one of its parts does. -/
def ofParts (parts : List Morphism) : Except BindError Morphism :=
  match sharedSource parts with
  | none => .ok (.tuple parts [] (Ty.ofComponents (parts.map result)))
  | some source => do
    let types ← componentTypes source parts
    pure (.tuple parts [source] (Ty.ofComponents types))

/-- Matches the bound parameters of `base` against their arguments, in order of position. -/
def matchBindings (base : Morphism) (s : Subst) :
    List (Nat × Morphism) → Except BindError Subst
  | [] => .ok s
  | (i, arg) :: rest =>
    match base.params[i]? with
    | none => matchBindings base s rest
    | some param =>
      match (param.matching arg.purified).bind s.merge with
      | .ok s => matchBindings base s rest
      | .error e => .error (.argument base.render i e)

/-- The positions of `base` that `bindings` leaves open. -/
def openPositions (base : Morphism) (bindings : List (Nat × Morphism)) : List Nat :=
  (List.range base.arity).filter fun i => (Assoc.get? i bindings).isNone

/-- Binds parameters of a morphism that is no partial application. -/
def bindBase (base : Morphism) (bindings : List (Nat × Morphism)) : Except BindError Morphism :=
  match matchBindings base .empty bindings with
  | .error e => .error e
  | .ok s =>
    let params := (openPositions base bindings).filterMap fun i => base.params[i]?.map s.apply
    .ok (.bound base bindings params (s.apply base.result))

/-- Binds open parameters, counted among those still open; arguments for others are dropped. -/
def bind (m : Morphism) (args : List (Nat × Morphism)) : Except BindError Morphism :=
  let args := args.filter fun a => a.1 < m.arity
  if args.isEmpty then .error (.emptyBinding m.render)
  else
    match m with
    | .bound base bindings _ _ =>
      let positions := openPositions base bindings
      let added := args.filterMap fun a => positions[a.1]?.map fun i => (i, a.2)
      bindBase base (added.foldl (fun table a => Assoc.insert a.1 a.2 table) bindings)
    | m => bindBase m args

/-- Binds one open parameter. -/
def applyAt (m : Morphism) (index : Nat) (arg : Morphism) : Except BindError Morphism :=
  m.bind [(index, arg)]

end Morphism

end Dataflow
