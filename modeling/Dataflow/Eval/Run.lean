import Dataflow.Eval.Builtin
import Dataflow.Eval.Env
import Dataflow.Plan.Basic

/-!
# Running plans

The evaluator runs a plan block by block, the way the rendered programs run. Functions of the plan
come before built-in ones. Calls of functions of the plan may nest up to a limit.

The evaluator of expressions is given the meaning of a call of a plan's function, `call`, and of the
application of a value, `apply`. Two bounds then are what the recursion is on: `applyWithin`
counts applications inside each other, and `runWithin` counts calls inside each other. The limit on calls is part
of the language. The bound on applications is not: it is only there so that the recursion ends, and an evaluator
without it would run out of stack instead. Results are for every such bound.
-/

namespace Dataflow

/-- The outcome of an evaluation. -/
abbrev Outcome := Except EvalError Value

namespace Env

/-- The value of a variable. -/
def value (e : Env) (name : String) : Outcome :=
  match e.find? name with
  | some v => .ok v
  | none => .error (.unboundVariable name)

end Env

/-- The function of a plan that a name calls. The main function cannot be called. -/
def ProgramPlan.callee? (p : ProgramPlan) (name : String) : Option FunctionPlan :=
  (p.function? name).filter fun f => !f.isMain

namespace Eval

/-- Brings a list of arguments to a length; what is missing is left open. -/
def resize (n : Nat) (args : List (Option Value)) : List (Option Value) :=
  args.take n ++ List.replicate (n - args.length) none

/-- Applies a value to arguments from the left. -/
def applyAll (apply : Value → Value → Outcome) (v : Value) : List Value → Outcome
  | [] => .ok v
  | arg :: rest =>
    match apply v arg with
    | .ok v => applyAll apply v rest
    | .error e => .error e

/-- Calls a function by name. Arguments beyond those it takes are applied to its result. -/
def invoke (p : ProgramPlan) (call : FunctionPlan → Value → Outcome)
    (apply : Value → Value → Outcome) (name : String) (args : List Value) : Outcome :=
  match p.callee? name with
  | some f =>
    match call f (args.head?.getD .unit) with
    | .ok v => applyAll apply v args.tail
    | .error e => .error e
  | none =>
    match Builtin.arity? name with
    | none => .error (.unknownFunction name)
    | some arity =>
      if args.length < arity then .ok (.waiting name (resize arity (args.map some)))
      else
        match Builtin.run name (args.take arity) with
        | .ok v => applyAll apply v (args.drop arity)
        | .error e => .error e

/-- Puts a value in the place of the first argument that is waited for. -/
def fillHole (v : Value) : List (Option Value) → Option (List (Option Value))
  | [] => none
  | none :: rest => some (some v :: rest)
  | some a :: rest => (fillHole v rest).map (some a :: ·)

mutual

/-- The value of an expression. A call that lacks an argument waits for it. -/
def expr (invoke : String → List Value → Outcome) (env : Env) : Expr → Outcome
  | .var name => env.value name
  | .lit l => .ok (.lit l)
  | .tuple items =>
    match exprList invoke env items with
    | .ok vs => .ok (.tuple vs)
    | .error e => .error e
  | .lambda param body => .ok (.closure param body env.captured)
  | .call func arity args =>
    match exprArgs invoke env args with
    | .error e => .error e
    | .ok vs =>
      if arity ≤ vs.length && vs.all Option.isSome then invoke func (vs.filterMap id)
      else .ok (.waiting func (resize arity vs))
termination_by structural e => e

def exprList (invoke : String → List Value → Outcome) (env : Env) :
    List Expr → Except EvalError (List Value)
  | [] => .ok []
  | e :: es =>
    match expr invoke env e with
    | .error err => .error err
    | .ok v =>
      match exprList invoke env es with
      | .ok vs => .ok (v :: vs)
      | .error err => .error err
termination_by structural es => es

/-- The arguments of a call; holes stay holes. -/
def exprArgs (invoke : String → List Value → Outcome) (env : Env) :
    List (Option Expr) → Except EvalError (List (Option Value))
  | [] => .ok []
  | none :: es =>
    match exprArgs invoke env es with
    | .ok vs => .ok (none :: vs)
    | .error err => .error err
  | some e :: es =>
    match expr invoke env e with
    | .error err => .error err
    | .ok v =>
      match exprArgs invoke env es with
      | .ok vs => .ok (some v :: vs)
      | .error err => .error err
termination_by structural es => es

end

/-- How often applications of values may stand inside each other within one call if nothing else is said: a bound
of this evaluator, which the language does not have. -/
def maxNesting : Nat := 100000

/-- Applies a value to an argument; `n` applications may stand inside each other. -/
def applyWithin (p : ProgramPlan) (call : FunctionPlan → Value → Outcome) :
    (n : Nat) → Value → Value → Outcome
  | 0, _, _ => .error .nestingLimit
  | n + 1, .waiting func args, arg =>
    match fillHole arg args with
    | none => .error (.notAFunction ("saturated " ++ func))
    | some args =>
      if args.all Option.isSome then invoke p call (applyWithin p call n) func (args.filterMap id)
      else .ok (.waiting func args)
  | n + 1, .closure param body env, arg =>
    expr (invoke p call (applyWithin p call n)) ((Env.ofCaptured env).add param arg) body
  | _ + 1, v, _ => .error (.notAFunction v.typeName)

/-- Whether a branch is taken. -/
def select (eval : Env → Expr → Outcome) (env : Env) : BranchLabel → Except EvalError Bool
  | .otherwise => .ok true
  | .pattern subject p _ =>
    match env.value subject with
    | .ok v => .ok (v.fits p)
    | .error e => .error e
  | .guard test =>
    match eval env test with
    | .ok (.lit (.bool taken)) => .ok taken
    | .ok v => .error (.typeMismatch "guard" v.typeName)
    | .error e => .error e

/-- Runs the steps of a block: they give a result, or the variables that the branches see. -/
def steps (eval : Env → Expr → Outcome) (env : Env) : List Step → Except EvalError (Value ⊕ Env)
  | [] => .ok (.inr env)
  | .bind var _ e :: rest =>
    match eval env e with
    | .ok v => steps eval (env.add var v) rest
    | .error err => .error err
  | .unpack tuple vars _ :: rest =>
    match env.value tuple with
    | .error err => .error err
    | .ok (.tuple items) =>
      if items.length = vars.length then steps eval (env.addAll (vars.zip items)) rest
      else .error (.typeMismatch "unpack" "tuple")
    | .ok v => .error (.typeMismatch "unpack" v.typeName)
  | .result e :: _ =>
    match eval env e with
    | .ok v => .ok (.inl v)
    | .error err => .error err

mutual

/-- Runs a block in a frame of its own. -/
def block (eval : Env → Expr → Outcome) (function : String) (env : Env) : Body → Outcome
  | .mk definitions branches =>
    match steps eval env.enter definitions with
    | .error e => .error e
    | .ok (.inl v) => .ok v
    | .ok (.inr env) => blockBranches eval function env branches
termination_by structural b => b

/-- Runs the first branch that is taken. -/
def blockBranches (eval : Env → Expr → Outcome) (function : String) (env : Env) :
    List (BranchLabel × Body) → Outcome
  | [] => .error (.noBranch function)
  | (label, body) :: rest =>
    match select eval env label with
    | .error e => .error e
    | .ok true => block eval function env body
    | .ok false => blockBranches eval function env rest
termination_by structural bs => bs

end

/-- The variables that a function starts with. -/
def entryEnv (f : FunctionPlan) (arg : Value) : Env :=
  match f.param with
  | some param => Env.start.add param arg
  | none => Env.start

/-- The value of an expression, given the meaning of calls. -/
def exprWith (p : ProgramPlan) (nesting : Nat) (call : FunctionPlan → Value → Outcome) (env : Env) (e : Expr) :
    Outcome :=
  expr (invoke p call (applyWithin p call nesting)) env e

/-- Runs a function; `n` calls may stand inside each other, this one included. -/
def runWithin (p : ProgramPlan) (nesting limit : Nat) : (n : Nat) → FunctionPlan → Value → Outcome
  | 0, _, _ => .error (.recursionLimit limit)
  | n + 1, f, arg => block (exprWith p nesting (runWithin p nesting limit n)) f.name (entryEnv f arg) f.body

/-- How deep calls may nest if nothing else is said. -/
def defaultLimit : Nat := 2000

end Eval

namespace ProgramPlan

/-- Runs a function of the plan. -/
def run (p : ProgramPlan) (nesting limit : Nat) (f : FunctionPlan) (arg : Value) : Outcome :=
  Eval.runWithin p nesting limit limit f arg

/-- Runs the main function. -/
def runMain (p : ProgramPlan) (nesting limit : Nat) : Outcome :=
  match p.main? with
  | some f => p.run nesting limit f .unit
  | none => .error .noMain

/-- Calls a function by name. -/
def call (p : ProgramPlan) (nesting limit : Nat) (name : String) (arg : Value) : Outcome :=
  match p.callee? name with
  | some f => p.run nesting limit f arg
  | none => .error (.unknownFunction name)

end ProgramPlan

/-- Reads a value that is written like a pattern without wildcards. -/
def Value.read (text : String) : Outcome :=
  match Pattern.read text with
  | .error e => .error (.badArgument text (some e))
  | .ok p =>
    match Value.ofPattern? p with
    | some v => .ok v
    | none => .error (.badArgument text none)

end Dataflow
