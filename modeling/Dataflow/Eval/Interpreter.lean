import Dataflow.Eval.Run

/-!
# Interpreters

An interpreter runs functions of one plan, one request after the other. It counts how many calls stand
inside each other and refuses one beyond its limit. The count goes up before the body of a function is
run and down behind it, also when the body fails. The variables of a call are its own: what a block that
failed has left of them is dropped with the call.

The rules are those of the evaluator in `Eval`; here they change a count and the variables in place.
-/

namespace Dataflow

/-- What changes while a function is run. -/
structure Machine where
  /-- How many calls stand inside each other. -/
  depth : Nat
  /-- The variables of the innermost one. -/
  env : Env

/-- A part of a run. What it has changed stays changed when it fails. -/
abbrev Act (α : Type) := ExceptT EvalError (StateM Machine) α

namespace Act

variable {α : Type}

/-- An outcome that is known already. -/
def settled (x : Except EvalError α) : Act α := ExceptT.mk (pure x)

/-- The variables of the innermost call. -/
def env : Act Env := do return (← get).env

def setEnv (e : Env) : Act Unit := modify fun m => { m with env := e }

/-- Runs a part with variables of its own. -/
def within (e : Env) (x : Act α) : Act α := ExceptT.mk fun m =>
  let (r, m') := x.run { m with env := e }
  (r, { m' with env := m.env })

/-- Runs a part one call further inside. -/
def counted (x : Act α) : Act α := ExceptT.mk fun m =>
  let (r, m') := x.run { m with depth := m.depth + 1 }
  (r, { m' with depth := m'.depth - 1 })

/-- Runs a part and takes the innermost frame away, also if it fails. -/
def leaving (x : Act α) : Act α := ExceptT.mk fun m =>
  let (r, m') := x.run m
  (r, { m' with env := m'.env.leave })

def applyAll (apply : Value → Value → Act Value) (v : Value) : List Value → Act Value
  | [] => pure v
  | arg :: rest => do applyAll apply (← apply v arg) rest

def invoke (p : ProgramPlan) (call : FunctionPlan → Value → Act Value)
    (apply : Value → Value → Act Value) (name : String) (args : List Value) : Act Value :=
  match p.callee? name with
  | some f => do applyAll apply (← call f (args.head?.getD .unit)) args.tail
  | none =>
    match Builtin.arity? name with
    | none => throw (.unknownFunction name)
    | some arity =>
      if args.length < arity then pure (.waiting name (Eval.resize arity (args.map some)))
      else do applyAll apply (← settled (Builtin.run name (args.take arity))) (args.drop arity)

mutual

def expr (invoke : String → List Value → Act Value) : Expr → Act Value
  | .var name => do settled ((← env).value name)
  | .lit l => pure (.lit l)
  | .tuple items => do return .tuple (← exprList invoke items)
  | .lambda param body => do return .closure param body (← env).captured
  | .call func arity args => do
    let vs ← exprArgs invoke args
    if arity ≤ vs.length && vs.all Option.isSome then invoke func (vs.filterMap id)
    else pure (.waiting func (Eval.resize arity vs))
termination_by structural e => e

def exprList (invoke : String → List Value → Act Value) : List Expr → Act (List Value)
  | [] => pure []
  | e :: es => do
    let v ← expr invoke e
    let vs ← exprList invoke es
    return v :: vs
termination_by structural es => es

def exprArgs (invoke : String → List Value → Act Value) : List (Option Expr) → Act (List (Option Value))
  | [] => pure []
  | none :: es => do return none :: (← exprArgs invoke es)
  | some e :: es => do
    let v ← expr invoke e
    let vs ← exprArgs invoke es
    return some v :: vs
termination_by structural es => es

end

/-- Applies a value to an argument. The body of a lambda sees the variables that it captured. -/
def applyWithin (p : ProgramPlan) (call : FunctionPlan → Value → Act Value) :
    (n : Nat) → Value → Value → Act Value
  | 0, _, _ => throw .nestingLimit
  | n + 1, .waiting func args, arg =>
    match Eval.fillHole arg args with
    | none => throw (.notAFunction ("saturated " ++ func))
    | some args =>
      if args.all Option.isSome then invoke p call (applyWithin p call n) func (args.filterMap id)
      else pure (.waiting func args)
  | n + 1, .closure param body vars, arg =>
    within ((Env.ofCaptured vars).add param arg) (expr (invoke p call (applyWithin p call n)) body)
  | _ + 1, v, _ => throw (.notAFunction v.typeName)

def exprWith (p : ProgramPlan) (nesting : Nat) (call : FunctionPlan → Value → Act Value) (e : Expr) : Act Value :=
  expr (invoke p call (applyWithin p call nesting)) e

def select (eval : Expr → Act Value) : BranchLabel → Act Bool
  | .otherwise => pure true
  | .pattern subject p _ => do return (← settled ((← env).value subject)).fits p
  | .guard test => do
    match ← eval test with
    | .lit (.bool taken) => pure taken
    | v => throw (.typeMismatch "guard" v.typeName)

/-- Runs the steps of a block: a result, if one of them gives one. -/
def steps (eval : Expr → Act Value) : List Step → Act (Option Value)
  | [] => pure none
  | .bind var _ e :: rest => do
    let v ← eval e
    setEnv ((← env).add var v)
    steps eval rest
  | .unpack tuple vars _ :: rest => do
    match ← settled ((← env).value tuple) with
    | .tuple items =>
      if items.length = vars.length then do
        setEnv ((← env).addAll (vars.zip items))
        steps eval rest
      else throw (.typeMismatch "unpack" "tuple")
    | v => throw (.typeMismatch "unpack" v.typeName)
  | .result e :: _ => do return some (← eval e)

mutual

/-- Runs a block in a frame of its own. The frame stays when a step fails. -/
def block (eval : Expr → Act Value) (function : String) : Body → Act Value
  | .mk definitions branches => do
    setEnv (← env).enter
    match ← steps eval definitions with
    | some v =>
      setEnv (← env).leave
      return v
    | none => blockBranches eval function branches
termination_by structural b => b

def blockBranches (eval : Expr → Act Value) (function : String) : List (BranchLabel × Body) → Act Value
  | [] => do
    setEnv (← env).leave
    throw (.noBranch function)
  | (label, body) :: rest => do
    if ← select eval label then leaving (block eval function body)
    else blockBranches eval function rest
termination_by structural bs => bs

end

/-- Runs a function, if the depth is below the limit. `n` is what the recursion is on: where it is no
less than what the depth lacks to the limit, the depth stops the calls first. -/
def runFunction (p : ProgramPlan) (nesting limit : Nat) : (n : Nat) → FunctionPlan → Value → Act Value
  | 0, _, _ => throw (.recursionLimit limit)
  | n + 1, f, arg => do
    if limit ≤ (← get).depth then throw (.recursionLimit limit)
    else
      counted (within (Eval.entryEnv f arg)
        (block (exprWith p nesting (runFunction p nesting limit n)) f.name f.body))

end Act

/-- An interpreter of a plan, between two requests. -/
structure Interpreter where
  plan : ProgramPlan
  limit : Nat := Eval.defaultLimit
  /-- The bound on applications inside each other. -/
  nesting : Nat := Eval.maxNesting
  depth : Nat := 0

namespace Interpreter

/-- Runs a function of the plan. -/
def run (i : Interpreter) (f : FunctionPlan) (arg : Value) : Outcome × Interpreter :=
  let (r, m) := (Act.runFunction i.plan i.nesting i.limit i.limit f arg).run ⟨i.depth, .start⟩
  (r, { i with depth := m.depth })

/-- Runs the main function. -/
def runMain (i : Interpreter) : Outcome × Interpreter :=
  match i.plan.main? with
  | some f => i.run f .unit
  | none => (.error .noMain, i)

/-- Calls a function by name. -/
def call (i : Interpreter) (name : String) (arg : Value) : Outcome × Interpreter :=
  match i.plan.callee? name with
  | some f => i.run f arg
  | none => (.error (.unknownFunction name), i)

end Interpreter

end Dataflow
