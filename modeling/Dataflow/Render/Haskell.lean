import Dataflow.Morphism.Basic
import Dataflow.Plan.Basic
import Dataflow.Render.Lines
import Dataflow.Render.Params

/-!
# Plans as Haskell source

A block is a `let` around its result, or around a `case` whose alternatives are the branches. A call
that lacks arguments at its end is left as it is; one with a hole is a lambda in the parameters that
are open, numbered within the function.
-/

namespace Dataflow.Haskell

/-! ## Names and types -/

/-- A name in prefix position. -/
def name (name : String) : String := Ty.parenthesize (isOperatorName name) name

def functionName (f : FunctionPlan) : String :=
  if f.isMain then "morphMain" else name f.name

/-- Needs parentheses as an argument. -/
def isCompound : Ty → Bool
  | .func _ _ => true
  | .con head args => !args.isEmpty && head ≠ "List"
  | _ => false

mutual

/-- A type as written in the source. -/
def ty : Ty → String
  | .atom .int => "Int"
  | .atom .char => "Char"
  | .atom .bool => "Bool"
  | .atom .float => "Double"
  | .atom _ => "()"
  | .tuple items => "(" ++ ", ".intercalate (tyList items) ++ ")"
  | .con head args =>
    match args with
    | [] => head
    | [item] =>
      if head = "List" then "[" ++ ty item ++ "]"
      else head ++ " " ++ Ty.parenthesize (isCompound item) (ty item)
    | args => " ".intercalate (head :: tyArgs args)
  | .var x => x
  | .func arg result => Ty.parenthesize (isCompound arg) (ty arg) ++ " -> " ++ ty result
termination_by structural t => t

def tyList : List Ty → List String
  | [] => []
  | t :: ts => ty t :: tyList ts
termination_by structural ts => ts

def tyArgs : List Ty → List String
  | [] => []
  | t :: ts => Ty.parenthesize (isCompound t) (ty t) :: tyArgs ts
termination_by structural ts => ts

end

/-- A type as an argument. -/
def argumentTy (t : Ty) : String := Ty.parenthesize (isCompound t) (ty t)

/-! ## Constants -/

/-- A control character. -/
def isControl (c : Char) : Bool := c.toNat < 0x20 || (0x7f ≤ c.toNat && c.toNat ≤ 0x9f)

/-- The inside of a literal between quotes. A control character is written by its number; a digit
behind it is kept apart. -/
def escape (quote : Char) : List Char → List Char
  | [] => []
  | c :: rest =>
    if c = '\\' then '\\' :: '\\' :: escape quote rest
    else if c = '\n' then '\\' :: 'n' :: escape quote rest
    else if c = '\t' then '\\' :: 't' :: escape quote rest
    else if c = quote then '\\' :: c :: escape quote rest
    else if isControl c then
      '\\' :: Nat.toDigits 10 c.toNat ++
        ((if rest.head?.any Char.isDigit then ['\\', '&'] else []) ++ escape quote rest)
    else c :: escape quote rest

def literal : Literal → String
  | .char c => "'" ++ String.ofList (escape '\'' [c]) ++ "'"
  | .text s => "\"" ++ String.ofList (escape '"' s.toList) ++ "\""
  | l => Ty.parenthesize l.isNegative l.render

mutual

def pattern : Pattern → String
  | .any => "_"
  | .value l => literal l
  | .tuple items => "(" ++ ", ".intercalate (patternList items) ++ ")"
termination_by structural p => p

def patternList : List Pattern → List String
  | [] => []
  | p :: ps => pattern p :: patternList ps
termination_by structural ps => ps

end

/-! ## Expressions -/

/-- A function applied to its first arguments. An operator stands between its two arguments. -/
def apply (func : String) (arity : Nat) (args : List String) : String :=
  match args with
  | [] => name func
  | [a, b] =>
    if arity = 2 && isOperatorName func then "(" ++ a ++ " " ++ func ++ " " ++ b ++ ")"
    else "(" ++ name func ++ " " ++ a ++ " " ++ b ++ ")"
  | args => "(" ++ name func ++ " " ++ " ".intercalate args ++ ")"

mutual

/-- An expression; the state is the number of the next new parameter. The arguments before the first
hole are written twice, and only the second writing is kept, so their parameters take numbers
twice. -/
def expr : Expr → StateM Nat String
  | .var x => pure x
  | .lit l => pure (literal l)
  | .tuple items => do
    let items ← exprList items
    pure ("(" ++ ", ".intercalate items ++ ")")
  | .lambda param body => do
    let body ← expr body
    pure ("(\\" ++ param ++ " -> " ++ body ++ ")")
  | .call func arity args => do
    let supplied ← exprPrefix args
    if supplied.length = args.length then pure (apply func arity supplied)
    else
      let (filled, params) ← exprArgs arity args
      pure ("(\\" ++ " ".intercalate params ++ " -> " ++ apply func arity filled ++ ")")
termination_by structural e => e

def exprList : List Expr → StateM Nat (List String)
  | [] => pure []
  | e :: es => do
    let e ← expr e
    let es ← exprList es
    pure (e :: es)
termination_by structural es => es

/-- The arguments before the first hole. -/
def exprPrefix : List (Option Expr) → StateM Nat (List String)
  | some e :: rest => do
    let arg ← expr e
    let args ← exprPrefix rest
    pure (arg :: args)
  | _ => pure []
termination_by structural es => es

/-- As many arguments as there are parameters, with new names for the missing ones, and those
names. -/
def exprArgs (arity : Nat) : List (Option Expr) → StateM Nat (List String × List String)
  | [] => do
    let params ← Render.freshParams arity
    pure (params, params)
  | some e :: rest =>
    match arity with
    | 0 => pure ([], [])
    | n + 1 => do
      let arg ← expr e
      let (filled, params) ← exprArgs n rest
      pure (arg :: filled, params)
  | none :: rest =>
    match arity with
    | 0 => pure ([], [])
    | n + 1 => do
      let param ← Render.freshParam
      let (filled, params) ← exprArgs n rest
      pure (param :: filled, param :: params)
termination_by structural es => es

end

/-! ## Blocks -/

/-- The lines that a step adds to the bindings, and the result if the step gives one. -/
def step : Step → StateM Nat (List String × Option String)
  | .bind var _ e => do
    let e ← expr e
    pure ([var ++ " = " ++ e], none)
  | .unpack tuple vars _ => pure (["(" ++ ", ".intercalate vars ++ ") = " ++ tuple], none)
  | .result e => do
    let e ← expr e
    pure ([], some e)

/-- The bindings of a block. -/
def letLines (bindings : List String) : List String :=
  if bindings.isEmpty then [] else ["let"] ++ Render.indent bindings ++ ["in"]

/-- What the alternatives look at: the subject of the first pattern. -/
def subject (branches : List (BranchLabel × Body)) : String :=
  (branches.findSome? fun
    | (.pattern subject _ _, _) => some subject
    | _ => none).getD "()"

/-- The line that opens an alternative. -/
def branchHead : BranchLabel → StateM Nat String
  | .otherwise => pure "_ ->"
  | .pattern _ p _ => pure (pattern p ++ " ->")
  | .guard test => do
    let test ← expr test
    pure ("_ | " ++ test ++ " ->")

mutual

/-- A block. If it gives a result, the last one counts, and its branches are not looked at. -/
def body : Body → StateM Nat (List String)
  | .mk steps branches => do
    let steps ← steps.mapM step
    let bindings := letLines (steps.flatMap (·.1))
    match (steps.filterMap (·.2)).getLast? with
    | some result => pure (bindings ++ [result])
    | none => do
      let alternatives ← bodyBranches branches
      pure (bindings ++ ["case " ++ subject branches ++ " of"] ++ Render.indent alternatives)
termination_by structural b => b

def bodyBranches : List (BranchLabel × Body) → StateM Nat (List String)
  | [] => pure []
  | (label, block) :: rest => do
    let head ← branchHead label
    let block ← body block
    let others ← bodyBranches rest
    pure (head :: Render.indent block ++ others)
termination_by structural bs => bs

end

def function (f : FunctionPlan) : List String :=
  let heading :=
    match f.param with
    | some param =>
      [functionName f ++ " :: " ++ argumentTy f.paramType ++ " -> " ++ ty f.resultType,
        functionName f ++ " " ++ param ++ " ="]
    | none => [functionName f ++ " :: " ++ ty f.resultType, functionName f ++ " ="]
  heading ++ Render.indent ((body f.body).run 0).1

/-- The source of a plan. -/
def source (plan : ProgramPlan) : String :=
  Render.unlines
    (["module Main where", ""] ++ plan.imports.map ("import " ++ ·) ++
      (if plan.imports.isEmpty then [] else [""]) ++
      plan.functions.flatMap (fun f => function f ++ [""]) ++
      (if plan.main?.isSome then ["main :: IO ()", "main = print morphMain"] else []))

end Dataflow.Haskell
