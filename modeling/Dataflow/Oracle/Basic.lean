import Dataflow.Assoc
import Dataflow.Morphism.Basic
import Dataflow.Oracle.Session
import Dataflow.Symbol
import Dataflow.Text.Uppercase

/-!
# Symbols from an interactive tool

An oracle asks a tool for the types of names, one question at a time, and remembers the answers. A
question that fails ends the session for good; what was answered before stays known.
-/

namespace Dataflow

structure OracleConfig where
  /-- Lines sent at the start; each is answered by a prompt. -/
  setup : List String
  prompt : String
  /-- The question for functions and values, with a mark for the name. -/
  queryTemplate : String := ":type \x7bname\x7d"
  /-- The question for names in upper case, which may be types. -/
  kindTemplate : String := ":kind \x7bname\x7d"
  /-- How long to wait for an answer, in milliseconds. -/
  timeout : Nat := 5000
deriving Repr

/-- An oracle and the tool that it talks to. -/
structure Oracle (σ : Type) where
  config : OracleConfig
  tool : Tool σ
  /-- The running tool, until it is stopped. -/
  session : Option (Session σ)
  /-- Whether a question has failed. -/
  dead : Bool
  /-- The answers so far, ascending by name. -/
  cache : List (String × Option Symbol)

namespace Oracle

variable {σ : Type}

/-- Sends the lines of the start one by one. -/
def setUp (config : OracleConfig) (tool : Tool σ) (s : Session σ) :
    List String → Except OracleError (Session σ)
  | [] => .ok s
  | line :: rest =>
    match s.ask tool config.prompt config.timeout line with
    | .ok (_, s) => setUp config tool s rest
    | .error e => .error e

/-- Waits until a tool that has just started is ready. -/
def start (config : OracleConfig) (tool : Tool σ) (launch : Reaction σ) :
    Except OracleError (Oracle σ) := do
  let s := Session.start launch
  let s ←
    if config.setup.isEmpty then
      (·.2) <$> s.untilPrompt config.prompt config.timeout "<start-up>"
    else setUp config tool s config.setup
  pure ⟨config, tool, some s, false, []⟩

/-- An oracle on a program, given what came of starting it: the tool with what it does at first, or why there is
none. -/
def spawn (config : OracleConfig) (program : String) :
    Except OsError (Tool σ × Reaction σ) → Except OracleError (Oracle σ)
  | .ok (tool, launch) => start config tool launch
  | .error cause => .error (.spawn program cause)

def isAlive (o : Oracle σ) : Bool := !o.dead

/-- Asks the tool. Failure stops it, and nothing is asked any more. -/
def ask (o : Oracle σ) (text : String) : Except OracleError String × Oracle σ :=
  if o.dead then (.error .closed, o)
  else
    match o.session with
    | none => (.error .closed, o)
    | some s =>
      match s.ask o.tool o.config.prompt o.config.timeout text with
      | .ok (answer, s) => (.ok answer, { o with session := some s })
      | .error e => (.error e, { o with session := none, dead := true })

/-- A question about a name. -/
def question (template name : String) : String := Text.replace template "\x7bname\x7d" name

/-- What an answer to the question for a kind says: the name, two colons and anything name a type. -/
def kindSymbol? (name answer : String) : Option Symbol :=
  match Text.splitOnce [':', ':'] (Text.squeeze answer).toList with
  | some (declared, _) =>
    if String.ofList (Text.trimBlank declared) = name then some ⟨.type, TyExpr.shape name []⟩
    else none
  | none => none

/-- What an answer to the question for a type says: a declaration of the name. -/
def typeSymbol? (name answer : String) : Option Symbol :=
  match TyExpr.readDeclaration (Text.squeeze answer) with
  | .ok (declared, e) => if declared = name then some (.declared e.structural) else none
  | .error _ => none

/-- Asks whether a name in upper case is a type. -/
def askKind (o : Oracle σ) (name : String) : Except OracleError (Option Symbol) × Oracle σ :=
  if name.toList.head?.any Text.isUppercase then
    match o.ask (question o.config.kindTemplate name) with
    | (.ok answer, o) => (.ok (kindSymbol? name answer), o)
    | (.error e, o) => (.error e, o)
  else (.ok none, o)

/-- Asks for the type of a name; an operator is asked for in parentheses. -/
def askType (o : Oracle σ) (name : String) : Except OracleError (Option Symbol) × Oracle σ :=
  match o.ask (question o.config.queryTemplate (Ty.parenthesize (isOperatorName name) name)) with
  | (.ok answer, o) => (.ok (typeSymbol? name answer), o)
  | (.error e, o) => (.error e, o)

/-- Asks for a name that has not been answered yet. -/
def askBoth (o : Oracle σ) (name : String) : Except OracleError (Option Symbol) × Oracle σ :=
  match o.askKind name with
  | (.ok none, o) => o.askType name
  | result => result

/-- The symbol of a name, absent if the tool does not know it. -/
def query (o : Oracle σ) (name : String) : Except OracleError (Option Symbol) × Oracle σ :=
  match Assoc.get? name o.cache with
  | some symbol => (.ok symbol, o)
  | none =>
    match o.askBoth name with
    | (.ok symbol, o) => (.ok symbol, { o with cache := Assoc.insert name symbol o.cache })
    | (.error e, o) => (.error e, o)

/-- The symbol of a name; a question that fails counts as an unknown name. -/
def find (o : Oracle σ) (name : String) : Option Symbol × Oracle σ :=
  match o.query name with
  | (.ok symbol, o) => (symbol, o)
  | (.error _, o) => (none, o)

/-- The oracle as a resolver. -/
def resolver : Resolver (StateM (Oracle σ)) := fun name o => o.find name

end Oracle

end Dataflow
