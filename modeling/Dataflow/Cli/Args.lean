import Dataflow.Render.Target
import Dataflow.Text.Split

/-!
# Arguments of the command line

```text
[--symbols FILE] [--oracle COMMAND] compile LAYOUT [--backend NAME] [--output FILE]
                                    run LAYOUT [--arg NAME=VALUE]
                                    dot LAYOUT
                                    exec LAYOUT [--backend NAME]
```

Options come in any order, and the first two also behind the command. A value follows its option, or
is attached to it with an equals sign; behind a short option it may follow at once. An option may be
given once before the command and once behind it, where the later one counts. Two hyphens end the
options.
-/

namespace Dataflow.Cli

inductive Verb where
  | compile
  | run
  | dot
  | exec
deriving DecidableEq, Repr

def Verb.ofName? : String → Option Verb
  | "compile" => some .compile
  | "run" => some .run
  | "dot" => some .dot
  | "exec" => some .exec
  | _ => none

/-- The options that take a value. -/
inductive Opt where
  | symbols
  | oracle
  | backend
  | output
  | arg
deriving DecidableEq, Repr

namespace Opt

def long : Opt → String
  | .symbols => "symbols"
  | .oracle => "oracle"
  | .backend => "backend"
  | .output => "output"
  | .arg => "arg"

def short? : Opt → Option Char
  | .backend => some 'b'
  | .output => some 'o'
  | _ => none

/-- The options that may stand at a place: before a command, or behind one. -/
def allowed : Option Verb → List Opt
  | none => [.symbols, .oracle]
  | some .compile => [.symbols, .oracle, .backend, .output]
  | some .run => [.symbols, .oracle, .arg]
  | some .dot => [.symbols, .oracle]
  | some .exec => [.symbols, .oracle, .backend]

/-- The names that the option for a target takes. -/
def target? : String → Option Target
  | "cpp" => some .cpp
  | "haskell" => some .haskell
  | _ => none

/-- Whether an option takes a value: files have names, and targets are known by one name each. -/
def accepts (o : Opt) (value : String) : Bool :=
  match o with
  | .symbols | .output => !value.isEmpty
  | .backend => (target? value).isSome
  | .oracle | .arg => true

end Opt

/-- Why there is nothing to run. -/
inductive Stop where
  /-- The arguments do not make sense. -/
  | usage
  | help
  | version
deriving DecidableEq, Repr

/-- What has been read of the arguments. -/
structure Reading where
  verb : Option Verb := none
  /-- The options given before the command. -/
  outer : List (Opt × String) := []
  /-- The options given at the present place. -/
  given : List (Opt × String) := []
  /-- An option whose value comes next. -/
  pending : Option Opt := none
  layout : Option String := none
  /-- Whether the options have ended. -/
  escaped : Bool := false
deriving Repr

namespace Reading

/-- Gives an option its value. -/
def give (r : Reading) (o : Opt) (value : String) : Except Stop Reading :=
  if (r.given.lookup o).isSome || !o.accepts value then .error .usage
  else .ok { r with given := (o, value) :: r.given, pending := none }

/-- An argument that is no option: a command, or the layout it works on. -/
def place (r : Reading) (arg : String) : Except Stop Reading :=
  match r.verb with
  | none =>
    if r.escaped then .error .usage
    else if arg = "help" then .error .help
    else
      match Verb.ofName? arg with
      | some verb => .ok { verb := some verb, outer := r.given }
      | none => .error .usage
  | some _ =>
    if r.layout.isSome || arg.isEmpty then .error .usage else .ok { r with layout := some arg }

/-- An option by its long name, with the value attached to it. -/
def long (r : Reading) (name : String) (value : Option String) : Except Stop Reading :=
  match (Opt.allowed r.verb).find? fun o => o.long = name, value with
  | some o, some value => r.give o value
  | some o, none => .ok { r with pending := some o }
  | none, none =>
    if name = "help" then .error .help
    else if name = "version" && r.verb.isNone then .error .version
    else .error .usage
  | none, some _ => .error .usage

/-- An option by its letter, with what follows the letter. -/
def short (r : Reading) (c : Char) (rest : List Char) : Except Stop Reading :=
  match (Opt.allowed r.verb).find? fun o => o.short? = some c, rest with
  | some o, [] => .ok { r with pending := some o }
  | some o, '=' :: value => r.give o (String.ofList value)
  | some o, value => r.give o (String.ofList value)
  | none, _ =>
    if c = 'h' then .error .help
    else if c = 'V' && r.verb.isNone then .error .version
    else .error .usage

/-- Reads one argument. -/
def step (r : Reading) (arg : String) : Except Stop Reading :=
  match r.pending with
  | some o =>
    match arg.toList with
    | '-' :: _ :: _ => .error .usage
    | _ => r.give o arg
  | none =>
    if r.escaped then r.place arg
    else
      match arg.toList with
      | ['-', '-'] => .ok { r with escaped := true }
      | '-' :: '-' :: text =>
        match Text.splitOnce ['='] text with
        | some (name, value) => r.long (String.ofList name) (some (String.ofList value))
        | none => r.long (String.ofList text) none
      | '-' :: c :: rest => r.short c rest
      | _ => r.place arg

/-- The value of an option; one behind the command counts before one in front of it. -/
def value? (r : Reading) (o : Opt) : Option String :=
  (r.given.lookup o).or (r.outer.lookup o)

def target (r : Reading) : Target :=
  ((r.value? .backend).bind Opt.target?).getD .cpp

end Reading

inductive Command where
  | compile (target : Target) (output : Option String)
  | run (arg : Option String)
  | dot
  | exec (target : Target)
deriving Repr

structure Args where
  symbols : Option String
  oracle : Option String
  layout : String
  command : Command
deriving Repr

namespace Args

/-- Reads arguments one after the other. -/
def readAll (r : Reading) : List String → Except Stop Reading
  | [] => .ok r
  | arg :: rest =>
    match r.step arg with
    | .ok r => readAll r rest
    | .error e => .error e

/-- The arguments, once all have been read. -/
def finish (r : Reading) : Except Stop Args :=
  match r.verb, r.layout, r.pending with
  | some verb, some layout, none =>
    let command : Command :=
      match verb with
      | .compile => .compile r.target (r.value? .output)
      | .run => .run (r.value? .arg)
      | .dot => .dot
      | .exec => .exec r.target
    .ok { symbols := r.value? .symbols, oracle := r.value? .oracle, layout, command }
  | _, _, _ => .error .usage

def read (args : List String) : Except Stop Args :=
  match readAll {} args with
  | .ok r => finish r
  | .error e => .error e

end Args

end Dataflow.Cli
