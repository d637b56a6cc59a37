import Dataflow.Cli.Args
import Dataflow.Cli.Fault
import Dataflow.Eval.Interpreter
import Dataflow.Layout.Document
import Dataflow.Oracle.Basic
import Dataflow.Program.Dot
import Dataflow.Toolchain

/-!
# The command line

What the program does with its arguments, in terms of a host that reads and writes files.

No tool is started from here: a host only says why a program cannot be (`Host.refusal`), so an oracle and the
command to build and run end in that fault. What is asked of a tool that did start is in
`Dataflow.Oracle.Basic` (`Oracle.spawn`), and how a program is built and run in `Dataflow.Toolchain.Run`.
-/

namespace Dataflow.Cli

/-- What the command line needs of the system. -/
structure Host (m : Type → Type) where
  readFile : String → m (Except OsError String)
  writeFile : String → String → m (Except OsError Unit)
  /-- Why a program cannot be started. -/
  refusal : String → OsError

/-- What is printed, and the exit code. -/
structure Result where
  exit : UInt8 := 0
  stdout : String := ""
  stderr : String := ""
deriving DecidableEq, Repr

def versionText : String := "morphc 0.1.0\n"

def helpText : String :=
  "\n".intercalate
    ["Compile typed dataflow graphs to C++ or Haskell", "", "Usage: morphc [OPTIONS] <COMMAND>", "",
     "Commands:", "  compile  Translate a layout to host source code",
     "  run      Evaluate a layout with the reference evaluator",
     "  dot      Print the typed graph in DOT format",
     "  exec     Translate, build with the host toolchain and run the result",
     "  help     Print this message or the help of the given subcommand(s)", "", "Options:",
     "      --symbols <SYMBOLS>  Extra `name :: type` declarations, one per line",
     "      --oracle <ORACLE>    Resolve symbols by asking an interactive tool, e.g. \"ghci -v0\"",
     "  -h, --help               Print help", "  -V, --version            Print version", ""]

def usageText : String :=
  "error: invalid arguments\n\nUsage: morphc [OPTIONS] <COMMAND>\n\nFor more information, try '--help'.\n"

variable {m : Type → Type} [Monad m]

/-- The symbols that every layout may use: built in, or those of an oracle. -/
def baseSymbols (host : Host m) (oracle : Option String) : Except Fault SymbolTable :=
  match oracle with
  | none => .ok .prelude
  | some command =>
    match Text.words command with
    | [] => .error { message := "empty --oracle command" }
    | program :: _ =>
      let e := OracleError.spawn program (host.refusal program)
      .error (.under "failed to start the symbol oracle" e.message e.causes)

/-- The symbols declared in a file. -/
def extraSymbols (host : Host m) (path : Option String) : ExceptT Fault m SymbolTable := do
  match path with
  | none => pure .empty
  | some path =>
    match ← host.readFile path with
    | .error e => throw (.under ("failed to read symbols from " ++ path) e.message [])
    | .ok text =>
      match SymbolTable.empty.load text with
      | (table, .ok _) => pure table
      | (_, .error e) => throw (.under ("malformed symbol file " ++ path) e.text [])

/-- Loads a layout and the program it draws. -/
def loadLayout (host : Host m) (path : String) : ExceptT Fault m (Layout × Draft) := do
  let loaded : Except LayoutError (Layout × Draft) :=
    match ← host.readFile path with
    | .error e => .error (.unreadable e)
    | .ok text =>
      match Layout.read text with
      | .error e => .error e
      | .ok layout => layout.toDraft.map fun draft => (layout, draft)
  match loaded with
  | .ok loaded => pure loaded
  | .error e => throw (.under ("failed to load layout " ++ path) e.message e.causes)

/-- Types the program of a layout. -/
def typeProgram (symbols : Resolver Id) (draft : Draft) : Except Fault Program :=
  match (Program.ofDraft symbols draft).run with
  | .ok p => .ok p
  | .error e => .error (.under "failed to type the program graph" e.message e.causes)

/-- Plans a program; `doing` says what failed if it cannot be planned. -/
def planProgram (doing : String) (p : Program) : Except Fault ProgramPlan :=
  match p.plan with
  | .ok plan => .ok plan
  | .error e => .error (.under ("failed to " ++ doing ++ " the program") e.message e.causes)

/-- The source of a program for a target. -/
def compile (layout : Layout) (target : Target) (p : Program) : Except Fault String := do
  let plan ← planProgram "translate" p
  pure (target.source { plan with libraries := layout.libraries, imports := layout.imports })

/-- The value of a call that is written with the function before an equals sign and the argument
behind it, or else of the main function. -/
def evaluate (plan : ProgramPlan) (arg : Option String) : Except Fault Value :=
  let outcome : Except Fault Outcome :=
    match arg with
    | none => .ok (Interpreter.runMain { plan }).1
    | some arg =>
      match Text.splitOnce ['='] arg.toList with
      | none => .error { message := "--arg takes NAME=VALUE" }
      | some (name, text) =>
        .ok do
          let v ← Value.read (String.ofList (Text.trimBlank text))
          (Interpreter.call { plan } (String.ofList (Text.trimBlank name)) v).1
  match outcome with
  | .error e => .error e
  | .ok (.ok v) => .ok v
  | .ok (.error e) => .error { message := e.message }

/-- Carries a command out; gives what it prints. -/
def perform (host : Host m) (layout : Layout) (p : Program) (command : Command) :
    ExceptT Fault m String := do
  match command with
  | .dot => pure p.toDot
  | .run arg => do
    let plan ← planProgram "plan" p
    let v ← evaluate plan arg
    pure (v.render ++ "\n")
  | .compile target output => do
    let source ← compile layout target p
    match output with
    | none => pure source
    | some path =>
      match ← host.writeFile path source with
      | .ok _ => pure ""
      | .error e => throw (.under ("failed to write " ++ path) e.message [])
  | .exec target => do
    let _ ← compile layout target p
    let e := ToolError.spawn .build (host.refusal "sh")
    throw (.under ("failed to build or run the " ++ target.name ++ " program") e.message e.causes)

/-- Runs a command from the symbols to what it prints. -/
def execute (host : Host m) (args : Args) : ExceptT Fault m String := do
  let base ← baseSymbols host args.oracle
  let extra ← extraSymbols host args.symbols
  let (layout, draft) ← loadLayout host args.layout
  let p ← typeProgram (extra.shadowing base.resolver) draft
  perform host layout p args.command

/-- The whole program. -/
def run (host : Host m) (args : List String) : m Result := do
  match Args.read args with
  | .error .usage => pure { exit := 2, stderr := usageText }
  | .error .help => pure { stdout := helpText }
  | .error .version => pure { stdout := versionText }
  | .ok args =>
    match ← execute host args with
    | .ok text => pure { stdout := text }
    | .error fault => pure { exit := 1, stderr := fault.render }

end Dataflow.Cli
