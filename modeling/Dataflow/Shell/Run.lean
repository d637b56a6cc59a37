import Dataflow.Shell.Command
import Dataflow.Shell.Utility

/-!
# Running scripts

Commands run by recursion on the command. What they start in turn, scripts in files, in arguments and
in substitutions, is run by a function that is passed in; `runWithin` ties the knot with a bound on
the nesting.

How words become fields is how a shell reads a build command, and results are about that. From the redirections
on, this is a stand-in for the host's shell, for builds that run in memory.
-/

namespace Dataflow.Shell

/-- Runs a script text in the shell at hand. -/
abbrev Interpreter := String → Ports → State → State × Flow

/-- How a process ended. -/
inductive Exit where
  | status (n : Nat)
  | signal (n : Nat)
deriving DecidableEq, Repr

/-- A complaint of the shell itself. -/
def complain (ports : Ports) (s : State) (text : String) : State :=
  s.emit ports.err (Text.encode (s.name ++ ": 1: " ++ text ++ "\n"))

/-! ## Words to fields -/

/-- Whether the shell splits fields at the sign. -/
def isSeparator (c : Char) : Bool := c == ' ' || c == '\t' || c == '\n'

/-- Fields that are finished, and the one being put together. -/
structure Fields where
  finished : List String
  current : Option String

namespace Fields

def start : Fields := ⟨[], none⟩

def append (f : Fields) (text : String) : Fields :=
  { f with current := some (f.current.getD "" ++ text) }

def finish (f : Fields) : Fields :=
  match f.current with
  | some t => ⟨f.finished ++ [t], none⟩
  | none => f

/-- Adds text that is cut at blanks. -/
def split (f : Fields) (text : String) : Fields :=
  text.toList.foldl
    (fun f c => if isSeparator c then f.finish else f.append (String.singleton c)) f

def toList (f : Fields) : List String := f.finish.finished

end Fields

/-- Runs in a shell of its own: what it sets is forgotten, its end ends nothing else. -/
def enclosed (outer : State) : State × Flow → State × Flow
  | (s, .killed pid signal) => (s, .killed pid signal)
  | (s, flow) =>
    let status := match flow with
      | .exit n => n
      | _ => s.status
    ({ s with
        bindings := outer.bindings
        exported := outer.exported
        strict := outer.strict
        status := status }, .next)

/-- The output of a script without the line ends after it. -/
def capture (interpret : Interpreter) (script : String) (ports : Ports) (s : State) :
    State × Flow × String :=
  let (t, n) := s.openStream
  let (t, flow) := enclosed t (interpret script { ports with out := .stream n } t)
  let text := (Text.decodeLossy (t.streamOf n)).toList
  (t, flow, String.ofList (text.reverse.dropWhile (· == '\n')).reverse)

/-- Adds a piece of a word to the fields. -/
def expandPiece (interpret : Interpreter) (ports : Ports) (p : Piece) (s : State) (f : Fields) :
    State × Flow × Fields :=
  let add (quoted : Bool) (text : String) : Fields := if quoted then f.append text else f.split text
  match p with
  | .text t _ => (s, .next, f.append t)
  | .parameter name fallback quoted =>
    let value := match fallback with
      | none => (s.value? name).getD ""
      | some d =>
        match s.value? name with
        | some v => if v == "" then d else v
        | none => d
    (s, .next, add quoted value)
  | .output script quoted =>
    let (s, flow, text) := capture interpret script ports s
    (s, flow, add quoted text)

def expandPieces (interpret : Interpreter) (ports : Ports) :
    Word → State → Fields → State × Flow × Fields
  | [], s, f => (s, .next, f)
  | p :: w, s, f =>
    match expandPiece interpret ports p s f with
    | (s, .next, f) => expandPieces interpret ports w s f
    | stopped => stopped

/-- The fields of the words. -/
def expandWords (interpret : Interpreter) (ports : Ports) :
    List Word → State → State × Flow × List String
  | [], s => (s, .next, [])
  | w :: ws, s =>
    match expandPieces interpret ports w s .start with
    | (s, .next, f) =>
      let (s, flow, more) := expandWords interpret ports ws s
      (s, flow, f.toList ++ more)
    | (s, flow, _) => (s, flow, [])

/-- The text of a word as one field. -/
def expandText (interpret : Interpreter) (ports : Ports) (w : Word) (s : State) :
    State × Flow × String :=
  let (s, flow, f) := expandPieces interpret ports w s .start
  (s, flow, " ".intercalate f.toList)

/-! ## Redirections -/

/-- The ports with one stream sent elsewhere, or a complaint. -/
def redirect (sign : String) (stream : Nat) (target : String) (ports : Ports) (s : State) :
    Except String (State × Ports) :=
  let send (s : State) (sink : Sink) : State × Ports :=
    (s,
      match stream with
      | 1 => { ports with out := sink }
      | 2 => { ports with err := sink }
      | _ => ports)
  if sign == "<" then
    match s.content target with
    | .ok bs => .ok (s, { ports with input := bs })
    | .error _ => .error ("cannot open " ++ target ++ ": No such file")
  else if sign == ">&" || sign == "<&" then
    match target with
    | "1" => .ok (send s ports.out)
    | "2" => .ok (send s ports.err)
    | "-" => .ok (send s .nowhere)
    | "0" => .ok (s, ports)
    | _ => .error (target ++ ": Bad file descriptor")
  else
    match State.resolve target with
    | "/dev/null" => .ok (send s .nowhere)
    | "/dev/stdout" => .ok (send s ports.out)
    | "/dev/stderr" => .ok (send s ports.err)
    | _ =>
      let old := match s.content target with
        | .ok bs => bs
        | .error _ => []
      match s.write target (if sign == ">>" then old else []) with
      | .ok s => .ok (send s (.file target))
      | .error .isADirectory => .error ("cannot create " ++ target ++ ": Is a directory")
      | .error _ => .error ("cannot create " ++ target ++ ": Directory nonexistent")

/-- Carries out redirections from left to right; `none` for ports if one is refused. -/
def redirectAll (interpret : Interpreter) :
    List Redirect → Ports → State → State × Flow × Option Ports
  | [], ports, s => (s, .next, some ports)
  | r :: rs, ports, s =>
    match expandText interpret ports r.target s with
    | (s, .next, target) =>
      match redirect r.sign r.stream target ports s with
      | .ok (s, ports) => redirectAll interpret rs ports s
      | .error text => ({ complain ports s text with status := 2 }, .next, none)
    | (s, flow, _) => (s, flow, none)

/-! ## Programs -/

/-- The directories whose programs go by their names alone. -/
def programDirectories : List String := ["/bin/", "/usr/bin/"]

/-- The program that a path in one of those directories names, or the path itself. -/
def programName (path : String) : String :=
  match programDirectories.find? (fun d => path.startsWith d) with
  | some d => (path.drop d.length).toString
  | none => path

/-- Whether the name is that of a shell. -/
def isShell (name : String) : Bool := ["sh", "dash", "bash"].contains name

/-- The program and its argument that the first line of a script names. -/
def scriptProgram? (script : String) : Option (List String) :=
  match script.toList with
  | '#' :: '!' :: cs =>
    let line := ((cs.takeWhile (· != '\n')).dropWhile isSeparator).reverse.dropWhile isSeparator
    let line := line.reverse
    let program := line.takeWhile (!isSeparator ·)
    let rest := (line.dropWhile (!isSeparator ·)).dropWhile isSeparator
    if program.isEmpty then none
    else some (String.ofList program :: if rest.isEmpty then [] else [String.ofList rest])
  | _ => none

/-- The state in which a program starts. -/
def childOf (s : State) (name : String) (args : List String) : State :=
  { s with
    bindings := s.bindings.filter fun (k, _) => s.exported.contains k
    name := name
    args := args
    pid := s.pid + 1
    strict := false
    status := 0 }

/-- How a process ended and the state of the one that started it, or a signal that was for another
one. -/
def reap (outer : State) : State × Flow → State × Except Flow Exit
  | (t, flow) =>
    let s := { outer with entries := t.entries, streams := t.streams }
    match flow with
    | .next => (s, .ok (.status t.status))
    | .exit n => (s, .ok (.status n))
    | .killed pid signal =>
      if pid == outer.pid + 1 then (s, .ok (.signal signal)) else (s, .error (.killed pid signal))

/-- A complaint about the arguments of a shell, which ends it. -/
def badArguments (name text : String) (ports : Ports) (s : State) : State × Flow :=
  ({ s.emit ports.err (Text.encode (name ++ ": 0: " ++ text ++ "\n")) with status := 2 }, .exit 2)

/-- Runs a shell with its arguments: a script behind `-c`, in a file, or in the input. -/
def runShell (interpret : Interpreter) (name : String) (args : List String) (ports : Ports)
    (s : State) : State × Flow :=
  let strict := args.head? == some "-e" || args.head? == some "-ec"
  let args := if args.head? == some "-e" then args.tail else args
  let start (name : String) (args : List String) (script : String) : State × Flow :=
    interpret script ports { s with name := name, args := args, strict := strict }
  match args with
  | [] => start name [] (Text.decodeLossy ports.input)
  | first :: rest =>
    if first == "-c" || first == "-ec" then
      match rest with
      | [] => badArguments name "-c requires an argument" ports s
      | script :: rest => start (rest.headD name) rest.tail script
    else
      match s.content first with
      | .ok bs => start first rest (Text.decodeLossy bs)
      | .error _ => badArguments name ("cannot open " ++ first ++ ": No such file") ports s

/-- Runs a program of one of the known names in a process of its own. -/
def runNamed (interpret : Interpreter) (name : String) (args : List String) (ports : Ports)
    (s : State) : Option (State × Except Flow Exit) :=
  let (name, args) := if name == "env" then (programName (args.headD ""), args.tail) else (name, args)
  if isShell name then
    some (reap s (runShell interpret name args ports (childOf s name args)))
  else
    (Utility.run (childOf s name args) name args ports.input).map fun e =>
      let t := (e.state.emit ports.out e.out).emit ports.err e.err
      reap s ({ t with status := e.status }, .next)

/-- Starts a program: one of a known name, or a file that may be run and names in its first line the
program to run it. -/
def launch (interpret : Interpreter) (program : String) (args : List String) (ports : Ports)
    (s : State) : Except OsError (State × Except Flow Exit) :=
  match s.entry? program with
  | some .directory => .error .permissionDenied
  | some (.file bs x) =>
    if !x then .error .permissionDenied
    else
      match scriptProgram? (Text.decodeLossy bs) with
      | none => .error .execFormat
      | some [] => .error .execFormat
      | some (first :: options) =>
        match runNamed interpret (programName first) (options ++ program :: args) ports s with
        | some r => .ok r
        | none => .error .notFound
  | none =>
    match runNamed interpret (programName program) args ports s with
    | some r => .ok r
    | none => .error .notFound

/-! ## Commands of the shell itself -/

/-- Signals by name. -/
def signals : List (String × Nat) :=
  [("HUP", 1), ("INT", 2), ("QUIT", 3), ("ILL", 4), ("TRAP", 5), ("ABRT", 6), ("BUS", 7), ("FPE", 8),
    ("KILL", 9), ("USR1", 10), ("SEGV", 11), ("USR2", 12), ("PIPE", 13), ("ALRM", 14), ("TERM", 15)]

/-- The signals that a process does not notice. -/
def isUnnoticed (signal : Nat) : Bool := [0, 17, 18, 23, 28].contains signal

def signalNumber? (text : String) : Option Nat :=
  match text.toNat? with
  | some n => some n
  | none => lookup (if text.startsWith "SIG" then (text.drop 3).toString else text) signals

/-- What the shell says when a program was stopped by a signal. -/
def signalText (signal : Nat) : String :=
  match signal with
  | 6 => "Aborted\n"
  | 9 => "Killed\n"
  | 11 => "Segmentation fault\n"
  | 15 => "Terminated\n"
  | _ => ""

def kill (args : List String) (ports : Ports) (s : State) : State × Flow :=
  let (signal, pids) : Option Nat × List String := match args with
    | "-s" :: name :: rest => (signalNumber? name, rest)
    | first :: rest =>
      if first.startsWith "-" then (signalNumber? (first.drop 1).toString, rest)
      else (some 15, args)
    | [] => (some 15, [])
  match signal, pids.head?.bind (·.toNat?) with
  | some n, some pid =>
    if pid == 0 || pid > s.pid then
      ({ complain ports s "kill: No such process" with status := 1 }, .next)
    else if isUnnoticed n then ({ s with status := 0 }, .next)
    else (s, .killed pid n)
  | _, _ =>
    ({ complain ports s "kill: Usage: kill [-s sigspec | -signum | -sigspec] [pid | job]..." with
        status := 2 }, .next)

/-- Sets variables from arguments of the form name, equals sign, value. -/
def exportAll (args : List String) (s : State) : State :=
  args.foldl (fun s a =>
    let name := String.ofList (a.toList.takeWhile (· != '='))
    let s := { s with exported := name :: s.exported }
    match a.toList.dropWhile (· != '=') with
    | _ :: value => { s with bindings := assign name (String.ofList value) s.bindings }
    | [] => s) { s with status := 0 }

/-- Runs a command that is a program, and takes over its status. -/
def runProgram (interpret : Interpreter) (name : String) (args : List String) (ports : Ports)
    (s : State) : State × Flow :=
  let named := if name.toList.contains '/' then none else Utility.run s name args ports.input
  match named with
  | some e =>
    let t := (e.state.emit ports.out e.out).emit ports.err e.err
    ({ t with status := e.status }, .next)
  | none =>
    let missing : Except OsError (State × Except Flow Exit) :=
      if name.toList.contains '/' || isShell name || name == "env" then
        launch interpret name args ports s
      else .error .notFound
    match missing with
    | .ok (s, .ok (.status n)) => ({ s with status := n }, .next)
    | .ok (s, .ok (.signal n)) =>
      ({ s.emit ports.err (Text.encode (signalText n)) with status := 128 + n }, .next)
    | .ok (s, .error flow) => (s, flow)
    | .error .notFound => ({ complain ports s (name ++ ": not found") with status := 127 }, .next)
    | .error cause => ({ complain ports s (name ++ ": " ++ cause.text) with status := 126 }, .next)

/-- Runs a command by its fields. -/
def runFields (interpret : Interpreter) (name : String) (args : List String) (ports : Ports)
    (s : State) : State × Flow :=
  match name with
  | "exit" | "return" =>
    match args with
    | [] => (s, .exit s.status)
    | a :: _ =>
      match a.toNat? with
      | some n => (s, .exit (n % 256))
      | none => (complain ports s ("exit: Illegal number: " ++ a), .exit 2)
  | "exec" =>
    match args with
    | [] => ({ s with status := 0 }, .next)
    | name :: args =>
      match runProgram interpret name args ports s with
      | (s, .next) => (s, .exit s.status)
      | r => r
  | "eval" => interpret (" ".intercalate args) ports s
  | "export" => (exportAll args s, .next)
  | "unset" =>
    ({ s with bindings := s.bindings.filter fun (k, _) => !args.contains k, status := 0 }, .next)
  | "set" =>
    let strict := (s.strict || args.any fun a => a.startsWith "-" && a.toList.contains 'e')
      && !args.contains "+e"
    ({ s with strict := strict, status := 0 }, .next)
  | "shift" => ({ s with args := s.args.tail, status := 0 }, .next)
  | "kill" => kill args ports s
  | _ => runProgram interpret name args ports s

/-- Sets the variables of a command from left to right. -/
def setAll (interpret : Interpreter) (ports : Ports) (exporting : Bool) :
    List (String × Word) → State → State × Flow
  | [], s => (s, .next)
  | (name, w) :: rest, s =>
    match expandText interpret ports w s with
    | (s, .next, value) =>
      setAll interpret ports exporting rest
        { s with
          bindings := assign name value s.bindings
          exported := if exporting then name :: s.exported else s.exported }
    | (s, flow, _) => (s, flow)

/-- A simple command: its words, its settings and its redirections. -/
def runSimple (interpret : Interpreter) (settings : List (String × Word)) (words : List Word)
    (redirects : List Redirect) (ports : Ports) (s : State) : State × Flow :=
  match expandWords interpret ports words s with
  | (t, .next, fields) =>
    match redirectAll interpret redirects ports t with
    | (t, .next, some inner) =>
      match fields with
      | [] =>
        let status := if words.isEmpty && settings.isEmpty then 0 else t.status
        match setAll interpret ports false settings { t with status := 0 } with
        | (t, .next) =>
          ({ t with status := if settings.isEmpty then status else t.status }, .next)
        | r => r
      | name :: args =>
        match setAll interpret ports true settings t with
        | (t, .next) =>
          let (r, flow) := runFields interpret name args inner t
          (if settings.isEmpty then r
            else { r with bindings := s.bindings, exported := s.exported }, flow)
        | r => r
    | (t, flow, _) => (t, flow)
  | (t, flow, _) => (t, flow)

/-! ## Commands -/

/-- Runs for each value in turn. -/
def runEach (name : String) (body : State → State × Flow) : List String → State → State × Flow
  | [], s => (s, .next)
  | v :: vs, s =>
    match body { s with bindings := assign name v s.bindings } with
    | (s, .next) => runEach name body vs s
    | r => r

/-- Ends the script after a failure, if failures are not to be passed over. -/
def heed (tested : Bool) : State × Flow → State × Flow
  | (s, .next) => if s.strict && !tested && s.status != 0 then (s, .exit s.status) else (s, .next)
  | r => r

/-- Runs a command. One that is `tested` may fail without ending a strict script. -/
def Command.run (interpret : Interpreter) : Command → Bool → Ports → State → State × Flow
  | .nothing, _, _, s => (s, .next)
  | .simple settings words redirects, tested, ports, s =>
    heed tested (runSimple interpret settings words redirects ports s)
  | .seq a b, tested, ports, s =>
    match a.run interpret tested ports s with
    | (s, .next) => b.run interpret tested ports s
    | r => r
  | .and a b, tested, ports, s =>
    match a.run interpret true ports s with
    | (s, .next) => if s.status == 0 then b.run interpret tested ports s else (s, .next)
    | r => r
  | .or a b, tested, ports, s =>
    match a.run interpret true ports s with
    | (s, .next) => if s.status == 0 then (s, .next) else b.run interpret tested ports s
    | r => r
  | .not a, _, ports, s =>
    match a.run interpret true ports s with
    | (s, .next) => ({ s with status := if s.status == 0 then 1 else 0 }, .next)
    | r => r
  | .pipe a b, tested, ports, s =>
    let (t, n) := s.openStream
    match enclosed s (a.run interpret true { ports with out := .stream n } t) with
    | (t, .next) =>
      heed tested (enclosed s (b.run interpret true { ports with input := t.streamOf n } t))
    | r => r
  | .subshell c redirects, tested, ports, s =>
    match redirectAll interpret redirects ports s with
    | (t, .next, some inner) => heed tested (enclosed s (c.run interpret tested inner t))
    | (t, flow, _) => (t, flow)
  | .group c redirects, tested, ports, s =>
    match redirectAll interpret redirects ports s with
    | (t, .next, some inner) => c.run interpret tested inner t
    | (t, flow, _) => (t, flow)
  | .ifThen test yes no, tested, ports, s =>
    match test.run interpret true ports s with
    | (s, .next) =>
      if s.status == 0 then yes.run interpret tested ports s
      else no.run interpret tested ports { s with status := 0 }
    | r => r
  | .forEach name values body, tested, ports, s =>
    match expandWords interpret ports values s with
    | (s, .next, values) =>
      runEach name (fun s => body.run interpret tested ports s) values { s with status := 0 }
    | (s, flow, _) => (s, flow)

/-- Runs a script with at most so many scripts inside one another. -/
def runWithin : Nat → Interpreter
  | 0, _, ports, s =>
    ({ complain ports s "Maximum function recursion depth reached" with status := 2 }, .exit 2)
  | n + 1, script, ports, s =>
    match Command.read script with
    | .ok c => c.run (runWithin n) false ports s
    | .error fault => ({ complain ports s fault.message with status := 2 }, .exit 2)

/-- More scripts than this are never inside one another. -/
def maxNesting : Nat := 1000

/-- Starts a program with no input; its output and complaints go to streams of their own. -/
def start (program : String) (args : List String) (s : State) :
    Except OsError (State × Exit × Octets × Octets) :=
  let s := { s with streams := [[], []] }
  match launch (runWithin maxNesting) program args ⟨[], .stream 0, .stream 1⟩ s with
  | .error cause => .error cause
  | .ok (t, ended) =>
    let exit := match ended with
      | .ok e => e
      | .error (.killed _ n) => .signal n
      | .error _ => .status t.status
    .ok (t, exit, t.streamOf 0, t.streamOf 1)

/-- A system with nothing but a place for temporary files and one to work in. -/
def fresh : State where
  entries := [("/tmp", .directory), (State.home, .directory)]
  bindings := []
  exported := []
  name := "sh"
  args := []
  pid := 1000
  strict := false
  status := 0
  streams := [[], []]

end Dataflow.Shell
