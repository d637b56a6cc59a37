import Dataflow.OsError
import Dataflow.Text.Utf8

/-!
# What shell commands act on

Files by path, variables, and the streams that output has gone to so far.
-/

namespace Dataflow.Shell

abbrev Octets := List UInt8

inductive Entry where
  | file (content : Octets) (executable : Bool)
  | directory
deriving DecidableEq, Repr

/-- Where output goes: a stream by its number, a file, or nowhere. -/
inductive Sink where
  | stream (n : Nat)
  | file (path : String)
  | nowhere
deriving DecidableEq, Repr

/-- The input of a command and where its output and its complaints go. -/
structure Ports where
  input : Octets
  out : Sink
  err : Sink

structure State where
  entries : List (String × Entry)
  bindings : List (String × String)
  /-- The variables that programs started from here get. -/
  exported : List String
  /-- The name that complaints begin with, and the arguments of the script. -/
  name : String
  args : List String
  pid : Nat
  /-- Whether a command that fails ends the script. -/
  strict : Bool
  /-- The status of the last command. -/
  status : Nat
  streams : List Octets

/-- How a command leaves the shell: going on, at an end with a status, or stopped by a signal to the
process of a number. -/
inductive Flow where
  | next
  | exit (status : Nat)
  | killed (pid signal : Nat)
deriving DecidableEq, Repr

/-- The value of the first pair with a key. -/
def lookup {β : Type} (key : String) (pairs : List (String × β)) : Option β :=
  (pairs.find? (·.1 == key)).map (·.2)

/-- The pairs with the value of a key replaced, or the pair put at the end. -/
def assign {β : Type} (key : String) (value : β) : List (String × β) → List (String × β)
  | [] => [(key, value)]
  | (k, v) :: ps => if k == key then (key, value) :: ps else (k, v) :: assign key value ps

namespace State

/-- The directory that relative paths start from. -/
def home : String := "/work"

/-- The path from the root, without empty steps and single dots. -/
def resolve (path : String) : String :=
  let full := if path.startsWith "/" then path else home ++ "/" ++ path
  let steps := (full.splitOn "/").filter fun s => s != "" && s != "."
  "/" ++ "/".intercalate steps

/-- The directory that holds a path. -/
def parent (path : String) : String :=
  "/" ++ "/".intercalate (((resolve path).splitOn "/").filter (· != "")).dropLast

def entry? (s : State) (path : String) : Option Entry :=
  if resolve path == "/" then some .directory else lookup (resolve path) s.entries

def put (s : State) (path : String) (e : Entry) : State :=
  { s with entries := assign (resolve path) e s.entries }

/-- Without the entry and all that is below it. -/
def remove (s : State) (path : String) : State :=
  let p := resolve path
  { s with entries := s.entries.filter fun (q, _) => q != p && !q.startsWith (p ++ "/") }

/-- What a file holds. -/
def content (s : State) (path : String) : Except OsError Octets :=
  if resolve path == "/dev/null" then .ok []
  else
    match s.entry? path with
    | some (.file bs _) => .ok bs
    | some .directory => .error .isADirectory
    | none => .error .notFound

/-- Writes a file; one that is there keeps its permission to run. -/
def write (s : State) (path : String) (bs : Octets) : Except OsError State :=
  match s.entry? path, s.entry? (parent path) with
  | some .directory, _ => .error .isADirectory
  | some (.file _ x), _ => .ok (s.put path (.file bs x))
  | none, some .directory => .ok (s.put path (.file bs false))
  | none, some (.file _ _) => .error .notADirectory
  | none, none => .error .notFound

/-- Adds octets to where output goes. -/
def emit (s : State) (sink : Sink) (bs : Octets) : State :=
  match sink with
  | .nowhere => s
  | .stream n => { s with streams := s.streams.modify n (· ++ bs) }
  | .file path =>
    match s.entry? path with
    | some (.file old x) => s.put path (.file (old ++ bs) x)
    | _ => s

/-- Opens a stream for output that another command takes. -/
def openStream (s : State) : State × Nat :=
  ({ s with streams := s.streams ++ [[]] }, s.streams.length)

def streamOf (s : State) (n : Nat) : Octets := (s.streams[n]?).getD []

/-- The value of a variable. -/
def value? (s : State) (name : String) : Option String :=
  match name with
  | "?" => some (toString s.status)
  | "$" => some (toString s.pid)
  | "#" => some (toString s.args.length)
  | "@" | "*" => some (" ".intercalate s.args)
  | "0" => some s.name
  | _ =>
    match name.toNat? with
    | some n => s.args[n - 1]?
    | none => lookup name s.bindings

end State

end Dataflow.Shell
