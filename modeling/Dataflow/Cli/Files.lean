import Dataflow.Cli.Basic

/-!
# A directory in memory

A directory with files and without further directories, as the host of the command line.
-/

namespace Dataflow.Cli

/-- The files of a directory, by name. -/
structure Files where
  entries : List (String × String)
deriving DecidableEq, Repr

namespace Files

/-- Where a path leads. -/
inductive Place where
  /-- A name in the directory. -/
  | file (name : String)
  | refused (e : OsError)
deriving Repr

/-- The parts of a path between its slashes, without the empty ones and the dots. -/
def parts (path : String) : List String :=
  ((Text.splitAt (· = '/') path.toList).map String.ofList).filter fun p => !p.isEmpty && p ≠ "."

/-- Whether a path ends in a slash. -/
def endsInSlash (path : String) : Bool := path.toList.getLast? = some '/'

/-- Follows a path. Only names in the directory itself lead anywhere. -/
def locate (f : Files) (path : String) : Place :=
  match parts path with
  | [] => .refused .isADirectory
  | name :: rest =>
    if path.toList.head? = some '/' then .refused .notFound
    else if name = ".." then .refused (if rest.all (· = "..") then .isADirectory else .notFound)
    else
      let known := (f.entries.lookup name).isSome
      match rest with
      | [] =>
        if endsInSlash path then .refused (if known then .notADirectory else .notFound)
        else .file name
      | _ => .refused (if known then .notADirectory else .notFound)

def read (f : Files) (path : String) : Except OsError String :=
  match f.locate path with
  | .refused e => .error e
  | .file name =>
    match f.entries.lookup name with
    | some text => .ok text
    | none => .error .notFound

def write (f : Files) (path text : String) : Except OsError Files :=
  match f.locate path with
  | .refused e => .error e
  | .file name => .ok ⟨(name, text) :: f.entries.filter fun entry => entry.1 ≠ name⟩

/-- The directory as a host. No program can be started in it. -/
def host : Host (StateM Files) where
  readFile path := do pure ((← get).read path)
  writeFile path text := do
    match (← get).write path text with
    | .ok files => do
      set files
      pure (.ok ())
    | .error e => pure (.error e)
  refusal _ := .notFound

/-- The files that are new or have changed. -/
def changed (before after : Files) : List (String × String) :=
  after.entries.filter fun entry => before.entries.lookup entry.1 ≠ some entry.2

end Files

end Dataflow.Cli
