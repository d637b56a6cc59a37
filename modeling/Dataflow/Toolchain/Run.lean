import Dataflow.Shell.Run
import Dataflow.Toolchain

/-!
# From source to output

The build works on any system that can write files and start programs. `onShell` is a stand-in for the host: a
system in memory, whose shell and utilities are those of `Dataflow.Shell`. It is there to run builds without a
host; that a path is read as one word (`Shell.tokens`, `Shell.expandWords`) is all that results use of it.
-/

namespace Dataflow

/-- How a program that was started ended, and what it wrote. -/
structure Ended where
  exit : Shell.Exit
  stdout : List UInt8
  stderr : List UInt8

/-- What a build needs of the system. -/
structure Workshop (m : Type → Type) where
  /-- A new, empty directory. -/
  scratch : m (Except OsError (List UInt8))
  write : List UInt8 → List UInt8 → m (Except OsError Unit)
  start : List UInt8 → List String → m (Except OsError Ended)

structure ProgramOutput where
  stdout : String
  stderr : String
deriving DecidableEq, Repr

namespace Toolchain

/-- The number of a status; a program that was stopped by a signal has none, and minus one stands for
it. -/
def statusNumber : Shell.Exit → Int
  | .status n => n
  | .signal _ => -1

/-- What a program wrote, if it ended well. -/
def judge (stage : Stage) : Except OsError Ended → Except ToolError ProgramOutput
  | .error cause => .error (.spawn stage cause)
  | .ok r =>
    let stdout := Text.decodeLossy r.stdout
    let stderr := Text.decodeLossy r.stderr
    if r.exit = .status 0 then .ok ⟨stdout, stderr⟩
    else .error (.failed stage (statusNumber r.exit) stdout stderr)

/-- Writes the source to a scratch directory, builds it by the command and runs what was built. -/
def run {m : Type → Type} [Monad m] (w : Workshop m) (source extension command : String) :
    ExceptT ToolError m ProgramOutput := do
  let dir ← (w.scratch : m _) >>= fun r => ExceptT.mk (pure (r.mapError .io))
  let input := dir ++ Text.encode ("/program." ++ extension)
  let output := dir ++ Text.encode "/program"
  (w.write input (Text.encode source) : m _) >>= fun r => ExceptT.mk (pure (r.mapError .io))
  let built ← (w.start (Text.encode "sh") ["-c", expand command input output] : m _)
  let _ ← ExceptT.mk (pure (judge .build built))
  let ran ← (w.start output [] : m _)
  ExceptT.mk (pure (judge .run ran))

/-- A system in memory whose programs are scripts and whose files have texts for names. -/
def onShell : Workshop (StateM Shell.State) where
  scratch := do
    let dir := "/tmp/scratch"
    modify (·.put dir .directory)
    return .ok (Text.encode dir)
  write path bs := do
    match (← get).write (Text.decodeLossy path) bs with
    | .ok s => set s; return .ok ()
    | .error cause => return .error cause
  start program args := do
    let s ← get
    match Shell.start (Text.decodeLossy program) args s with
    | .ok (t, exit, stdout, stderr) => set t; return .ok ⟨exit, stdout, stderr⟩
    | .error cause => return .error cause

/-- Builds and runs a source in memory. -/
def runScripted (source extension command : String) : Except ToolError ProgramOutput :=
  ((run onShell source extension command).run.run Shell.fresh).1

end Toolchain

end Dataflow
