import Dataflow.OsError
import Dataflow.Text.Split
import Dataflow.Text.Utf8

/-!
# Talking to an interactive tool

A tool reads lines and prints octets. What it prints arrives in chunks, which may be cut anywhere,
even inside a character. An answer is everything printed before the next prompt; what follows the
prompt belongs to the next answer. Waiting ends when the tool has printed all it will print: either
it is silent until time runs out, or it has ended.
-/

namespace Dataflow

inductive OracleError where
  | spawn (program : String) (cause : OsError)
  | io (cause : OsError)
  /-- No prompt came within the given time, in milliseconds. -/
  | timeout (query : String) (milliseconds : Nat)
  | closed
deriving DecidableEq, Repr

/-- A time as text, in seconds or else in milliseconds. -/
def durationText (milliseconds : Nat) : String :=
  if milliseconds = 0 then "0ns"
  else if milliseconds < 1000 then toString milliseconds ++ "ms"
  else
    let rest := milliseconds % 1000
    let digits := [rest / 100, rest / 10 % 10, rest % 10]
    let kept := (digits.reverse.dropWhile (· = 0)).reverse
    let fraction := if kept.isEmpty then "" else "." ++ String.join (kept.map toString)
    toString (milliseconds / 1000) ++ fraction ++ "s"

def OracleError.message : OracleError → String
  | .spawn program cause => "failed to start `" ++ program ++ "`: " ++ cause.message
  | .io cause => "oracle i/o failed: " ++ cause.message
  | .timeout query ms => "no answer to `" ++ query ++ "` within " ++ durationText ms
  | .closed => "oracle process is gone"

/-- What a tool does when it starts or reads a line: what it prints, and whether it goes on. -/
structure Reaction (σ : Type) where
  state : σ
  output : List (List UInt8)
  exited : Bool
deriving Repr

/-- A tool, by its reaction to a line. -/
abbrev Tool (σ : Type) := σ → String → Reaction σ

/-- A tool that has been started. -/
structure Session (σ : Type) where
  state : σ
  exited : Bool
  /-- Chunks that were printed and have not been taken yet. -/
  inbox : List (List UInt8)
  /-- Octets that were taken and do not belong to an answer yet. -/
  pending : List UInt8
deriving Repr

namespace Session

variable {σ : Type}

def start (r : Reaction σ) : Session σ := ⟨r.state, r.exited, r.output, []⟩

/-- The tool reads lines until it ends. -/
def feed (tool : Tool σ) (s : Session σ) : List String → Session σ
  | [] => s
  | line :: rest =>
    if s.exited then s
    else
      let r := tool s.state line
      feed tool ⟨r.state, r.exited, s.inbox ++ r.output, s.pending⟩ rest

/-- Sends a text and a line end. A tool that has ended takes nothing. -/
def send (tool : Tool σ) (s : Session σ) (text : String) : Except OracleError (Session σ) :=
  if s.exited then .error (.io .brokenPipe) else .ok (s.feed tool (Text.lines text))

/-- Takes chunks until the prompt is among the pending octets: the answer, the octets behind the
prompt and the chunks left. -/
def takeAnswer (prompt : List UInt8) (pending : List UInt8) :
    List (List UInt8) → Option (String × List UInt8 × List (List UInt8))
  | [] =>
    (Text.splitOnce prompt pending).map fun (answer, rest) => (Text.decodeLossy answer, rest, [])
  | chunk :: inbox =>
    match Text.splitOnce prompt pending with
    | some (answer, rest) => some (Text.decodeLossy answer, rest, chunk :: inbox)
    | none => takeAnswer prompt (pending ++ chunk) inbox

/-- Everything before the next prompt. `query` and `timeout` are for the message. -/
def untilPrompt (prompt : String) (timeout : Nat) (query : String) (s : Session σ) :
    Except OracleError (String × Session σ) :=
  match takeAnswer (Text.encode prompt) s.pending s.inbox with
  | some (answer, pending, inbox) => .ok (answer, { s with pending, inbox })
  | none => .error (if s.exited then .closed else .timeout query timeout)

/-- Sends a text and waits for its answer. -/
def ask (tool : Tool σ) (prompt : String) (timeout : Nat) (s : Session σ) (text : String) :
    Except OracleError (String × Session σ) :=
  match s.send tool text with
  | .ok s => s.untilPrompt prompt timeout text
  | .error e => .error e

end Session

end Dataflow
