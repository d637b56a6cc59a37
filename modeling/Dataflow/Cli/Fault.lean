import Dataflow.Layout.Basic
import Dataflow.Oracle.Session
import Dataflow.Plan.Walk

/-!
# Faults of the command line

A fault is a message with the causes behind it, the nearest first.
-/

namespace Dataflow

/-- What is behind a fault of the typing. -/
def TypingError.causes : TypingError → List String
  | .morphism _ cause => cause.message :: (cause.cause?.map MatchError.message).toList
  | _ => []

/-- What is behind a fault of the planning. -/
def PlanError.causes : PlanError → List String
  | .typing _ cause => [cause.message]
  | .scope _ cause => [cause.message]
  | _ => []

/-- What is behind a fault of a layout. -/
def LayoutError.causes : LayoutError → List String
  | .unreadable cause => [cause.message]
  | _ => []

/-- What is behind a fault of an oracle. -/
def OracleError.causes : OracleError → List String
  | .spawn _ cause => [cause.message]
  | .io cause => [cause.message]
  | _ => []

namespace Cli

structure Fault where
  message : String
  causes : List String := []
deriving DecidableEq, Repr

namespace Fault

/-- A fault behind a new message. -/
def under (message : String) (cause : String) (causes : List String) : Fault :=
  ⟨message, cause :: causes⟩

/-- A text with each of its lines but the first moved in. -/
def hang (indent text : String) : String := ("\n" ++ indent).intercalate (Text.lines text)

/-- A number on five places. -/
def numbered (n : Nat) : String :=
  let digits := toString n
  String.ofList (List.replicate (5 - digits.length) ' ') ++ digits ++ ": "

/-- The fault as text: the message, and below it the causes, numbered if there are several. -/
def render (f : Fault) : String :=
  let causes :=
    match f.causes with
    | [] => ""
    | [cause] => "\n\nCaused by:\n    " ++ hang "    " cause
    | causes =>
      "\n\nCaused by:" ++
        String.join (causes.zipIdx.map fun (c, n) => "\n" ++ numbered n ++ hang "       " c)
  "Error: " ++ f.message ++ causes ++ "\n"

end Fault

end Cli

end Dataflow
