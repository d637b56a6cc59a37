import Dataflow.Token

/-!
# Faults of a text

What is wrong with a text that should have been a type, a morphism, a pattern or a declaration.
-/

namespace Dataflow

structure ReadError where
  /-- What went wrong. -/
  message : String
  /-- The offending text, empty while unknown. -/
  fragment : String := ""
  /-- What would have been accepted. -/
  expected : List String := []
  /-- What stood there instead. -/
  found : Option String := none
  span : Option Span := none
deriving DecidableEq, Repr

namespace ReadError

/-- Names the offending text, unless a narrower one is named already. -/
def within (e : ReadError) (text : String) : ReadError :=
  if e.fragment.isEmpty then { e with fragment := text } else e

/-- Replaces what would have been accepted. -/
def expecting (e : ReadError) (what : String) : ReadError :=
  { e with expected := [what] }

/-- The fault as one line. -/
def text (e : ReadError) : String :=
  let expected := if e.expected.isEmpty then "" else ", expected " ++ " or ".intercalate e.expected
  let found :=
    match e.found with
    | some what => ", found " ++ what
    | none => ""
  let fragment := if e.fragment.isEmpty then "" else " in `" ++ e.fragment ++ "`"
  e.message ++ expected ++ found ++ fragment

end ReadError

end Dataflow
