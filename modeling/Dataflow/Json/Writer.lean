import Dataflow.Decimal.Style
import Dataflow.Json.Basic

/-!
# Writing JSON

Every item and every field stands on a line of its own, two blanks further in than the brackets
around it. Empty lists and objects are written without a line end.
-/

namespace Dataflow.Json

/-- Numbers are written with the fewest digits that identify them, positionally from `0.00001` up to
but not including `10 ^ 16`, and a positive exponent has its sign. -/
def number : Decimal.Style where
  plainFrom := -5
  plainBelow := 16
  signedExponent := true
  tie := .toEven

def ofFloat (x : Float) : Json := .num (number.write x).toList

def ofNat (n : Nat) : Json := .num (Nat.toDigits 10 n)

/-- A code point in a string. Only what has to be is escaped. -/
def escape (n : Nat) : List Char :=
  match n with
  | 34 => ['\\', '"']
  | 92 => ['\\', '\\']
  | 8 => ['\\', 'b']
  | 12 => ['\\', 'f']
  | 10 => ['\\', 'n']
  | 13 => ['\\', 'r']
  | 9 => ['\\', 't']
  | n =>
    if n < 32 then ['\\', 'u', '0', '0', Nat.digitChar (n / 16), Nat.digitChar (n % 16)]
    else [Char.ofNat n]

def quoted (points : List Nat) : String := "\"" ++ String.ofList (points.flatMap escape) ++ "\""

/-- A new line at a level of nesting. -/
def newline (level : Nat) : String := "\n" ++ String.ofList (List.replicate (2 * level) ' ')

mutual

/-- A value that stands at a level of nesting. -/
def prettyAt (level : Nat) : Json → String
  | .null => "null"
  | .bool b => if b then "true" else "false"
  | .num lexeme => String.ofList lexeme
  | .str points => quoted points
  | .arr [] => "[]"
  | .arr (item :: items) =>
    "[" ++ newline (level + 1) ++
      ("," ++ newline (level + 1)).intercalate (prettyAt (level + 1) item :: prettyItems (level + 1) items) ++
      newline level ++ "]"
  | .obj [] => "\x7b\x7d"
  | .obj ((key, v) :: fields) =>
    "\x7b" ++ newline (level + 1) ++
      ("," ++ newline (level + 1)).intercalate
        ((quoted key ++ ": " ++ prettyAt (level + 1) v) :: prettyFields (level + 1) fields) ++
      newline level ++ "\x7d"
termination_by structural j => j

def prettyItems (level : Nat) : List Json → List String
  | [] => []
  | item :: items => prettyAt level item :: prettyItems level items
termination_by structural items => items

def prettyFields (level : Nat) : List (List Nat × Json) → List String
  | [] => []
  | (key, v) :: fields => (quoted key ++ ": " ++ prettyAt level v) :: prettyFields level fields
termination_by structural fields => fields

end

/-- The value as text. -/
def pretty (j : Json) : String := prettyAt 0 j

end Dataflow.Json
