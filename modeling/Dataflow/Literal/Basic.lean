import Dataflow.Decimal.Style
import Dataflow.Text.Quoted
import Dataflow.Ty.Basic

/-!
# Literals

The constants that morphisms and patterns can hold.
-/

namespace Dataflow

inductive Literal where
  | int (n : Int64)
  | float (x : Float)
  | char (c : Char)
  | bool (b : Bool)
  | text (s : String)
  | unit
deriving Repr, Inhabited

/-- Numbers are written with the fewest digits that identify them, positionally from `0.0001` up to
but not including `10 ^ 16`; of two equally near ones the greater is written. -/
def Literal.number : Decimal.Style where
  plainFrom := -4
  plainBelow := 16
  signedExponent := false
  tie := .up

namespace Literal

/-- Equality of constants; numbers with a point compare as numbers, so `-0.0` equals `0.0` and the
value that is no number equals nothing. -/
def beq : Literal → Literal → Bool
  | .int a, .int b => a == b
  | .float a, .float b => a == b
  | .char a, .char b => a == b
  | .bool a, .bool b => a == b
  | .text a, .text b => a == b
  | .unit, .unit => true
  | _, _ => false

instance : BEq Literal := ⟨beq⟩

def ty : Literal → Ty
  | .int _ => .int
  | .float _ => .float
  | .char _ => .char
  | .bool _ => .bool
  | .text _ => .string
  | .unit => .unit

/-- A number below zero, which is written in parentheses where it could be misread. -/
def isNegative : Literal → Bool
  | .int n => n.toInt < 0
  | .float x => x < 0.0
  | _ => false

/-- The constant as text. -/
def render : Literal → String
  | .int n => toString n.toInt
  | .float x => number.write x
  | .char c => Text.quotedChar c
  | .bool true => "True"
  | .bool false => "False"
  | .text s => Text.quotedString s
  | .unit => "()"

end Literal

end Dataflow
