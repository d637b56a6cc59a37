import Dataflow.Decimal.Reader

/-!
# JSON values

A number is kept as it is written, and a string as its code points, among which there may be halves
of surrogate pairs. What a number or a string means is decided where it is used.
-/

namespace Dataflow

inductive Json where
  | null
  | bool (b : Bool)
  | num (lexeme : List Char)
  | str (points : List Nat)
  | arr (items : List Json)
  | obj (fields : List (List Nat × Json))
deriving Repr, Inhabited

namespace Json

/-- The string of a text. -/
def ofText (s : String) : Json := .str (s.toList.map Char.toNat)

/-- The character of a code point; half of a surrogate pair is none. -/
def charOf? (n : Nat) : Option Char :=
  if n < 0xd800 || (0xdfff < n && n < 0x110000) then some (Char.ofNat n) else none

/-- The text of code points. -/
def textOf? (points : List Nat) : Option String :=
  (points.mapM charOf?).map String.ofList

def text? : Json → Option String
  | .str points => textOf? points
  | _ => none

def bool? : Json → Option Bool
  | .bool b => some b
  | _ => none

def list? : Json → Option (List Json)
  | .arr items => some items
  | _ => none

/-- A natural number below `2 ^ 64`, written with digits alone. -/
def nat? : Json → Option Nat
  | .num lexeme => (Decimal.natural? lexeme).filter fun n => n < 0x10000000000000000
  | _ => none

/-! ## Numbers with a point -/

/-- Adds digits to a significand as long as it stays below `2 ^ 64`; also gives the digits left. -/
def gather : Nat → List Char → Nat × List Char
  | n, [] => (n, [])
  | n, d :: ds =>
    let more := n * 10 + (d.toNat - 48)
    if more < 0x10000000000000000 then gather more ds else (n, d :: ds)

/-- A power of ten. -/
def tenTo (e : Nat) : Float := Decimal.nearest 1 e

/-- The value times a power of ten, in at most two roundings; absent if it is out of range. -/
def scale? (x : Float) (e : Int) : Option Float :=
  if 308 < e then if x == 0.0 then some x else none
  else if 0 ≤ e then
    let y := x * tenTo e.toNat
    if y.isInf then none else some y
  else if -308 ≤ e then some (x / tenTo (-e).toNat)
  else if -616 ≤ e then some (x / tenTo 308 / tenTo (-e - 308).toNat)
  else some 0.0

/-- The exponent behind its mark. -/
def exponentOf : List Char → Int
  | [] => 0
  | _ :: rest =>
    let (minus, ds) := Decimal.splitSign rest
    if minus then -(Decimal.naturalOf ds : Int) else Decimal.naturalOf ds

/-- The value of a number without its sign. The digits make up a significand of 64 bits; further
digits of the whole part count as zeros, and further decimals are dropped. The significand is
rounded before it is scaled. -/
def magnitude? (lexeme : List Char) : Option Float :=
  let whole := lexeme.takeWhile Decimal.isDigit
  let rest := lexeme.dropWhile Decimal.isDigit
  let (fraction, rest) :=
    match rest with
    | '.' :: tail => (tail.takeWhile Decimal.isDigit, tail.dropWhile Decimal.isDigit)
    | rest => ([], rest)
  let (n, zeros) := gather 0 whole
  let (n, dropped) := gather n fraction
  let places : Int := fraction.length - dropped.length
  scale? (UInt64.ofNat n).toFloat (zeros.length - places + exponentOf rest)

/-- A number within the range of 64-bit values with a point. -/
def float? : Json → Option Float
  | .num ('-' :: lexeme) => (magnitude? lexeme).map fun x => -x
  | .num lexeme => magnitude? lexeme
  | _ => none

end Json

end Dataflow
