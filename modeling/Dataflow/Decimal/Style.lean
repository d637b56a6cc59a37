import Dataflow.Decimal.Shortest

/-!
# How a number is laid out

A `Style` fixes what the digits of a number leave open: where positional writing ends, whether a
positive exponent has a sign, and which of two equally near decimals is written.
-/

namespace Dataflow.Decimal

/-- The decisions of a number format. Positional writing is used when the exponent of the leading
digit is at least `plainFrom` and below `plainBelow`. -/
structure Style where
  plainFrom : Int
  plainBelow : Int
  signedExponent : Bool
  tie : Tie

/-- The digits of `n`, most significant first. -/
def digitChars (n : Nat) : List Char :=
  Nat.toDigits 10 n

/-- `n` zeros. -/
def zeros (n : Nat) : List Char :=
  List.replicate n '0'

/-- Positional writing, with at least one digit after the point. -/
def positional (ds : List Char) (exp : Int) : List Char :=
  if 0 ≤ exp then ds ++ zeros exp.toNat ++ ['.', '0']
  else
    let places := (-exp).toNat
    if places < ds.length then
      ds.take (ds.length - places) ++ '.' :: ds.drop (ds.length - places)
    else '0' :: '.' :: zeros (places - ds.length) ++ ds

/-- One digit before the point, and the exponent of that digit. -/
def scientific (signed : Bool) (ds : List Char) (lead : Int) : List Char :=
  let fraction := if ds.length ≤ 1 then [] else '.' :: ds.drop 1
  let sign := if lead < 0 then ['-'] else if signed then ['+'] else []
  ds.take 1 ++ fraction ++ 'e' :: sign ++ digitChars lead.natAbs

/-- The text of a decimal that is not zero. -/
def Style.layout (style : Style) (d : Digits) : List Char :=
  let ds := digitChars d.digits
  let lead := d.exp + ds.length - 1
  if style.plainFrom ≤ lead && lead < style.plainBelow then positional ds d.exp
  else scientific style.signedExponent ds lead

/-- The text of a value of either sign. -/
def Style.write (style : Style) (x : Float) : String :=
  if x.isNaN then "NaN"
  else
    let bits := x.toBits
    let magnitude := bits &&& 0x7fffffffffffffff
    let sign := if bits = magnitude then [] else ['-']
    let body :=
      if x.isInf then ['i', 'n', 'f']
      else if magnitude = 0 then ['0', '.', '0']
      else style.layout ((Binary.ofBits magnitude).shortest style.tie)
    String.ofList (sign ++ body)

end Dataflow.Decimal
