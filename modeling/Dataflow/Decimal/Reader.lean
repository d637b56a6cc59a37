/-!
# Reading numbers

Natural numbers in ASCII digits, and decimals with an optional sign, fraction and exponent, read
as the nearest binary value.
-/

namespace Dataflow.Decimal

/-- An ASCII digit. -/
def isDigit (c : Char) : Bool :=
  48 ≤ c.toNat && c.toNat ≤ 57

/-- The number that a run of digits spells. -/
def naturalOf (ds : List Char) : Nat :=
  ds.foldl (fun n c => n * 10 + (c.toNat - 48)) 0

/-- The number spelled by a text of digits only, at least one. -/
def natural? (cs : List Char) : Option Nat :=
  if !cs.isEmpty && cs.all isDigit then some (naturalOf cs) else none

/-- The positive infinite value. -/
def infinity : Float :=
  Float.ofBits 0x7ff0000000000000

/-- A power of ten that is at most the number. -/
theorem ten_pow_le {m : Nat} (h : m ≠ 0) : Nat.pow 10 (m.log2 / 4) ≤ m :=
  calc 10 ^ (m.log2 / 4) ≤ (2 ^ 4) ^ (m.log2 / 4) := Nat.pow_le_pow_left (by decide) _
    _ = 2 ^ (4 * (m.log2 / 4)) := (Nat.pow_mul 2 4 _).symm
    _ ≤ 2 ^ m.log2 := Nat.pow_le_pow_right (by decide) (Nat.mul_div_le _ 4)
    _ ≤ m := Nat.log2_self_le h

/-- A power of ten that is above the number. -/
theorem lt_ten_pow (m : Nat) : m < Nat.pow 10 (m.log2 / 3 + 1) :=
  calc m < 2 ^ (m.log2 + 1) := Nat.lt_log2_self
    _ ≤ 2 ^ (3 * (m.log2 / 3 + 1)) := Nat.pow_le_pow_right (by decide) (by omega)
    _ = (2 ^ 3) ^ (m.log2 / 3 + 1) := Nat.pow_mul 2 3 _
    _ ≤ 10 ^ (m.log2 / 3 + 1) := Nat.pow_le_pow_left (by decide) _

/-- The value nearest to `m * 10 ^ e`. What is below `10 ^ -324` is zero and what reaches `10 ^ 309`
is infinite, and then the power need not be computed. `lt_ten_pow` and `ten_pow_le` say that only
such numbers are cut off. -/
def nearest (m : Nat) (e : Int) : Float :=
  if m = 0 || (m.log2 / 3 + 1 : Nat) + e ≤ -324 then 0.0
  else if 309 ≤ (m.log2 / 4 : Nat) + e then infinity
  else Float.ofScientific m (e < 0) e.natAbs

/-- An optional sign: whether it is a minus, and what follows. -/
def splitSign : List Char → Bool × List Char
  | '-' :: cs => (true, cs)
  | '+' :: cs => (false, cs)
  | cs => (false, cs)

/-- The exponent after its mark: a sign and digits to the end of the text. -/
def exponent? (cs : List Char) : Option Int :=
  let (minus, ds) := splitSign cs
  (natural? ds).map fun n => if minus then -(n : Int) else n

/-- Digits with an optional point among or around them, then an optional exponent. -/
def unsigned? (cs : List Char) : Option Float :=
  let whole := cs.takeWhile isDigit
  let rest := cs.dropWhile isDigit
  let (fraction, rest) :=
    match rest with
    | '.' :: tail => (tail.takeWhile isDigit, tail.dropWhile isDigit)
    | _ => ([], rest)
  if whole.isEmpty && fraction.isEmpty then none
  else
    let value (e : Int) := nearest (naturalOf (whole ++ fraction)) (e - fraction.length)
    match rest with
    | [] => some (value 0)
    | c :: tail => if c = 'e' || c = 'E' then (exponent? tail).map value else none

/-- A decimal, an infinity or the value that is no number. -/
def float? (s : String) : Option Float :=
  let (minus, body) := splitSign s.toList
  let magnitude :=
    match String.ofList (body.map Char.toLower) with
    | "inf" | "infinity" => some infinity
    | "nan" => some (Float.ofBits 0x7ff8000000000000)
    | _ => unsigned? body
  magnitude.map fun x => if minus then -x else x

end Dataflow.Decimal
