/-!
# The fewest digits that read back

Every decimal in a small interval around a binary value reads back as that value. `shortest` gives
a decimal of that interval with as few digits as possible, and of those the one nearest to the
value. All arithmetic is on naturals, so nothing is rounded on the way.
-/

namespace Dataflow.Decimal

/-- A finite value that is not negative, `mant * 2 ^ exp`. -/
structure Binary where
  mant : Nat
  exp : Int
  /-- The gap to the value below is half the gap to the value above. -/
  narrowBelow : Bool

/-- The bits of a finite value, less its sign. -/
def Binary.ofBits (bits : UInt64) : Binary :=
  let e := ((bits >>> 52) &&& 0x7ff).toNat
  let f := (bits &&& 0xfffffffffffff).toNat
  if e = 0 then ⟨f, -1074, false⟩ else ⟨0x10000000000000 + f, (e : Int) - 1075, f = 0 && e > 1⟩

/-- The value `digits * 10 ^ exp`. -/
structure Digits where
  digits : Nat
  exp : Int
deriving DecidableEq, Repr

/-- Which of two equally near decimals is taken. -/
inductive Tie where
  | up
  | toEven
deriving DecidableEq, Repr

/-- Compares `a * 10 ^ i` with `n * 2 ^ j`. -/
def compareScaled (a : Nat) (i : Int) (n : Nat) (j : Int) : Ordering :=
  compare (a * Nat.pow 10 i.toNat * Nat.pow 2 (-j).toNat) (n * Nat.pow 2 j.toNat * Nat.pow 10 (-i).toNat)

/-- Whether `d` lies among the numbers that round to `x`. The ends count when the mantissa is even,
since a tie goes to the even neighbour. -/
def Binary.readsBack (x : Binary) (d : Digits) : Bool :=
  let low := compareScaled d.digits d.exp (if x.narrowBelow then 4 * x.mant - 1 else 4 * x.mant - 2)
    (x.exp - 2)
  let high := compareScaled d.digits d.exp (4 * x.mant + 2) (x.exp - 2)
  let ends := x.mant % 2 = 0
  (low = .gt || (ends && low = .eq)) && (high = .lt || (ends && high = .eq))

/-- The least power of ten above the value, by an estimate from the binary logarithm that is at
most two steps away. -/
def Binary.scale (x : Binary) : Int :=
  let guess := ((Nat.log2 x.mant : Int) + x.exp) * 30103 / 100000
  match [guess - 1, guess, guess + 1].find? fun k => compareScaled 1 k x.mant x.exp = .gt with
  | some k => k
  | none => guess + 2

/-- The decimal nearest to `x` among the multiples of `10 ^ grid` that read back as `x`. -/
def Binary.onGrid? (x : Binary) (tie : Tie) (grid : Int) : Option Digits :=
  let num := x.mant * Nat.pow 2 x.exp.toNat * Nat.pow 10 (-grid).toNat
  let den := Nat.pow 10 grid.toNat * Nat.pow 2 (-x.exp).toNat
  let low := num / den
  match x.readsBack ⟨low, grid⟩, x.readsBack ⟨low + 1, grid⟩ with
  | true, false => some ⟨low, grid⟩
  | false, true => some ⟨low + 1, grid⟩
  | false, false => none
  | true, true =>
    match compare (2 * num) ((2 * low + 1) * den), tie with
    | .lt, _ => some ⟨low, grid⟩
    | .gt, _ => some ⟨low + 1, grid⟩
    | .eq, .up => some ⟨low + 1, grid⟩
    | .eq, .toEven => some ⟨if low % 2 = 0 then low else low + 1, grid⟩

/-- Moves trailing zeros of the digits into the exponent. -/
def Digits.strip : (fuel : Nat) → Digits → Digits
  | 0, d => d
  | fuel + 1, d =>
    if d.digits ≠ 0 && d.digits % 10 = 0 then strip fuel ⟨d.digits / 10, d.exp + 1⟩ else d

/-- The value itself, written out in full. -/
def Binary.exact (x : Binary) : Digits :=
  if 0 ≤ x.exp then ⟨x.mant * Nat.pow 2 x.exp.toNat, 0⟩ else ⟨x.mant * Nat.pow 5 (-x.exp).toNat, x.exp⟩

/-- The fewest digits that read back as `x`, which is not zero. Seventeen always suffice. -/
def Binary.shortest (x : Binary) (tie : Tie) : Digits :=
  let k := x.scale
  match (List.range 17).findSome? fun n => x.onGrid? tie (k - (n + 1 : Nat)) with
  | some d => d.strip 17
  | none => x.exact

end Dataflow.Decimal
