import Dataflow.Eval.Builtin
import Mathlib.Data.Rat.Floor
import Mathlib.Tactic.Linarith

/-!
# Division that rounds down

On whole numbers of 64 bits `div` gives the quotient rounded down, and it overflows for one pair of
operands only. The remainder that goes with this quotient can always be represented, but `mod` takes
the multiple of the divisor off the dividend and overflows where that multiple cannot be
(`Builtin.run_floor`, `Builtin.run_mod_overflows`).
-/

namespace Dataflow.Builtin

/-- Fits into 64 bits. -/
def Representable (n : Int) : Prop := -0x8000000000000000 ≤ n ∧ n < 0x8000000000000000

/-- The quotient rounded down. -/
def floorQuotient (x y : Int) : Int := ⌊(x : ℚ) / y⌋

variable {x y q r n : Int}

/-! ## Numbers that fit -/

theorem representable_toInt (x : Int64) : Representable x.toInt := ⟨x.le_toInt, x.toInt_lt⟩

theorem exists_fit? (h : Representable n) : ∃ m, fit? n = some m ∧ m.toInt = n :=
  ⟨.ofInt n, if_pos h, Int64.toInt_ofInt_of_le h.1 h.2⟩

theorem fit?_eq_none (h : ¬ Representable n) : fit? n = none := if_neg h

/-! ## The quotient and its remainder -/

/-- A remainder between zero and the divisor, on the divisor's side, goes with the quotient rounded down. -/
theorem floorQuotient_eq (hx : x = y * q + r) (hr : (0 ≤ r ∧ r < y) ∨ (y < r ∧ r ≤ 0)) :
    floorQuotient x y = q := by
  have hxq : (x : ℚ) = y * q + r := by exact_mod_cast hx
  rw [floorQuotient, Int.floor_eq_iff]
  rcases hr with ⟨hr₀, hry⟩ | ⟨hyr, hr₀⟩
  · have hy : (0 : ℚ) < y := by exact_mod_cast hr₀.trans_lt hry
    have hr₀ : (0 : ℚ) ≤ r := by exact_mod_cast hr₀
    have hry : (r : ℚ) < y := by exact_mod_cast hry
    constructor
    · rw [le_div_iff₀ hy]
      linarith
    · rw [div_lt_iff₀ hy]
      linarith
  · have hy : (y : ℚ) < 0 := by exact_mod_cast hyr.trans_le hr₀
    have hr₀ : (r : ℚ) ≤ 0 := by exact_mod_cast hr₀
    have hyr : (y : ℚ) < r := by exact_mod_cast hyr
    constructor
    · rw [le_div_iff_of_neg hy]
      linarith
    · rw [div_lt_iff_of_neg hy]
      linarith

/-- The remainder of the quotient rounded toward zero is on the dividend's side. -/
theorem tmod_side (hy : y ≠ 0) :
    (0 ≤ x → 0 ≤ x.tmod y) ∧ (x ≤ 0 → x.tmod y ≤ 0) ∧ (x.tmod y).natAbs < y.natAbs := by
  refine ⟨Int.tmod_nonneg y, fun hx => ?_, ?_⟩
  · have hneg := Int.tmod_nonneg y (Int.neg_nonneg_of_nonpos hx)
    rw [Int.neg_tmod] at hneg
    omega
  · rw [Int.natAbs_tmod]
    exact Nat.mod_lt _ (by omega)

/-- Rounding down and rounding toward zero differ by one if a remainder is left and the signs differ. -/
theorem floorQuotient_eq_tdiv (hy : y ≠ 0) : floorQuotient x y =
    if x.tmod y ≠ 0 ∧ (x < 0 ↔ 0 ≤ y) then x.tdiv y - 1 else x.tdiv y := by
  obtain ⟨hpos, hneg, habs⟩ := tmod_side (x := x) hy
  have hsum : x = y * x.tdiv y + x.tmod y := (Int.mul_tdiv_add_tmod x y).symm
  split
  · refine floorQuotient_eq (r := x.tmod y + y) ?_ (by omega)
    rw [Int.mul_sub, Int.mul_one]
    omega
  · exact floorQuotient_eq hsum (by omega)

/-- What is left after the quotient rounded down is between zero and the divisor. -/
theorem remainder_side (hy : y ≠ 0) :
    (0 ≤ x - y * floorQuotient x y ∧ x - y * floorQuotient x y < y) ∨
      (y < x - y * floorQuotient x y ∧ x - y * floorQuotient x y ≤ 0) := by
  obtain ⟨hpos, hneg, habs⟩ := tmod_side (x := x) hy
  have hsum : x = y * x.tdiv y + x.tmod y := (Int.mul_tdiv_add_tmod x y).symm
  rw [floorQuotient_eq_tdiv hy]
  split
  · rw [Int.mul_sub, Int.mul_one]
    omega
  · omega

theorem representable_remainder (hy : y ≠ 0) (hfits : Representable y) :
    Representable (x - y * floorQuotient x y) := by
  have hside := remainder_side (x := x) hy
  unfold Representable at *
  omega

/-- Only the least number divided by `-1` has a quotient that does not fit, in either rounding. -/
theorem representable_quotient (hx : Representable x) (hy : y ≠ 0) (hleast : ¬ (x = -0x8000000000000000 ∧ y = -1)) :
    Representable (x.tdiv y) ∧ Representable (floorQuotient x y) := by
  obtain ⟨-, -, habs⟩ := tmod_side (x := x) hy
  rw [floorQuotient_eq_tdiv hy]
  unfold Representable at *
  by_cases hone : y.natAbs = 1
  · -- nothing is left, so both roundings give `x` or `-x`
    rw [if_neg (by omega)]
    obtain rfl | rfl : y = 1 ∨ y = -1 := by omega
    · rw [Int.tdiv_one]
      omega
    · rw [Int.tdiv_neg, Int.tdiv_one]
      omega
  · have hhalf : (x.tdiv y).natAbs ≤ x.natAbs / 2 := by
      rw [Int.natAbs_tdiv]
      exact Nat.div_le_div_left (by omega) (by decide)
    split <;> omega

/-! ## What the functions compute -/

/-- A quotient that fits is found. -/
theorem exists_floorDiv? (hx : Representable x) (hy : y ≠ 0) (hleast : ¬ (x = -0x8000000000000000 ∧ y = -1)) :
    ∃ m, floorDiv? x y = some m ∧ m.toInt = floorQuotient x y := by
  obtain ⟨htdiv, hfloor⟩ := representable_quotient hx hy hleast
  obtain ⟨t, ht, htq⟩ := exists_fit? htdiv
  rw [floorQuotient_eq_tdiv hy] at hfloor ⊢
  simp only [floorDiv?, ht, Option.bind_eq_bind, Option.bind_some, htq]
  split
  · rename_i hdown
    rw [if_pos hdown] at hfloor
    exact exists_fit? hfloor
  · exact ⟨t, rfl, htq⟩

theorem floorDiv?_least : floorDiv? (-0x8000000000000000) (-1) = none := by decide

/-- Without its quotient, or without the multiple of the divisor, no remainder is found. -/
theorem floorMod?_eq (hx : Representable x) (hy : y ≠ 0) (hfits : Representable y)
    (hleast : ¬ (x = -0x8000000000000000 ∧ y = -1)) :
    (Representable (y * floorQuotient x y) →
      ∃ m, floorMod? x y = some m ∧ m.toInt = x - y * floorQuotient x y) ∧
    (¬ Representable (y * floorQuotient x y) → floorMod? x y = none) := by
  obtain ⟨m, hm, hq⟩ := exists_floorDiv? hx hy hleast
  have hmul : m.toInt * y = y * floorQuotient x y := by rw [hq, Int.mul_comm]
  simp only [floorMod?, hm, Option.bind_eq_bind, Option.bind_some, hmul]
  constructor
  · intro h
    obtain ⟨p, hp, hpq⟩ := exists_fit? h
    rw [hp, Option.bind_some, hpq]
    exact exists_fit? (representable_remainder hy hfits)
  · intro h
    rw [fit?_eq_none h, Option.bind_none]

theorem toInt_ne_zero {y : Int64} (hy : y ≠ 0) : y.toInt ≠ 0 :=
  fun h => hy (Int64.toInt_inj.1 h)

theorem run_div {y : Int64} (hy : y ≠ 0) (x : Int64) : run "div" [.int x, .int y] =
    (floorDiv? x.toInt y.toInt).elim (.error (.overflow "div")) fun n => .ok (.int n) := by
  simp only [run, binary, arithmetic, arithmeticInt, toInt_ne_zero hy]
  cases floorDiv? x.toInt y.toInt <;> rfl

theorem run_mod {y : Int64} (hy : y ≠ 0) (x : Int64) : run "mod" [.int x, .int y] =
    (floorMod? x.toInt y.toInt).elim (.error (.overflow "mod")) fun n => .ok (.int n) := by
  simp only [run, binary, arithmetic, arithmeticInt, toInt_ne_zero hy]
  cases floorMod? x.toInt y.toInt <;> rfl

theorem run_mod_none {x y : Int64} (hy : y ≠ 0) (h : floorMod? x.toInt y.toInt = none) :
    run "mod" [.int x, .int y] = .error (.overflow "mod") := by
  rw [run_mod hy, h]
  rfl

/-- **`div` and `mod` round down.** `div` gives the quotient rounded down and overflows only where it
does not fit, for the least number divided by `-1`. What this quotient leaves always fits; `mod` gives
it if the quotient and its product with the divisor fit, and overflows otherwise. -/
theorem run_floor (x y : Int64) (hy : y ≠ 0) :
    (x = Int64.minValue ∧ y = -1 → run "div" [.int x, .int y] = .error (.overflow "div")) ∧
    (¬ (x = Int64.minValue ∧ y = -1) →
      ∃ n, run "div" [.int x, .int y] = .ok (.int n) ∧ n.toInt = floorQuotient x.toInt y.toInt) ∧
    Representable (x.toInt - y.toInt * floorQuotient x.toInt y.toInt) ∧
    (¬ (x = Int64.minValue ∧ y = -1) ∧ Representable (y.toInt * floorQuotient x.toInt y.toInt) →
      ∃ n, run "mod" [.int x, .int y] = .ok (.int n) ∧ n.toInt = x.toInt - y.toInt * floorQuotient x.toInt y.toInt) ∧
    (x = Int64.minValue ∧ y = -1 ∨ ¬ Representable (y.toInt * floorQuotient x.toInt y.toInt) →
      run "mod" [.int x, .int y] = .error (.overflow "mod")) := by
  have hx := representable_toInt x
  have hy' := toInt_ne_zero hy
  have hleast : (x = Int64.minValue ∧ y = -1) ↔ (x.toInt = -0x8000000000000000 ∧ y.toInt = -1) := by
    rw [← Int64.toInt_inj, ← Int64.toInt_inj]
    rfl
  rw [run_div hy, hleast]
  refine ⟨?_, fun h => ?_, representable_remainder hy' (representable_toInt y), fun h => ?_, fun h => ?_⟩
  · rintro ⟨hx, hy⟩
    rw [hx, hy, floorDiv?_least]
    rfl
  · obtain ⟨n, hn, hnq⟩ := exists_floorDiv? hx hy' h
    exact ⟨n, by rw [hn]; rfl, hnq⟩
  · obtain ⟨n, hn, hnr⟩ := (floorMod?_eq hx hy' (representable_toInt y) h.1).1 h.2
    exact ⟨n, by rw [run_mod hy, hn]; rfl, hnr⟩
  · refine run_mod_none hy ?_
    by_cases hpair : x.toInt = -0x8000000000000000 ∧ y.toInt = -1
    · rw [hpair.1, hpair.2, floorMod?, floorDiv?_least]
      rfl
    · exact (floorMod?_eq hx hy' (representable_toInt y) hpair).2 (h.resolve_left hpair)

/-- One above the least number, divided by `2`: the product of quotient and divisor is the least number. -/
theorem run_floor_nearLeast :
    let x : Int64 := -9223372036854775807
    (2 : Int64) ≠ 0 ∧ ¬ (x = Int64.minValue ∧ (2 : Int64) = -1) ∧
    (∃ n, run "div" [.int x, .int 2] = .ok (.int n) ∧ n.toInt = -4611686018427387904) ∧
    ∃ n, run "mod" [.int x, .int 2] = .ok (.int n) ∧ n.toInt = 1 := by
  intro x
  have hq : floorQuotient x.toInt (2 : Int64).toInt = -4611686018427387904 :=
    floorQuotient_eq (r := 1) (by decide) (by decide)
  have hproduct : Representable ((2 : Int64).toInt * -4611686018427387904) := ⟨by decide, by decide⟩
  obtain ⟨-, hdiv, -, hmod, -⟩ := run_floor x 2 (by decide)
  rw [hq] at hdiv hmod
  exact ⟨by decide, by decide, hdiv (by decide), hmod ⟨by decide, hproduct⟩⟩

/-- The remainders of these divisions are `1`, `-1` and `0`, and `mod` overflows on each of them. -/
theorem run_mod_overflows :
    (run "mod" [.int Int64.minValue, .int 3] = .error (.overflow "mod") ∧
      Int64.minValue.toInt - 3 * floorQuotient Int64.minValue.toInt 3 = 1) ∧
    (run "mod" [.int Int64.maxValue, .int (-2)] = .error (.overflow "mod") ∧
      Int64.maxValue.toInt - (-2) * floorQuotient Int64.maxValue.toInt (-2) = -1) ∧
    (run "mod" [.int Int64.minValue, .int (-1)] = .error (.overflow "mod") ∧
      Int64.minValue.toInt - (-1) * floorQuotient Int64.minValue.toInt (-1) = 0) := by
  have hthird : floorQuotient Int64.minValue.toInt 3 = -3074457345618258603 :=
    floorQuotient_eq (r := 1) (by decide) (by decide)
  have hhalf : floorQuotient Int64.maxValue.toInt (-2) = -4611686018427387904 :=
    floorQuotient_eq (r := -1) (by decide) (by decide)
  have hwhole : floorQuotient Int64.minValue.toInt (-1) = 9223372036854775808 :=
    floorQuotient_eq (r := 0) (by decide) (by decide)
  rw [hthird, hhalf, hwhole]
  exact ⟨⟨run_mod_none (by decide) (by decide), by decide⟩, ⟨run_mod_none (by decide) (by decide), by decide⟩,
    run_mod_none (by decide) (by decide), by decide⟩

end Dataflow.Builtin
