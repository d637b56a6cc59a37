import Dataflow.Decimal.Reader
import Dataflow.Decimal.Shortest
import Mathlib

/-!
# Rounding to the nearest value

The reader of decimals divides by a power of ten and rounds. `Binary.Rounds` says in rational numbers what rounds to a
value, and `nearest_eq` that each decimal which does is read as this value.
-/

namespace Dataflow.Decimal

open Float.Model Float.Model.UnpackedFloat

/-! ## Mantissas with residual bits -/

/-- The mantissa is the whole part of the number, and the two bits say where the rest lies: nowhere, below a half,
at a half or above it. -/
inductive Approximates : ExtendedMantissa → ℚ → Prop where
  | exact {m : ℕ} {q : ℚ} : q = m → Approximates ⟨m, false, false⟩ q
  | below {m : ℕ} {q : ℚ} : m < q → q < m + 1 / 2 → Approximates ⟨m, false, true⟩ q
  | half {m : ℕ} {q : ℚ} : q = m + 1 / 2 → Approximates ⟨m, true, false⟩ q
  | above {m : ℕ} {q : ℚ} : m + 1 / 2 < q → q < m + 1 → Approximates ⟨m, true, true⟩ q

namespace Approximates

variable {em : ExtendedMantissa} {q : ℚ}

theorem bounds (h : Approximates em q) : (em.mantissa : ℚ) ≤ q ∧ q < em.mantissa + 1 := by
  cases h <;> constructor <;> dsimp only <;> linarith

theorem shiftRightOne_even (k : ℕ) (half rest : Bool) :
    ExtendedMantissa.shiftRightOne ⟨2 * k, half, rest⟩ = ⟨k, false, half || rest⟩ := by
  simp [ExtendedMantissa.shiftRightOne]

theorem shiftRightOne_odd (k : ℕ) (half rest : Bool) :
    ExtendedMantissa.shiftRightOne ⟨2 * k + 1, half, rest⟩ = ⟨k, true, half || rest⟩ := by
  simp [ExtendedMantissa.shiftRightOne]
  omega

/-- A shift to the right keeps what rounding has to know: the bit that leaves the mantissa tells the halves apart. -/
theorem shiftRightOne (h : Approximates em q) : Approximates em.shiftRightOne (q / 2) := by
  have hparity (m : ℕ) : ∃ k, m = 2 * k ∨ m = 2 * k + 1 := ⟨m / 2, by omega⟩
  cases h with
  | @exact m _ hq =>
    obtain ⟨k, rfl | rfl⟩ := hparity m <;> push_cast at hq
    · rw [shiftRightOne_even]
      exact .exact (by linarith)
    · rw [shiftRightOne_odd]
      exact .half (by linarith)
  | @below m _ hlow hhigh | @half m _ hq | @above m _ hlow hhigh =>
    obtain ⟨k, rfl | rfl⟩ := hparity m <;> push_cast at *
    · rw [shiftRightOne_even]
      exact .below (by linarith) (by linarith)
    · rw [shiftRightOne_odd]
      exact .above (by linarith) (by linarith)

theorem shiftRight (h : Approximates em q) : ∀ n : ℕ, Approximates (em >>> n) (q / 2 ^ n)
  | 0 => by
    rw [pow_zero, div_one]
    exact h
  | n + 1 => by
    rw [pow_succ, ← div_div]
    exact (shiftRight h n).shiftRightOne

/-- The nearest number is found, and of two the even one. -/
theorem roundedMantissa (h : Approximates em q) {r : ℕ} (hlow : (r : ℚ) - 1 / 2 ≤ q) (hhigh : q ≤ r + 1 / 2)
    (hodd : r % 2 = 1 → (r : ℚ) - 1 / 2 < q ∧ q < r + 1 / 2) : em.roundedMantissa = r := by
  -- Everything in the interval of r has r or its predecessor as whole part.
  have hwhole : em.mantissa = r ∨ em.mantissa + 1 = r := by
    obtain ⟨h₁, h₂⟩ := h.bounds
    have hle : em.mantissa < r + 1 := by exact_mod_cast (by linarith : (em.mantissa : ℚ) < r + 1)
    have hge : r < em.mantissa + 2 := by exact_mod_cast (by linarith : (r : ℚ) < em.mantissa + 2)
    omega
  cases h with
  | @exact m _ hq =>
    obtain rfl | rfl := hwhole
    · rfl
    · push_cast at hlow
      linarith
  | @below m _ hm hhalf =>
    obtain rfl | rfl := hwhole
    · rfl
    · push_cast at hlow
      linarith
  | @half m _ hq =>
    change m + m % 2 = r
    dsimp only at hwhole
    obtain rfl | rfl := hwhole
    · obtain heven | hone := Nat.mod_two_eq_zero_or_one m
      · rw [heven, Nat.add_zero]
      · linarith [(hodd hone).2]
    · obtain heven | hone := Nat.mod_two_eq_zero_or_one m
      · have := (hodd (by omega)).1
        push_cast at this
        linarith
      · rw [hone]
  | @above m _ hhalf hm =>
    obtain rfl | rfl := hwhole
    · linarith
    · rfl

end Approximates

/-! ## Values and what rounds to them -/

/-- The number that the mantissa and the exponent stand for. -/
def Binary.value (x : Binary) : ℚ :=
  x.mant * 2 ^ x.exp

/-- How far below the mantissa a number may lie and still round to it, in units of the last place. -/
def Binary.slack (x : Binary) : ℚ :=
  if x.narrowBelow then 1 / 4 else 1 / 2

theorem Binary.slack_le (x : Binary) : x.slack ≤ 1 / 2 := by
  unfold Binary.slack
  split <;> norm_num

/-- The number rounds to the value: it is nearer to it than to both neighbours, or in the middle and the value even. -/
structure Binary.Rounds (x : Binary) (q : ℚ) : Prop where
  low : x.mant - x.slack ≤ q / 2 ^ x.exp
  high : q / 2 ^ x.exp ≤ x.mant + 1 / 2
  odd : x.mant % 2 = 1 → x.mant - x.slack < q / 2 ^ x.exp ∧ q / 2 ^ x.exp < x.mant + 1 / 2

/-- A value of the format with a full mantissa. The least exponent is left out, since the gap below its powers of two
is not the narrow one. -/
structure Binary.Normal (x : Binary) : Prop where
  low : 2 ^ 52 ≤ x.mant
  high : x.mant < 2 ^ 53
  least : -1073 ≤ x.exp
  greatest : x.exp ≤ 971
  narrow : x.narrowBelow = decide (x.mant = 2 ^ 52)

theorem targetExponent_binary64 (total : ℤ) :
    Format.binary64.targetExponent total = max (total - 53) (-1074) := by
  have hmin : Format.binary64.minExponent = -1074 := by decide
  have hbits : (Format.binary64.mantissaBits : ℤ) = 53 := by decide
  rw [Format.targetExponent, hmin, hbits]

/-- The exponent that a number of 53 bits gets, from a mantissa that is cut off below it. -/
theorem targetExponent_eq {m : ℕ} {e t : ℤ} {q : ℚ} (hm : (m : ℚ) ≤ q / 2 ^ e ∧ q / 2 ^ e < m + 1)
    (het : e ≤ t) (ht : -1074 ≤ t) (hlow : 2 ^ 52 ≤ q / 2 ^ t) (hhigh : q / 2 ^ t < 2 ^ 53) :
    Format.binary64.targetExponent (totalExponent m e) = t := by
  obtain ⟨n, rfl⟩ := Int.le.dest het
  have hq : q / 2 ^ e = q / 2 ^ (e + n) * 2 ^ n := by
    rw [zpow_add₀ two_ne_zero, zpow_natCast]
    field_simp
  have hpow : (0 : ℚ) < 2 ^ n := by positivity
  have hlt : 2 ^ (52 + n) < m + 1 := by
    have : (2 : ℚ) ^ (52 + n) < m + 1 :=
      calc (2 : ℚ) ^ (52 + n) = 2 ^ 52 * 2 ^ n := pow_add ..
        _ ≤ q / 2 ^ (e + n) * 2 ^ n := mul_le_mul_of_nonneg_right hlow hpow.le
        _ < m + 1 := hq ▸ hm.2
    exact_mod_cast this
  have hgt : m < 2 ^ (53 + n) := by
    have : (m : ℚ) < 2 ^ (53 + n) :=
      calc (m : ℚ) ≤ q / 2 ^ (e + n) * 2 ^ n := hq ▸ hm.1
        _ < 2 ^ 53 * 2 ^ n := mul_lt_mul_of_pos_right hhigh hpow
        _ = 2 ^ (53 + n) := (pow_add ..).symm
    exact_mod_cast this
  have hlog : m.log2 = 52 + n := by
    rw [Nat.log2_eq_iff (by have := Nat.two_pow_pos (52 + n); omega)]
    exact ⟨by omega, by rwa [Nat.add_right_comm]⟩
  rw [targetExponent_binary64, totalExponent, hlog]
  omega

theorem mantissa_ofMantissaAndAccuracy (m : ℕ) (acc : Accuracy) :
    (ExtendedMantissa.ofMantissaAndAccuracy m acc).mantissa = m := by
  obtain _ | (_ | _ | _) := acc <;> rfl

theorem shiftToTargetExponent_eq {m : ℕ} {e t : ℤ} {acc : Accuracy} {q : ℚ}
    (h : Approximates (.ofMantissaAndAccuracy m acc) (q / 2 ^ e)) (het : e ≤ t) (ht : -1074 ≤ t)
    (hlow : 2 ^ 52 ≤ q / 2 ^ t) (hhigh : q / 2 ^ t < 2 ^ 53) :
    ∃ em, shiftToTargetExponent Format.binary64 m e acc = (em, t) ∧ Approximates em (q / 2 ^ t) := by
  have htarget := targetExponent_eq (mantissa_ofMantissaAndAccuracy m acc ▸ h.bounds) het ht hlow hhigh
  obtain ⟨n, rfl⟩ := Int.le.dest het
  have hn : (e + n - e).toNat = n := by omega
  refine ⟨ExtendedMantissa.ofMantissaAndAccuracy m acc >>> n, ?_, ?_⟩
  · rw [shiftToTargetExponent, htarget, shiftToExponent, hn]
  · have := h.shiftRight n
    rwa [div_div, ← zpow_natCast, ← zpow_add₀ two_ne_zero] at this

theorem Approximates.mantissa_eq {em : ExtendedMantissa} {m : ℕ} (h : Approximates em m) : em.mantissa = m := by
  obtain ⟨h₁, h₂⟩ := h.bounds
  norm_cast at h₁ h₂
  omega

theorem Binary.value_div (x : Binary) : x.value / 2 ^ x.exp = x.mant := by
  rw [Binary.value, mul_div_assoc, div_self (by positivity), mul_one]

theorem Binary.Normal.pos {x : Binary} (hx : x.Normal) : 0 < x.mant :=
  lt_of_lt_of_le (by decide) hx.low

theorem Binary.Normal.value_pos {x : Binary} (hx : x.Normal) : 0 < x.value :=
  mul_pos (by exact_mod_cast hx.pos) (by positivity)

/-- What is left of the rounding once the mantissa is rounded: a mantissa that became too long is shifted once more. -/
theorem roundWithAccuracy_of_rounded {x : Binary} (hx : x.Normal) {m : ℕ} {e t : ℤ} {acc : Accuracy}
    {em : ExtendedMantissa} (s : Sign) (hshift : shiftToTargetExponent Format.binary64 m e acc = (em, t))
    (hvalue : (em.roundedMantissa : ℚ) * 2 ^ t = x.value) (ht : t ≤ x.exp) :
    roundWithAccuracy Format.binary64 s m e acc = .finite s x.mant x.exp hx.pos := by
  have hr : (em.roundedMantissa : ℚ) = x.value / 2 ^ t := by
    rw [← hvalue, mul_div_assoc, div_self (by positivity), mul_one]
  have hexact : Approximates (.ofMantissaAndAccuracy em.roundedMantissa .exact) (x.value / 2 ^ t) := .exact hr.symm
  obtain ⟨last, hlast, happrox⟩ := shiftToTargetExponent_eq hexact ht (by linarith [hx.least])
    (by rw [x.value_div]; exact_mod_cast hx.low) (by rw [x.value_div]; exact_mod_cast hx.high)
  rw [x.value_div] at happrox
  rw [roundWithAccuracy, hshift]
  dsimp only
  rw [hlast]
  dsimp only
  simp only [happrox.mantissa_eq, hx.pos.ne', dite_false]

theorem exponent_le {e t : ℤ} {q : ℚ} (he : e ≤ -1074 ∨ 2 ^ 52 ≤ q / 2 ^ e) (ht : -1074 ≤ t)
    (hhigh : q / 2 ^ t < 2 ^ 53) : e ≤ t := by
  obtain he | he := he
  · exact le_trans he ht
  · by_contra hlt
    obtain ⟨n, rfl⟩ := Int.le.dest (show t + 1 ≤ e by omega)
    have hq : q / 2 ^ t = q / 2 ^ (t + 1 + n) * (2 * 2 ^ n) := by
      rw [zpow_add₀ two_ne_zero, zpow_natCast, zpow_add₀ two_ne_zero, zpow_one]
      field_simp
    have hn : (1 : ℚ) ≤ 2 ^ n := one_le_pow₀ (by norm_num)
    nlinarith

/-- A number that rounds to a value is rounded to it. -/
theorem roundWithAccuracy_eq {x : Binary} (hx : x.Normal) {m : ℕ} {e : ℤ} {acc : Accuracy} {q : ℚ} (s : Sign)
    (h : Approximates (.ofMantissaAndAccuracy m acc) (q / 2 ^ e)) (he : e ≤ -1074 ∨ 2 ^ 52 ≤ q / 2 ^ e)
    (hr : x.Rounds q) : roundWithAccuracy Format.binary64 s m e acc = .finite s x.mant x.exp hx.pos := by
  have hleast := hx.least
  have hslack := x.slack_le
  have hmant : (x.mant : ℚ) + 1 ≤ 2 ^ 53 := by exact_mod_cast hx.high
  have hupper : q / 2 ^ x.exp < 2 ^ 53 := by linarith [hr.high]
  obtain hlow | hlow := le_or_gt (2 ^ 52 : ℚ) (q / 2 ^ x.exp)
  · -- The number has as many places as the value.
    have hle := exponent_le he (by omega) hupper
    obtain ⟨em, hshift, hem⟩ := shiftToTargetExponent_eq h hle (by omega) hlow hupper
    have hround : em.roundedMantissa = x.mant :=
      hem.roundedMantissa (by linarith [hr.low]) hr.high fun hodd =>
        ⟨by linarith [(hr.odd hodd).1], (hr.odd hodd).2⟩
    exact roundWithAccuracy_of_rounded hx s hshift (by rw [hround, Binary.value]) le_rfl
  · -- The value is the least with its exponent, and the number below it has one place more.
    have hmin : x.mant = 2 ^ 52 := by
      have : (x.mant : ℚ) < 2 ^ 52 + 1 := by linarith [hr.low]
      have hlt : x.mant < 2 ^ 52 + 1 := by exact_mod_cast this
      have := hx.low
      omega
    have hdouble : q / 2 ^ (x.exp - 1) = 2 * (q / 2 ^ x.exp) := by
      rw [zpow_sub₀ two_ne_zero, zpow_one]
      field_simp
    have hrlow := hr.low
    rw [Binary.slack, hx.narrow, hmin, decide_eq_true rfl] at hrlow
    norm_num at hrlow hlow
    have hupper : q / 2 ^ (x.exp - 1) < 2 ^ 53 := by rw [hdouble]; linarith
    have hle := exponent_le he (by omega) hupper
    obtain ⟨em, hshift, hem⟩ := shiftToTargetExponent_eq h hle (by omega) (by rw [hdouble]; linarith) hupper
    rw [hdouble] at hem
    have hround : em.roundedMantissa = 2 ^ 53 :=
      hem.roundedMantissa (by push_cast; linarith) (by push_cast; linarith) fun hodd => absurd hodd (by decide)
    refine roundWithAccuracy_of_rounded hx s hshift ?_ (by omega)
    rw [hround, Binary.value, hmin, zpow_sub₀ two_ne_zero, zpow_one]
    push_cast
    ring

/-! ## Division -/

/-- The remainder says where the quotient lies above its whole part. -/
theorem approximates_div (a : ℕ) {b : ℕ} (hb : 0 < b) :
    Approximates (.ofMantissaAndAccuracy (a / b) (accuracyOfFraction (a % b) b)) (a / b) := by
  have hpos : (0 : ℚ) < b := by exact_mod_cast hb
  have hq : (a : ℚ) / b = (a / b : ℕ) + (a % b : ℕ) / b := by
    rw [add_div' _ _ _ hpos.ne', div_left_inj' hpos.ne']
    exact_mod_cast (Nat.div_add_mod' a b).symm
  have hlt : ((a % b : ℕ) : ℚ) / b < 1 := (div_lt_one hpos).2 (by exact_mod_cast Nat.mod_lt a hb)
  rw [hq, accuracyOfFraction]
  split
  · next hzero => exact .exact (by rw [hzero]; simp)
  · next hzero =>
    have hrest : (0 : ℚ) < (a % b : ℕ) := by exact_mod_cast Nat.pos_of_ne_zero hzero
    obtain h | h | h := lt_trichotomy (2 * (a % b)) b
    · rw [Nat.compare_eq_lt.2 h]
      have hhalf : ((a % b : ℕ) : ℚ) / b < 1 / 2 := by
        rw [div_lt_div_iff₀ hpos two_pos, one_mul, mul_comm]
        exact_mod_cast h
      exact .below (by linarith [div_pos hrest hpos]) (by linarith)
    · rw [Nat.compare_eq_eq.2 h]
      have hhalf : ((a % b : ℕ) : ℚ) / b = 1 / 2 := by
        rw [div_eq_div_iff hpos.ne' two_ne_zero, one_mul, mul_comm]
        exact_mod_cast h
      exact .half (by linarith)
    · rw [Nat.compare_eq_gt.2 h]
      have hhalf : 1 / 2 < ((a % b : ℕ) : ℚ) / b := by
        rw [div_lt_div_iff₀ two_pos hpos, one_mul, mul_comm]
        exact_mod_cast h
      exact .above (by linarith) (by linarith)

/-- The quotient is cut off at a place that leaves 53 bits of it. -/
theorem divCore_eq {m₁ m₂ : ℕ} (h₁ : 0 < m₁) (h₂ : 0 < m₂) (e₁ e₂ : ℤ) {q : ℚ}
    (hq : q = m₁ * 2 ^ e₁ / (m₂ * 2 ^ e₂)) :
    ∃ m e acc, divCore Format.binary64 m₁ e₁ m₂ e₂ = (m, e, acc) ∧
      Approximates (.ofMantissaAndAccuracy m acc) (q / 2 ^ e) ∧ (e ≤ -1074 ∨ 2 ^ 52 ≤ q / 2 ^ e) := by
  obtain ⟨e, he⟩ :
    ∃ e, e = min (e₁ - e₂) (Format.binary64.targetExponent (totalExponent m₁ e₁ - totalExponent m₂ e₂)) := ⟨_, rfl⟩
  obtain ⟨n, hn⟩ := Int.le.dest (show e ≤ e₁ - e₂ by omega)
  refine ⟨(m₁ <<< n) / m₂, e, accuracyOfFraction ((m₁ <<< n) % m₂) m₂, ?_, ?_, ?_⟩
  · rw [divCore, ← he, show (e₁ - e₂ - e).toNat = n by omega]
  · have hscaled : q / 2 ^ e = (m₁ <<< n : ℕ) / m₂ := by
      rw [hq, show e₁ = e + n + e₂ by omega, zpow_add₀ two_ne_zero, zpow_add₀ two_ne_zero, zpow_natCast,
        Nat.shiftLeft_eq]
      push_cast
      field_simp
    rw [hscaled]
    exact approximates_div _ h₂
  · rw [targetExponent_binary64, totalExponent, totalExponent] at he
    rw [or_iff_not_imp_left]
    intro hlt
    have hm₁ : (2 : ℚ) ^ (m₁.log2 : ℤ) ≤ m₁ := by exact_mod_cast Nat.log2_self_le h₁.ne'
    have hm₂ : (m₂ : ℚ) ≤ 2 ^ ((m₂.log2 + 1 : ℕ) : ℤ) := by exact_mod_cast Nat.lt_log2_self.le
    have hsecond : (0 : ℚ) < m₂ * 2 ^ e₂ := by positivity
    rw [hq, le_div_iff₀ (by positivity), le_div_iff₀ hsecond]
    calc (2 : ℚ) ^ 52 * 2 ^ e * (m₂ * 2 ^ e₂)
      _ ≤ 2 ^ (52 : ℤ) * 2 ^ e * (2 ^ ((m₂.log2 + 1 : ℕ) : ℤ) * 2 ^ e₂) := by
        gcongr
        norm_num
      _ = 2 ^ (52 + e + ((m₂.log2 + 1 : ℕ) + e₂)) := by simp only [zpow_add₀ (two_ne_zero : (2 : ℚ) ≠ 0)]
      _ ≤ 2 ^ (m₁.log2 + e₁) := zpow_le_zpow_right₀ one_le_two (by omega)
      _ ≤ m₁ * 2 ^ e₁ := by
        rw [zpow_add₀ two_ne_zero]
        gcongr

/-- A quotient that rounds to a value is computed as this value. -/
theorem div_eq {x : Binary} (hx : x.Normal) {m₁ m₂ : ℕ} {e₁ e₂ : ℤ} (h₁ : 0 < m₁) (h₂ : 0 < m₂)
    (hr : x.Rounds (m₁ * 2 ^ e₁ / (m₂ * 2 ^ e₂))) :
    UnpackedFloat.div Format.binary64 (.finite .positive m₁ e₁ h₁) (.finite .positive m₂ e₂ h₂) =
      .finite .positive x.mant x.exp hx.pos := by
  obtain ⟨m, e, acc, h, happrox, he⟩ := divCore_eq h₁ h₂ e₁ e₂ rfl
  rw [UnpackedFloat.div, h]
  exact roundWithAccuracy_eq hx _ happrox he hr

/-! ## Packed values -/

theorem exponentBias_binary64 : (Format.binary64.exponentBias : ℤ) = 1023 := by
  decide

theorem toNat_append_add {v w : ℕ} (a : BitVec v) (b : BitVec w) : (a ++ b).toNat = a.toNat * 2 ^ w + b.toNat := by
  rw [BitVec.toNat_append, ← Nat.shiftLeft_add_eq_or_of_lt b.isLt, Nat.shiftLeft_eq]

namespace Binary

variable {x : Binary}

theorem Normal.log2_mant (hx : x.Normal) : x.mant.log2 = 52 :=
  (Nat.log2_eq_iff hx.pos.ne').2 ⟨hx.low, hx.high⟩

/-- The exponent as the format stores it, above zero and below the mark of what is not finite. -/
theorem Normal.biased (hx : x.Normal) : ∃ b : ℕ, (b : ℤ) = x.exp + 1075 ∧ 0 < b ∧ b < 2047 := by
  have := hx.least
  have := hx.greatest
  exact ⟨(x.exp + 1075).toNat, by omega, by omega, by omega⟩

theorem Normal.pack_eq (hx : x.Normal) (s : Sign) {b : ℕ} (hb : (b : ℤ) = x.exp + 1075) :
    UnpackedFloat.pack Format.binary64 (.finite s x.mant x.exp hx.pos) =
      packComponents Format.binary64 s (BitVec.ofNat 11 b) (BitVec.ofNat 52 x.mant) := by
  have := hx.greatest
  have hbias := exponentBias_binary64
  have hstored : (x.exp + Format.binary64.exponentBias + (52 : ℕ)).toNat = b := by omega
  rw [UnpackedFloat.pack, hstored, hx.log2_mant, if_neg (by dsimp only; omega), if_pos (by decide)]

theorem Normal.toNat_fraction (hx : x.Normal) : (BitVec.ofNat 52 x.mant).toNat = x.mant - 2 ^ 52 := by
  have := hx.low
  have := hx.high
  rw [BitVec.toNat_ofNat]
  omega

/-- The number with this magnitude. -/
def Normal.toFloat (hx : x.Normal) (s : Sign) : Float :=
  .ofModel (.pack (.finite s x.mant x.exp hx.pos))

theorem Normal.unpack_toFloat (hx : x.Normal) (s : Sign) :
    (hx.toFloat s).toModel.unpack = .finite s x.mant x.exp hx.pos := by
  obtain ⟨b, hb, hpos, hlt⟩ := hx.biased
  have hstored : (BitVec.ofNat 11 b).toNat = b := Nat.mod_eq_of_lt (by omega)
  have hmant : (1#1 ++ BitVec.ofNat 52 x.mant).toNat = x.mant := by
    rw [toNat_append_add, hx.toNat_fraction, BitVec.toNat_ofNat]
    have := hx.low
    omega
  have hbias := exponentBias_binary64
  have hexp : (b : ℤ) - (Format.binary64.exponentBias + (52 : ℕ)) = x.exp := by omega
  rw [Normal.toFloat, Float.Model.unpack, Float.Model.pack, UnpackedFloat.unpack]
  simp only [hx.pack_eq s hb, unpackExponent_packComponents, unpackMantissa_packComponents, unpackSign_packComponents,
    Sign.ofBitVec_toBitVec, hmant, hstored, hexp]
  rw [if_neg, if_neg]
  · exact fun h => absurd (congrArg BitVec.toNat h) (by rw [hstored]; simp; omega)
  · exact fun h => absurd (congrArg BitVec.toNat h) (by rw [hstored]; simp; omega)

theorem Normal.toNat_toBits (hx : x.Normal) (s : Sign) {b : ℕ} (hb : (b : ℤ) = x.exp + 1075) :
    (hx.toFloat s).toBits.toNat = s.toBitVec.toNat * 2 ^ 63 + b * 2 ^ 52 + (x.mant - 2 ^ 52) := by
  have := hx.greatest
  have hstored : (BitVec.ofNat 11 b).toNat = b := Nat.mod_eq_of_lt (by omega)
  change (UnpackedFloat.pack Format.binary64 (.finite s x.mant x.exp hx.pos)).toNat = _
  rw [hx.pack_eq s hb, packComponents, toNat_append_add, toNat_append_add, hstored, hx.toNat_fraction]
  ring

theorem Normal.neg_toFloat (hx : x.Normal) : -hx.toFloat .positive = hx.toFloat .negative := by
  change Float.ofModel (.pack (hx.toFloat .positive).toModel.unpack.neg) = _
  rw [hx.unpack_toFloat]
  rfl

end Binary

/-! ## Reading a decimal -/

theorem Binary.rounds_value (x : Binary) : x.Rounds x.value := by
  have hslack : 0 < x.slack := by
    unfold Binary.slack
    split <;> norm_num
  refine ⟨?_, ?_, fun _ => ⟨?_, ?_⟩⟩ <;> rw [x.value_div] <;> linarith

/-- A number of at most 53 bits and some zeros is a value. -/
theorem exists_normal {m : ℕ} (hpos : 0 < m) (hlt : m < 2 ^ 53) {k : ℕ} (hk : k ≤ 971) :
    ∃ x : Binary, x.Normal ∧ x.value = m * 2 ^ k := by
  have hlog : m.log2 < 53 := (Nat.log2_lt hpos.ne').2 hlt
  obtain ⟨n, hn⟩ : ∃ n, m.log2 + n = 52 := ⟨52 - m.log2, by omega⟩
  have hlow : 2 ^ 52 ≤ m * 2 ^ n := by
    rw [← hn, pow_add]
    exact Nat.mul_le_mul_right _ (Nat.log2_self_le hpos.ne')
  have hhigh : m * 2 ^ n < 2 ^ 53 := by
    rw [show 53 = m.log2 + 1 + n by omega, pow_add]
    exact Nat.mul_lt_mul_of_pos_right Nat.lt_log2_self (Nat.two_pow_pos n)
  refine ⟨⟨m * 2 ^ n, k - n, decide (m * 2 ^ n = 2 ^ 52)⟩,
    ⟨hlow, hhigh, by dsimp only; omega, by dsimp only; omega, rfl⟩, ?_⟩
  rw [Binary.value, zpow_sub₀ two_ne_zero, zpow_natCast, zpow_natCast]
  push_cast
  field_simp

/-- A natural number that is a value is converted to it. -/
theorem ofNat_eq {x : Binary} (hx : x.Normal) {m : ℕ} (hvalue : x.value = m) :
    UnpackedFloat.ofNat Format.binary64 m = .finite .positive x.mant x.exp hx.pos := by
  have hvaluepos := hx.value_pos
  have hpos : 0 < m := by exact_mod_cast hvalue ▸ hvaluepos
  have htarget : Format.binary64.targetExponent (totalExponent m 0) ≤ x.exp := by
    have hlt : (2 : ℚ) ^ (m.log2 : ℤ) < 2 ^ (53 + x.exp) :=
      calc (2 : ℚ) ^ (m.log2 : ℤ) ≤ m := by exact_mod_cast Nat.log2_self_le hpos.ne'
        _ = x.mant * 2 ^ x.exp := by rw [← hvalue, Binary.value]
        _ < 2 ^ (53 : ℤ) * 2 ^ x.exp := by
          gcongr
          exact_mod_cast hx.high
        _ = 2 ^ (53 + x.exp) := (zpow_add₀ two_ne_zero _ _).symm
    rw [zpow_lt_zpow_iff_right₀ one_lt_two] at hlt
    have := hx.least
    rw [targetExponent_binary64, totalExponent]
    omega
  obtain ⟨n, hn⟩ : ∃ n : ℕ, (0 - Format.binary64.targetExponent (totalExponent m 0)).toNat = n := ⟨_, rfl⟩
  have hshifted : x.value / 2 ^ (0 - n : ℤ) = (m <<< n : ℕ) := by
    rw [hvalue, zero_sub, zpow_neg, zpow_natCast, div_inv_eq_mul, Nat.shiftLeft_eq]
    push_cast
    rfl
  rw [UnpackedFloat.ofNat, UnpackedFloat.ofInt, UnpackedFloat.normalize, Int.compare_eq_gt.2 (by omega)]
  dsimp only
  rw [UnpackedFloat.round, Int.toNat_natCast, decreaseExponent, hn]
  refine roundWithAccuracy_eq hx _ (.exact hshifted) (.inr ?_) x.rounds_value
  calc (2 : ℚ) ^ 52 ≤ x.mant := by exact_mod_cast hx.low
    _ = x.value / 2 ^ x.exp := x.value_div.symm
    _ ≤ x.value / 2 ^ (0 - n : ℤ) := by
      gcongr
      · norm_num
      · omega

/-- The table of powers of ten holds what their conversion gives. -/
theorem powersOfTen_toModel : ∀ k, (h : k < Float.exactlyRepresentablePowersOfTen.size) →
    Float.exactlyRepresentablePowersOfTen[k].toModel = Float.Model.ofNat (10 ^ k) := by
  decide +kernel

theorem Binary.Rounds.mul_le {x : Binary} {q : ℚ} (hr : x.Rounds q) (hmant : 2 ^ 52 ≤ x.mant) :
    2 ^ 51 * 2 ^ x.exp ≤ q := by
  have hm : (2 ^ 52 : ℚ) ≤ x.mant := by exact_mod_cast hmant
  rw [← le_div_iff₀ (by positivity)]
  linarith [hr.low, x.slack_le]

theorem Binary.Rounds.le_mul {x : Binary} {q : ℚ} (hr : x.Rounds q) (hmant : x.mant < 2 ^ 53) :
    q ≤ 2 ^ 53 * 2 ^ x.exp := by
  have hm : (x.mant : ℚ) + 1 ≤ 2 ^ 53 := by exact_mod_cast hmant
  rw [← div_le_iff₀ (by positivity)]
  linarith [hr.high]

/-- What rounds to a value is above every number that is read as zero. -/
theorem Binary.Rounds.lower {x : Binary} {q : ℚ} (hr : x.Rounds q) (hx : x.Normal) : 1 / 10 ^ 324 < q :=
  calc (1 / 10 ^ 324 : ℚ) < 2 ^ 51 * 2 ^ (-1073 : ℤ) := by
        rw [zpow_neg, ← div_eq_mul_inv, div_lt_div_iff₀ (by positivity) (by positivity)]
        exact_mod_cast (by decide +kernel : 1 * 2 ^ 1073 < 2 ^ 51 * 10 ^ 324)
    _ ≤ 2 ^ 51 * 2 ^ x.exp := by
      gcongr
      · norm_num
      · exact hx.least
    _ ≤ q := hr.mul_le hx.low

/-- What rounds to a value is below every number that is read as infinite. -/
theorem Binary.Rounds.upper {x : Binary} {q : ℚ} (hr : x.Rounds q) (hx : x.Normal) : q < 10 ^ 309 :=
  calc q ≤ 2 ^ 53 * 2 ^ x.exp := hr.le_mul hx.high
    _ ≤ 2 ^ 53 * 2 ^ (971 : ℤ) := by
      gcongr
      · norm_num
      · exact hx.greatest
    _ < 10 ^ 309 := by exact_mod_cast (by decide +kernel : 2 ^ 53 * 2 ^ 971 < 10 ^ 309)

theorem lt_of_cut_low {m k : ℕ} (h : m.log2 / 3 + 1 + 324 ≤ k) : (m : ℚ) / 10 ^ k < 1 / 10 ^ 324 := by
  have hm : (m : ℚ) < 10 ^ (m.log2 / 3 + 1) := by exact_mod_cast lt_ten_pow m
  rw [div_lt_div_iff₀ (by positivity) (by positivity), one_mul]
  calc (m : ℚ) * 10 ^ 324 < 10 ^ (m.log2 / 3 + 1) * 10 ^ 324 := by gcongr
    _ = 10 ^ (m.log2 / 3 + 1 + 324) := (pow_add ..).symm
    _ ≤ 10 ^ k := pow_le_pow_right₀ (by norm_num) h

theorem le_of_cut_high {m k : ℕ} (hm : m ≠ 0) (h : 309 + k ≤ m.log2 / 4) : (10 ^ 309 : ℚ) ≤ m / 10 ^ k := by
  rw [le_div_iff₀ (by positivity), ← pow_add]
  calc (10 : ℚ) ^ (309 + k) ≤ 10 ^ (m.log2 / 4) := pow_le_pow_right₀ (by norm_num) h
    _ ≤ m := by exact_mod_cast ten_pow_le hm

theorem Binary.Rounds.numerator_pos {x : Binary} {m k : ℕ} (hr : x.Rounds (m / 10 ^ k)) (hx : x.Normal) : 0 < m := by
  have : (0 : ℚ) < m / 10 ^ k := lt_trans (by positivity) (hr.lower hx)
  rw [div_pos_iff_of_pos_right (by positivity)] at this
  exact_mod_cast this

theorem unpack_toFloat_natural {m : ℕ} (hpos : 0 < m) (hlt : m < 2 ^ 53) :
    ∃ (x : Binary) (hx : x.Normal),
      m.toUInt64.toFloat.toModel.unpack = .finite .positive x.mant x.exp hx.pos ∧ x.value = m := by
  obtain ⟨x, hx, hvalue⟩ := exists_normal hpos hlt (Nat.zero_le 971)
  rw [pow_zero, mul_one] at hvalue
  have hword : m.toUInt64.toNat = m := UInt64.toNat_ofNat_of_lt' (lt_trans hlt (by decide))
  refine ⟨x, hx, ?_, hvalue⟩
  change (Float.Model.pack (UnpackedFloat.ofNat _ m.toUInt64.toNat)).unpack = _
  rw [hword, ofNat_eq hx hvalue]
  exact hx.unpack_toFloat .positive

/-- A power of ten up to the last in the table has an odd part that fits the mantissa. -/
theorem unpack_powerOfTen {k : ℕ} (hk : k ≤ 22) :
    ∃ (x : Binary) (hx : x.Normal),
      (Float.Model.ofNat (10 ^ k)).unpack = .finite .positive x.mant x.exp hx.pos ∧ x.value = (10 ^ k : ℕ) := by
  obtain ⟨x, hx, hvalue⟩ := exists_normal (Nat.pow_pos (by decide) : 0 < 5 ^ k)
    (lt_of_le_of_lt (Nat.pow_le_pow_right (by decide) hk) (by decide)) (by omega : k ≤ 971)
  replace hvalue : x.value = (10 ^ k : ℕ) := by
    rw [hvalue]
    push_cast
    rw [← mul_pow]
    norm_num
  refine ⟨x, hx, ?_, hvalue⟩
  rw [Float.Model.ofNat, ofNat_eq hx hvalue]
  exact hx.unpack_toFloat .positive

theorem ofScientific_eq {x : Binary} (hx : x.Normal) {m k : ℕ} (hk : 0 < k) (hr : x.Rounds (m / 10 ^ k)) :
    Float.ofScientific m true k = hx.toFloat .positive := by
  have hpos := hr.numerator_pos hx
  rw [Float.ofScientific]
  split
  · -- The numerator and the power are values themselves, and their quotient is rounded once.
    next h =>
    obtain ⟨y, hy, hnumerator, hyvalue⟩ := unpack_toFloat_natural hpos h.1
    obtain ⟨z, hz, hpower, hzvalue⟩ := unpack_powerOfTen h.2
    rw [if_pos rfl]
    change Float.ofModel (.pack (UnpackedFloat.div _ (Float.Model.unpack _) (Float.Model.unpack _))) = _
    rw [powersOfTen_toModel k, hnumerator, hpower, div_eq hx, Binary.Normal.toFloat]
    change x.Rounds (y.value / z.value)
    rw [hyvalue, hzvalue]
    exact_mod_cast hr
  · have hcut : ¬ m.log2 / 3 + 1 + 324 ≤ k := fun h => (lt_of_cut_low h).not_gt (hr.lower hx)
    change Float.ofModel (.pack (UnpackedFloat.ofScientific _ m (Int.negOfNat k))) = _
    rw [Int.negOfNat_eq, UnpackedFloat.ofScientific, dif_neg hpos.ne', if_neg (by simp), if_neg (by simp; omega),
      if_neg (by simp; omega), div_eq hx, Binary.Normal.toFloat]
    simpa using hr

/-- A decimal that rounds to a value is read as this value. -/
theorem nearest_eq {x : Binary} (hx : x.Normal) {m k : ℕ} (hk : 0 < k) (hr : x.Rounds (m / 10 ^ k)) :
    nearest m (-k) = hx.toFloat .positive := by
  have hlow : ¬ m.log2 / 3 + 1 + 324 ≤ k := fun h => (lt_of_cut_low h).not_gt (hr.lower hx)
  have hm := (hr.numerator_pos hx).ne'
  have hhigh : ¬ 309 + k ≤ m.log2 / 4 := fun h => (le_of_cut_high hm h).not_gt (hr.upper hx)
  rw [nearest, if_neg (by simp [hm]; omega), if_neg (by omega), Int.natAbs_neg, Int.natAbs_natCast,
    decide_eq_true (by omega)]
  exact ofScientific_eq hx hk hr

end Dataflow.Decimal
