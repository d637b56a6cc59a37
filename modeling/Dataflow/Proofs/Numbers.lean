import Dataflow.Decimal.Style
import Dataflow.Proofs.Rounding

/-!
# Numbers that are told apart by their digits

The decimal that is written for a value rounds to this value (`Binary.rounds_shortest`), so it is read as this value. It
is written positionally if and only if the value itself lies in the range for that (`IsPlain`, `plain_iff`), since the
bounds of the range are the digits of the values next to them.
-/

namespace Dataflow.Decimal

/-! ## The fewest digits -/

/-- The number that the digits and the exponent stand for. -/
def Digits.value (d : Digits) : ℚ :=
  d.digits * 10 ^ d.exp

theorem zpow_mul_pow_toNat {b : ℚ} (hb : b ≠ 0) (i : ℤ) : b ^ i * b ^ (-i).toNat = b ^ i.toNat := by
  rw [← zpow_natCast, ← zpow_natCast, ← zpow_add₀ hb]
  congr 1
  omega

/-- The comparison in natural numbers is the one of the values. -/
theorem compareScaled_eq (a : ℕ) (i : ℤ) (n : ℕ) (j : ℤ) :
    compareScaled a i n j = compare ((a : ℚ) * 10 ^ i) (n * 2 ^ j) := by
  -- Both sides are multiplied by what makes the exponents natural.
  obtain ⟨c, hc, hleft, hright⟩ : ∃ c : ℚ, 0 < c ∧
      (a : ℚ) * 10 ^ i * c = (a * Nat.pow 10 i.toNat * Nat.pow 2 (-j).toNat : ℕ) ∧
      (n : ℚ) * 2 ^ j * c = (n * Nat.pow 2 j.toNat * Nat.pow 10 (-i).toNat : ℕ) := by
    refine ⟨10 ^ (-i).toNat * 2 ^ (-j).toNat, by positivity, ?_, ?_⟩
    · push_cast [Nat.pow_eq]
      rw [← zpow_mul_pow_toNat (by norm_num) i]
      ring
    · push_cast [Nat.pow_eq]
      rw [← zpow_mul_pow_toNat (by norm_num) j]
      ring
  have hcast : StrictMono (Nat.cast : ℕ → ℚ) := Nat.strictMono_cast
  rw [compareScaled, ← cmp_eq_compare, ← cmp_eq_compare, ← cmp_mul_pos_right hc, hleft, hright, hcast.cmp_map_eq]

theorem quarter_units (x : Binary) (n : ℕ) {q : ℚ} :
    compare q (n * 2 ^ (x.exp - 2)) = compare (q / 2 ^ x.exp) (n / 4) := by
  have hquarters : (n : ℚ) * 2 ^ (x.exp - 2) = n / 4 * 2 ^ x.exp := by
    rw [zpow_sub₀ two_ne_zero]
    norm_num
    ring
  rw [hquarters, ← cmp_eq_compare, ← cmp_eq_compare, ← cmp_mul_pos_right (by positivity : (0 : ℚ) < 2 ^ x.exp) (q / _),
    div_mul_cancel₀ q (by positivity)]

namespace Binary

variable {x : Binary}

/-- The ends of the interval, in quarters of a unit of the last place. -/
theorem low_quarters (hpos : 0 < x.mant) :
    ((if x.narrowBelow then 4 * x.mant - 1 else 4 * x.mant - 2 : ℕ) : ℚ) / 4 = x.mant - x.slack := by
  rw [slack]
  split
  · rw [Nat.cast_sub (by omega)]
    push_cast
    ring
  · rw [Nat.cast_sub (by omega)]
    push_cast
    ring

theorem high_quarters : ((4 * x.mant + 2 : ℕ) : ℚ) / 4 = x.mant + 1 / 2 := by
  push_cast
  ring

/-- What the check lets pass rounds to the value. -/
theorem rounds_of_readsBack (hpos : 0 < x.mant) {d : Digits} (h : x.readsBack d = true) : x.Rounds d.value := by
  simp only [readsBack, compareScaled_eq, quarter_units, low_quarters hpos, high_quarters, Bool.and_eq_true,
    Bool.or_eq_true, decide_eq_true_eq, compare_lt_iff_lt, compare_gt_iff_gt, compare_eq_iff_eq] at h
  change (_ < d.value / _ ∨ _ ∧ d.value / _ = _) ∧ (d.value / _ < _ ∨ _ ∧ d.value / _ = _) at h
  obtain ⟨hlow, hhigh⟩ := h
  refine ⟨?_, ?_, fun hodd => ⟨?_, ?_⟩⟩
  · obtain h | ⟨_, h⟩ := hlow
    · exact h.le
    · exact h.ge
  · obtain h | ⟨_, h⟩ := hhigh
    · exact h.le
    · exact h.le
  · obtain h | ⟨heven, _⟩ := hlow
    · exact h
    · omega
  · obtain h | ⟨heven, _⟩ := hhigh
    · exact h
    · omega

theorem readsBack_of_onGrid? {tie : Tie} {grid : ℤ} {d : Digits} (h : x.onGrid? tie grid = some d) :
    x.readsBack d = true := by
  unfold onGrid? at h
  dsimp only at h
  split at h
  · next hlow _ => cases h; exact hlow
  · next _ hhigh => cases h; exact hhigh
  · cases h
  · next hlow hhigh =>
    split at h
    · cases h; exact hlow
    · cases h; exact hhigh
    · cases h; exact hhigh
    · cases h
      split
      · exact hlow
      · exact hhigh

end Binary

theorem Digits.value_strip : ∀ (fuel : ℕ) (d : Digits), (d.strip fuel).value = d.value
  | 0, _ => rfl
  | fuel + 1, d => by
    rw [strip]
    split
    · next h =>
      simp only [ne_eq, Bool.and_eq_true, decide_eq_true_eq] at h
      have hten : d.digits = d.digits / 10 * 10 := by omega
      rw [value_strip fuel, value, value, zpow_add₀ (by norm_num), zpow_one]
      conv_rhs => rw [hten]
      push_cast
      ring
    · rfl

theorem Binary.value_exact (x : Binary) : x.exact.value = x.value := by
  rw [exact]
  split
  · next h =>
    rw [Digits.value, value, zpow_zero, mul_one]
    push_cast [Nat.pow_eq]
    rw [← zpow_natCast, Int.toNat_of_nonneg h]
  · next h =>
    obtain ⟨n, hn⟩ : ∃ n : ℕ, x.exp = -n := ⟨(-x.exp).toNat, by omega⟩
    rw [Digits.value, value, hn]
    simp only [neg_neg, Int.toNat_natCast, zpow_neg, zpow_natCast]
    push_cast [Nat.pow_eq]
    rw [show (10 : ℚ) = 5 * 2 by norm_num, mul_pow]
    field_simp

/-- The decimal that is written rounds to the value. -/
theorem Binary.rounds_shortest {x : Binary} (hpos : 0 < x.mant) (tie : Tie) : x.Rounds (x.shortest tie).value := by
  unfold shortest
  extract_lets k
  generalize hfound : List.findSome? _ _ = found
  cases found with
  | some d =>
    obtain ⟨n, _, hgrid⟩ := List.exists_of_findSome?_eq_some hfound
    rw [Digits.value_strip]
    exact rounds_of_readsBack hpos (readsBack_of_onGrid? hgrid)
  | none =>
    rw [value_exact]
    exact x.rounds_value

/-! ## The range of positional writing -/

namespace Binary

variable {x y : Binary}

theorem Rounds.between {p q r : ℚ} (hp : x.Rounds p) (hr : x.Rounds r) (hpq : p ≤ q) (hqr : q ≤ r) : x.Rounds q := by
  have hlow : p / 2 ^ x.exp ≤ q / 2 ^ x.exp := by gcongr
  have hhigh : q / 2 ^ x.exp ≤ r / 2 ^ x.exp := by gcongr
  exact ⟨hp.low.trans hlow, hhigh.trans hr.high,
    fun hodd => ⟨(hp.odd hodd).1.trans_le hlow, hhigh.trans_lt (hr.odd hodd).2⟩⟩

/-- A number rounds to one value only, the one that the division gives. -/
theorem Rounds.unique (hx : x.Normal) (hy : y.Normal) {a b : ℕ} (ha : 0 < a) (hb : 0 < b) (hxr : x.Rounds (a / b))
    (hyr : y.Rounds (a / b)) : x = y := by
  have hunits : (a : ℚ) * 2 ^ (0 : ℤ) / (b * 2 ^ (0 : ℤ)) = a / b := by simp
  have h := (div_eq hx ha hb (hunits ▸ hxr)).symm.trans (div_eq hy ha hb (hunits ▸ hyr))
  obtain ⟨-, hmant, hexp⟩ := Float.Model.UnpackedFloat.finite.inj h
  obtain ⟨m, e, narrow⟩ := x
  obtain ⟨m', e', narrow'⟩ := y
  obtain rfl : m = m' := hmant
  obtain rfl : e = e' := hexp
  obtain rfl : narrow = narrow' := hx.narrow.trans hy.narrow.symm
  rfl

/-- A bound that the nearest value and its digits reach is reached by a value if and only if by its digits. -/
theorem le_shortest_iff (hx : x.Normal) (hy : y.Normal) {a b : ℕ} (ha : 0 < a) (hb : 0 < b) (tie : Tie)
    (hround : y.Rounds (a / b)) (hvalue : (a / b : ℚ) ≤ y.value) (hshort : (a / b : ℚ) ≤ (y.shortest tie).value) :
    (a / b : ℚ) ≤ (x.shortest tie).value ↔ (a / b : ℚ) ≤ x.value := by
  have hrounds := rounds_shortest hx.pos tie
  constructor
  · intro h
    by_contra hlt
    -- The bound lies between the value and its digits, so it rounds to the value.
    obtain rfl := Rounds.unique hx hy ha hb (x.rounds_value.between hrounds (not_le.1 hlt).le h) hround
    exact hlt hvalue
  · intro h
    by_contra hlt
    obtain rfl := Rounds.unique hx hy ha hb (hrounds.between x.rounds_value (not_le.1 hlt).le h) hround
    exact hlt hshort

/-- The value nearest to `0.0001`. -/
def tenThousandth : Binary := ⟨0x1a36e2eb1c432d, -66, false⟩

/-- The value `10 ^ 16`. -/
def tenQuadrillion : Binary := ⟨5000000000000000, 1, false⟩

theorem tenThousandth_le_iff (hx : x.Normal) (tie : Tie) :
    (1 / 10 ^ 4 : ℚ) ≤ (x.shortest tie).value ↔ (1 / 10 ^ 4 : ℚ) ≤ x.value := by
  have hnormal : tenThousandth.Normal := ⟨by decide, by decide, by decide, by decide, by decide⟩
  have hshort : tenThousandth.shortest tie = ⟨1, -4⟩ := by
    cases tie <;> decide +kernel
  have h := le_shortest_iff hx hnormal (a := 1) (b := 10 ^ 4) (by decide) (by decide) tie
    ⟨by norm_num [tenThousandth, slack], by norm_num [tenThousandth], by norm_num [tenThousandth, slack]⟩
    (by norm_num [tenThousandth, value]) (by rw [hshort]; norm_num [Digits.value])
  exact_mod_cast h

theorem tenQuadrillion_le_iff (hx : x.Normal) (tie : Tie) :
    (10 ^ 16 : ℚ) ≤ (x.shortest tie).value ↔ (10 ^ 16 : ℚ) ≤ x.value := by
  have hnormal : tenQuadrillion.Normal := ⟨by decide, by decide, by decide, by decide, by decide⟩
  have hshort : tenQuadrillion.shortest tie = ⟨1, 16⟩ := by
    cases tie <;> decide +kernel
  have h := le_shortest_iff hx hnormal (a := 10 ^ 16) (b := 1) (by decide) (by decide) tie
    ⟨by norm_num [tenQuadrillion, slack], by norm_num [tenQuadrillion], by norm_num [tenQuadrillion, slack]⟩
    (by norm_num [tenQuadrillion, value]) (by rw [hshort]; norm_num [Digits.value])
  norm_num at h ⊢
  exact h

end Binary

/-! ## Bits -/

/-- The bits less the sign. -/
def magnitudeBits (x : Float) : UInt64 :=
  x.toBits &&& 0x7fffffffffffffff

/-- The absolute value of a finite number. The infinite values and the value that is no number have bits that would
stand for `2 ^ 1024` and more. -/
def magnitude (x : Float) : ℚ :=
  (Binary.ofBits (magnitudeBits x)).value

theorem toNat_magnitudeBits (x : Float) : (magnitudeBits x).toNat = x.toBits.toNat % 2 ^ 63 := by
  rw [magnitudeBits, UInt64.toNat_and]
  exact Nat.and_two_pow_sub_one_eq_mod _ 63

theorem ofBits_eq {bits : UInt64} {e f : ℕ} (he : e < 2 ^ 11) (hf : f < 2 ^ 52) (h : bits.toNat = e * 2 ^ 52 + f) :
    Binary.ofBits bits = if e = 0 then ⟨f, -1074, false⟩ else ⟨2 ^ 52 + f, e - 1075, f = 0 && e > 1⟩ := by
  have hexp : ((bits >>> 52) &&& 0x7ff).toNat = e := by
    have hmask : ((bits >>> 52) &&& 0x7ff).toNat = (bits >>> 52).toNat % 2 ^ 11 := by
      rw [UInt64.toNat_and]
      exact Nat.and_two_pow_sub_one_eq_mod _ 11
    have hshift : (bits >>> 52).toNat = bits.toNat / 2 ^ 52 := by
      rw [UInt64.toNat_shiftRight]
      exact Nat.shiftRight_eq_div_pow _ 52
    rw [hmask, hshift, h]
    omega
  have hmant : (bits &&& 0xfffffffffffff).toNat = f := by
    have hmask : (bits &&& 0xfffffffffffff).toNat = bits.toNat % 2 ^ 52 := by
      rw [UInt64.toNat_and]
      exact Nat.and_two_pow_sub_one_eq_mod _ 52
    rw [hmask, h]
    omega
  rw [Binary.ofBits, hexp, hmant]
  rfl

theorem exists_fields (x : Float) : ∃ e f, e < 2 ^ 11 ∧ f < 2 ^ 52 ∧ (magnitudeBits x).toNat = e * 2 ^ 52 + f := by
  have h := toNat_magnitudeBits x
  exact ⟨(magnitudeBits x).toNat / 2 ^ 52, (magnitudeBits x).toNat % 2 ^ 52, by omega, by omega, by omega⟩

/-- Only a normal value is near to a number in the range. -/
theorem normal_of_rounds {x : Float} {q : ℚ} (hr : (Binary.ofBits (magnitudeBits x)).Rounds q) (hlow : 1 / 10 ^ 4 ≤ q)
    (hhigh : q < 10 ^ 16) : (Binary.ofBits (magnitudeBits x)).Normal := by
  obtain ⟨e, f, he, hf, h⟩ := exists_fields x
  rw [ofBits_eq he hf h] at hr ⊢
  have hsmall {b : Binary} (hb : b.Rounds q) (hmant : b.mant < 2 ^ 53) : ¬ b.exp ≤ -1074 := by
    intro hexp
    refine hlow.not_gt ?_
    calc q ≤ 2 ^ 53 * 2 ^ b.exp := hb.le_mul hmant
      _ ≤ 2 ^ 53 * 2 ^ (-100 : ℤ) := by
        gcongr
        · norm_num
        · omega
      _ < 1 / 10 ^ 4 := by norm_num
  have hlarge {b : Binary} (hb : b.Rounds q) (hmant : 2 ^ 52 ≤ b.mant) : ¬ 972 ≤ b.exp := by
    intro hexp
    refine hhigh.not_ge ?_
    calc (10 ^ 16 : ℚ) ≤ 2 ^ 51 * 2 ^ (100 : ℤ) := by norm_num
      _ ≤ 2 ^ 51 * 2 ^ b.exp := by
        gcongr
        · norm_num
        · omega
      _ ≤ q := hb.mul_le hmant
  split at hr
  · exact absurd le_rfl (hsmall hr (by dsimp only; omega))
  · next hne =>
    have h₁ := hsmall hr (by dsimp only; omega)
    have h₂ := hlarge hr (by dsimp only; omega)
    dsimp only at h₁ h₂
    rw [if_neg hne]
    refine ⟨by dsimp only; omega, by dsimp only; omega, by dsimp only; omega, by dsimp only; omega, ?_⟩
    dsimp only
    rw [decide_eq_true (by omega : e > 1), Bool.and_true]
    congr 1
    simp

theorem eq_toFloat {x : Float} (hx : (Binary.ofBits (magnitudeBits x)).Normal) :
    x = hx.toFloat (if x.toBits = magnitudeBits x then .positive else .negative) := by
  obtain ⟨e, f, he, hf, h⟩ := exists_fields x
  have hbits := ofBits_eq he hf h
  have hbits' := toNat_magnitudeBits x
  have hzero : e ≠ 0 := by
    rintro rfl
    have := hx.least
    rw [hbits, if_pos rfl] at this
    dsimp only at this
    omega
  rw [if_neg hzero] at hbits
  have hexp : (e : ℤ) = (Binary.ofBits (magnitudeBits x)).exp + 1075 := by
    rw [hbits]
    simp
  have hmant : (Binary.ofBits (magnitudeBits x)).mant - 2 ^ 52 = f := by
    rw [hbits]
    simp
  rw [← Float.toBits_inj, ← UInt64.toNat_inj, hx.toNat_toBits _ hexp, hmant, Nat.add_assoc, ← h]
  split
  · next heq =>
    rw [← heq]
    simp [Float.Model.UnpackedFloat.Sign.toBitVec]
  · next hne =>
    rw [← UInt64.toNat_inj] at hne
    have := x.toBits.toNat_lt
    simp [Float.Model.UnpackedFloat.Sign.toBitVec]
    omega

/-! ## Texts -/

theorem natural?_eq_some {cs : List Char} {n : ℕ} :
    natural? cs = some n ↔ (cs ≠ [] ∧ ∀ c ∈ cs, isDigit c = true) ∧ naturalOf cs = n := by
  simp [natural?]

theorem naturalOf_eq (cs : List Char) : naturalOf cs = Nat.ofDigitChars 10 cs 0 := by
  unfold naturalOf Nat.ofDigitChars
  congr 1
  funext sofar c
  rw [Nat.mul_comm]
  rfl

theorem isDigit_of_mem_digitChars {n : ℕ} {c : Char} (hc : c ∈ digitChars n) : isDigit c = true := by
  have hdigit := Nat.isDigit_of_mem_toDigits (by omega) (by omega) hc
  simp only [Char.isDigit, Bool.and_eq_true, decide_eq_true_eq, UInt32.le_iff_toNat_le] at hdigit
  simp only [isDigit, Bool.and_eq_true, decide_eq_true_eq]
  exact hdigit

theorem natural?_toDigits (n : ℕ) : natural? (Nat.toDigits 10 n) = some n :=
  natural?_eq_some.2 ⟨⟨Nat.toDigits_ne_nil, fun _ => isDigit_of_mem_digitChars⟩, by
    rw [naturalOf_eq, Nat.ofDigitChars_ten_toDigits]⟩

/-- The exponent of the leading digit tells which powers of ten are reached. -/
theorem le_lead_iff {d : Digits} (hd : d.digits ≠ 0) (i : ℤ) :
    i ≤ d.exp + (digitChars d.digits).length - 1 ↔ 10 ^ i ≤ d.value := by
  have hpos : 0 < (digitChars d.digits).length := Nat.length_toDigits_pos
  have hone : (1 : ℚ) ≤ d.digits := by exact_mod_cast Nat.pos_of_ne_zero hd
  have hvalue : 10 ^ i ≤ d.value ↔ (10 : ℚ) ^ (i - d.exp) ≤ d.digits := by
    rw [Digits.value, zpow_sub₀ (by norm_num), div_le_iff₀ (by positivity)]
  rw [hvalue]
  obtain hneg | ⟨k, hk⟩ : i - d.exp ≤ 0 ∨ ∃ k : ℕ, i - d.exp = (k + 1 : ℕ) := by
    by_cases h : i - d.exp ≤ 0
    · exact .inl h
    · exact .inr ⟨(i - d.exp - 1).toNat, by omega⟩
  · refine iff_of_true (by omega) (le_trans ?_ hone)
    exact zpow_le_one_of_nonpos₀ (by norm_num) hneg
  · have hlength := Nat.length_toDigits_le_iff (b := 10) (n := d.digits) (by decide) (Nat.succ_pos k)
    rw [hk, zpow_natCast]
    norm_cast
    rw [← Nat.not_lt, ← hlength, ← digitChars]
    omega

theorem isDigit_of_mem_zeros {n : ℕ} {c : Char} (hc : c ∈ zeros n) : isDigit c = true := by
  rw [List.eq_of_mem_replicate hc]
  decide

theorem single_zero : ['0'] ≠ [] ∧ ∀ c ∈ ['0'], isDigit c = true :=
  ⟨by simp, List.forall_mem_singleton.2 (by decide)⟩

/-- A point stands among the digits where the exponent says. -/
theorem positional_eq (d : Digits) : ∃ whole fraction,
    positional (digitChars d.digits) d.exp = whole ++ '.' :: fraction ∧
      (whole ≠ [] ∧ ∀ c ∈ whole, isDigit c = true) ∧ (fraction ≠ [] ∧ ∀ c ∈ fraction, isDigit c = true) ∧
      (naturalOf (whole ++ fraction) : ℚ) / 10 ^ fraction.length = d.value := by
  have hne : digitChars d.digits ≠ [] := Nat.toDigits_ne_nil
  have hdigits : Nat.ofDigitChars 10 (digitChars d.digits) 0 = d.digits := Nat.ofDigitChars_ten_toDigits
  obtain ⟨n, hn⟩ | ⟨n, hn, hpos⟩ : (∃ n : ℕ, d.exp = n) ∨ ∃ n : ℕ, d.exp = -n ∧ 0 < n := by
    by_cases h : 0 ≤ d.exp
    · exact .inl ⟨d.exp.toNat, by omega⟩
    · exact .inr ⟨(-d.exp).toNat, by omega, by omega⟩
  · have hnat : naturalOf (digitChars d.digits ++ zeros n ++ ['0']) = 10 * (10 ^ n * d.digits) := by
      simp only [naturalOf_eq, Nat.ofDigitChars_append, hdigits, zeros, Nat.ofDigitChars_replicate_zero]
      rfl
    refine ⟨digitChars d.digits ++ zeros n, ['0'], ?_, ⟨by simp [hne], ?_⟩, single_zero, ?_⟩
    · rw [positional, hn, if_pos (by omega), Int.toNat_natCast]
    · simp only [List.mem_append]
      rintro c (hc | hc)
      · exact isDigit_of_mem_digitChars hc
      · exact isDigit_of_mem_zeros hc
    · rw [hnat, Digits.value, hn, zpow_natCast, List.length_singleton]
      push_cast
      ring
  · have hvalue : d.value = d.digits / 10 ^ n := by
      rw [Digits.value, hn, zpow_neg, zpow_natCast, div_eq_mul_inv]
    rw [positional, hn, if_neg (by omega), Int.neg_neg, Int.toNat_natCast]
    dsimp only
    split
    · next hplaces =>
      refine ⟨_, _, rfl, ⟨?_, fun c hc => isDigit_of_mem_digitChars (List.mem_of_mem_take hc)⟩,
        ⟨?_, fun c hc => isDigit_of_mem_digitChars (List.mem_of_mem_drop hc)⟩, ?_⟩
      · simp only [ne_eq, List.take_eq_nil_iff, hne, or_false]
        omega
      · rw [ne_eq, List.drop_eq_nil_iff]
        omega
      · rw [List.take_append_drop, naturalOf_eq, hdigits, hvalue, List.length_drop, Nat.sub_sub_self hplaces.le]
    · next hplaces =>
      have hnat : naturalOf (['0'] ++ (zeros (n - (digitChars d.digits).length) ++ digitChars d.digits)) = d.digits := by
        rw [naturalOf_eq, Nat.ofDigitChars_append, Nat.ofDigitChars_append, zeros, Nat.ofDigitChars_replicate_zero]
        exact hdigits
      refine ⟨['0'], zeros (n - (digitChars d.digits).length) ++ digitChars d.digits, rfl,
        single_zero, ⟨by simp [hne], ?_⟩, ?_⟩
      · simp only [List.mem_append]
        rintro c (hc | hc)
        · exact isDigit_of_mem_zeros hc
        · exact isDigit_of_mem_digitChars hc
      · rw [hnat, hvalue, List.length_append, zeros, List.length_replicate, Nat.sub_add_cancel (by omega)]

/-- Positional writing is for the decimals of its range. -/
theorem Style.layout_positional (style : Style) {d : Digits} (hd : d.digits ≠ 0)
    (h : 10 ^ style.plainFrom ≤ d.value ∧ d.value < 10 ^ style.plainBelow) :
    style.layout d = positional (digitChars d.digits) d.exp := by
  rw [← not_le, ← le_lead_iff hd, ← le_lead_iff hd, not_le] at h
  rw [layout, if_pos (by simpa using h)]

theorem Style.layout_scientific (style : Style) {d : Digits} (hd : d.digits ≠ 0)
    (h : ¬ (10 ^ style.plainFrom ≤ d.value ∧ d.value < 10 ^ style.plainBelow)) :
    style.layout d =
      scientific style.signedExponent (digitChars d.digits) (d.exp + (digitChars d.digits).length - 1) := by
  rw [← not_le, ← le_lead_iff hd, ← le_lead_iff hd, not_le] at h
  rw [layout, if_neg (by simpa using h)]

theorem Binary.Rounds.digits_ne_zero {x : Binary} {d : Digits} (hpos : 0 < x.mant) (hr : x.Rounds d.value) :
    d.digits ≠ 0 := by
  intro hzero
  have hone : (1 : ℚ) ≤ x.mant := by exact_mod_cast hpos
  have hlow := hr.low
  rw [Digits.value, hzero, Nat.cast_zero, zero_mul, zero_div] at hlow
  linarith [x.slack_le]

theorem mant_eq_zero {x : Float} : (Binary.ofBits (magnitudeBits x)).mant = 0 ↔ magnitudeBits x = 0 := by
  obtain ⟨e, f, he, hf, h⟩ := exists_fields x
  rw [ofBits_eq he hf h, ← UInt64.toNat_inj, h, UInt64.toNat_zero]
  split <;> dsimp only <;> omega

theorem magnitude_eq_zero {x : Float} : magnitude x = 0 ↔ magnitudeBits x = 0 := by
  rw [magnitude, Binary.value, ← mant_eq_zero, mul_eq_zero_iff_right (by positivity), Nat.cast_eq_zero]

theorem zero_of_magnitude {x : Float} (h : magnitudeBits x = 0) : x = 0.0 ∨ x = -0.0 := by
  have hbits := toNat_magnitudeBits x
  have hlt := x.toBits.toNat_lt
  rw [h, UInt64.toNat_zero] at hbits
  have hplus : (0.0 : Float).toBits.toNat = 0 := by decide +kernel
  have hminus : (-0.0 : Float).toBits.toNat = 2 ^ 63 := by decide +kernel
  rw [← Float.toBits_inj, ← Float.toBits_inj, ← UInt64.toNat_inj, ← UInt64.toNat_inj, hplus, hminus]
  omega

/-- The text of a number whose magnitude is normal. -/
theorem Style.write_normal (style : Style) {x : Float} (hx : (Binary.ofBits (magnitudeBits x)).Normal) :
    (style.write x).toList = (if x.toBits = magnitudeBits x then [] else ['-']) ++
      style.layout ((Binary.ofBits (magnitudeBits x)).shortest style.tie) := by
  have hunpack : x.toModel.unpack = _ := congrArg (fun y => y.toModel.unpack) (eq_toFloat hx)
  rw [hx.unpack_toFloat] at hunpack
  have hnan : x.isNaN = false := by
    rw [Float.isNaN, Float.Model.isNaN, hunpack]
    rfl
  have hinf : x.isInf = false := by
    rw [Float.isInf, Float.Model.isInf, hunpack]
    rfl
  have hne : x.toBits &&& 0x7fffffffffffffff ≠ 0 := fun h => hx.value_pos.ne' (magnitude_eq_zero.2 h)
  simp only [write, hnan, hinf, hne, if_false, Bool.false_eq_true, String.toList_ofList, magnitudeBits]
  rfl

/-- A number in the range of positional writing, or zero. -/
def IsPlain (x : Float) : Prop :=
  magnitude x = 0 ∨ 1 / 10 ^ 4 ≤ magnitude x ∧ magnitude x < 10 ^ 16

example : IsPlain (-0.1) := by
  have hmant : (Binary.ofBits (magnitudeBits (-0.1))).mant = 0x1999999999999a := by decide +kernel
  have hexp : (Binary.ofBits (magnitudeBits (-0.1))).exp = -56 := by decide +kernel
  rw [IsPlain, magnitude, Binary.value, hmant, hexp]
  norm_num

/-- The digits lie in the range if and only if the value does. -/
theorem plain_iff {x : Float} (hpos : 0 < (Binary.ofBits (magnitudeBits x)).mant) (tie : Tie) {d : Digits}
    (hd : d = (Binary.ofBits (magnitudeBits x)).shortest tie) :
    1 / 10 ^ 4 ≤ d.value ∧ d.value < 10 ^ 16 ↔ 1 / 10 ^ 4 ≤ magnitude x ∧ magnitude x < 10 ^ 16 := by
  subst hd
  constructor
  · rintro ⟨hlow, hhigh⟩
    have hx := normal_of_rounds (Binary.rounds_shortest hpos tie) hlow hhigh
    rw [← not_le] at hhigh ⊢
    exact ⟨(Binary.tenThousandth_le_iff hx tie).1 hlow, mt (Binary.tenQuadrillion_le_iff hx tie).2 hhigh⟩
  · rintro ⟨hlow, hhigh⟩
    have hx := normal_of_rounds (Binary.rounds_value _) hlow hhigh
    rw [← not_le] at hhigh ⊢
    exact ⟨(Binary.tenThousandth_le_iff hx tie).2 hlow, mt (Binary.tenQuadrillion_le_iff hx tie).1 hhigh⟩

end Dataflow.Decimal
