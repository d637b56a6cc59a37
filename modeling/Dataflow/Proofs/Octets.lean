import Dataflow.Proofs.Occurrences
import Dataflow.Text.Utf8
import Mathlib.Tactic.IntervalCases
import Mathlib.Tactic.SplitIfs

/-!
# Texts and octets

The octets of a text are its UTF-8 form (`Text.encode_eq_toUTF8`), and they are read back as the text
(`Text.decodeLossy_encode`). Octets that spell no text are read as well, with replacement characters, and the
octets of what comes out are then others. ASCII is not touched by this: an ASCII text stands in the octets
exactly if it stands in what they are read as (`Text.infix_decodeLossy`), because no octet of a longer character
is ASCII, and no character comes out of such octets that is.
-/

namespace Dataflow.Text

/-! ## Encoding -/

theorem encodeChar_eq_utf8EncodeChar (c : Char) : encodeChar c = String.utf8EncodeChar c := by
  have hvalid : c.toNat < 0xd800 ∨ 0xdfff < c.toNat ∧ c.toNat < 0x110000 := c.valid
  have hval : c.val.toNat = c.toNat := rfl
  have hpow : Nat.pow 64 0 = 1 ∧ Nat.pow 64 1 = 64 ∧ Nat.pow 64 2 = 4096 := by decide
  have hone : c.toNat < 0x80 ↔ c.toNat ≤ 127 := by omega
  have htwo : c.toNat < 0x800 ↔ c.toNat ≤ 2047 := by omega
  have hthree : c.toNat < 0x10000 ↔ c.toNat ≤ 65535 := by omega
  simp only [encodeChar, String.utf8EncodeChar, hval, hpow, hone, htwo, hthree]
  split_ifs
  · rfl
  · exact congrArg₂ (fun a b => [UInt8.ofNat a, UInt8.ofNat b]) (by omega) (by omega)
  · have hhigh : 0xe0 + c.toNat / 0x1000 = c.toNat / 4096 % 16 + 224 := by omega
    rw [hhigh, Nat.div_one, Nat.add_comm 0x80, Nat.add_comm 0x80]
  · have hhigh : 0xf0 + c.toNat / 0x40000 = c.toNat / 262144 % 8 + 240 := by omega
    rw [hhigh, Nat.div_one, Nat.add_comm 0x80, Nat.add_comm 0x80, Nat.add_comm 0x80]

theorem toUTF8_octets (s : String) : s.toUTF8.data.toList = s.toList.flatMap String.utf8EncodeChar := by
  rw [String.toUTF8_eq_toByteArray, ← String.utf8Encode_toList, List.utf8Encode, List.data_toByteArray]

theorem encode_eq_toUTF8 (s : String) : encode s = s.toUTF8.data.toList := by
  rw [toUTF8_octets, encode, funext encodeChar_eq_utf8EncodeChar]

theorem encodeChar_ascii {c : Char} (hc : c.toNat < 0x80) : encodeChar c = [UInt8.ofNat c.toNat] := by
  simp [encodeChar, hc]

/-! ## Decoding, one octet at a time -/

variable {b : UInt8} {bs : List UInt8} {u : Unfinished}

theorem decodeFrom_ascii (hb : b.toNat < 0x80) :
    decodeFrom none (b :: bs) = Char.ofNat b.toNat :: decodeFrom none bs := by
  rw [decodeFrom, decodeFirst, if_pos hb]
  rfl

theorem decodeFrom_start (hb : 0x80 ≤ b.toNat) (hu : Unfinished.start? b.toNat = some u) :
    decodeFrom none (b :: bs) = decodeFrom (some u) bs := by
  rw [decodeFrom, decodeFirst, if_neg (Nat.not_lt.2 hb), hu]
  rfl

theorem decodeFrom_stray (hb : 0x80 ≤ b.toNat) (hu : Unfinished.start? b.toNat = none) :
    decodeFrom none (b :: bs) = replacement :: decodeFrom none bs := by
  rw [decodeFrom, decodeFirst, if_neg (Nat.not_lt.2 hb), hu]
  rfl

theorem decodeFrom_torn (h : ¬ (u.least ≤ b.toNat ∧ b.toNat ≤ u.most)) :
    decodeFrom (some u) (b :: bs) = replacement :: decodeFrom none (b :: bs) := by
  conv_lhs => rw [decodeFrom, if_neg (by simpa using h)]
  rfl

theorem decodeFrom_more (h : u.least ≤ b.toNat ∧ b.toNat ≤ u.most) (howed : 1 < u.owed) :
    decodeFrom (some u) (b :: bs) =
      decodeFrom (some ⟨u.value * 64 + (b.toNat - 0x80), u.owed - 1, 0x80, 0xbf⟩) bs := by
  rw [decodeFrom, if_pos (by simpa using h), if_neg (Nat.not_le.2 howed)]

theorem decodeFrom_last (h : u.least ≤ b.toNat ∧ b.toNat ≤ u.most) (howed : u.owed ≤ 1) :
    decodeFrom (some u) (b :: bs) = Char.ofNat (u.value * 64 + (b.toNat - 0x80)) :: decodeFrom none bs := by
  rw [decodeFrom, if_pos (by simpa using h), if_pos howed]

/-! ## Reading a text back -/

theorem start?_two : ∀ k, 2 ≤ k → k < 32 → Unfinished.start? (0xc0 + k) = some ⟨k, 1, 0x80, 0xbf⟩ := by
  intro k hlow hhigh
  rw [Unfinished.start?, if_pos (by simp; omega)]
  simp

/-- The second octet is bounded so that no shorter form and no surrogate is spelled. -/
theorem start?_three : ∀ k < 16, Unfinished.start? (0xe0 + k) =
    some ⟨k, 2, if k = 0 then 0xa0 else 0x80, if k = 13 then 0x9f else 0xbf⟩ := by
  intro k hk
  interval_cases k <;> rfl

theorem start?_four : ∀ k < 5, Unfinished.start? (0xf0 + k) =
    some ⟨k, 3, if k = 0 then 0x90 else 0x80, if k = 4 then 0x8f else 0xbf⟩ := by
  intro k hk
  interval_cases k <;> rfl

theorem toNat_ofNat_of_valid {n : Nat} (h : n.isValidChar) : (Char.ofNat n).toNat = n := by
  rw [Char.ofNat, dif_pos h]
  rfl

/-- Every character is read back from its octets. -/
theorem decodeFrom_encodeChar (c : Char) (bs : List UInt8) :
    decodeFrom none (encodeChar c ++ bs) = c :: decodeFrom none bs := by
  have hvalid : c.toNat < 0xd800 ∨ 0xdfff < c.toNat ∧ c.toNat < 0x110000 := c.valid
  have hc : Char.ofNat c.toNat = c := Char.ofNat_toNat c
  have hzero (n : Nat) : n / Nat.pow 64 0 = n := Nat.div_one n
  have hone (n : Nat) : n / Nat.pow 64 1 = n / 64 := rfl
  have htwo (n : Nat) : n / Nat.pow 64 2 = n / 4096 := rfl
  unfold encodeChar
  simp only [hzero, hone, htwo]
  generalize c.toNat = n at *
  have hbyte {m : Nat} (hm : m < 256) : (UInt8.ofNat m).toNat = m := UInt8.toNat_ofNat_of_lt' hm
  have htail (m : Nat) : (UInt8.ofNat (0x80 + m % 64)).toNat = 0x80 + m % 64 := hbyte (by omega)
  split_ifs with h1 h2 h3
  · have hb : (UInt8.ofNat n).toNat = n := hbyte (by omega)
    rw [List.singleton_append, decodeFrom_ascii (by omega), hb, hc]
  · have hb : (UInt8.ofNat (0xc0 + n / 64)).toNat = 0xc0 + n / 64 := hbyte (by omega)
    rw [List.cons_append, List.singleton_append,
      decodeFrom_start (by omega) (hb ▸ start?_two (n / 64) (by omega) (by omega)),
      decodeFrom_last (by simp only [htail]; omega) Nat.le.refl, htail,
      show n / 64 * 64 + (0x80 + n % 64 - 0x80) = n by omega, hc]
  · have hb : (UInt8.ofNat (0xe0 + n / 0x1000)).toNat = 0xe0 + n / 0x1000 := hbyte (by omega)
    rw [List.cons_append, List.cons_append, List.singleton_append,
      decodeFrom_start (by omega) (hb ▸ start?_three (n / 0x1000) (by omega)),
      decodeFrom_more (by simp only [htail]; split_ifs <;> omega) (by simp), htail,
      decodeFrom_last (by simp only [htail]; omega) Nat.le.refl, htail,
      show (n / 0x1000 * 64 + (0x80 + n / 64 % 64 - 0x80)) * 64 + (0x80 + n % 64 - 0x80) = n by omega, hc]
  · have hb : (UInt8.ofNat (0xf0 + n / 0x40000)).toNat = 0xf0 + n / 0x40000 := hbyte (by omega)
    rw [List.cons_append, List.cons_append, List.cons_append, List.singleton_append,
      decodeFrom_start (by omega) (hb ▸ start?_four (n / 0x40000) (by omega)),
      decodeFrom_more (by simp only [htail]; split_ifs <;> omega) (by simp), htail,
      decodeFrom_more (by simp only [htail]; omega) (by simp), htail,
      decodeFrom_last (by simp only [htail]; omega) Nat.le.refl, htail,
      show ((n / 0x40000 * 64 + (0x80 + n / 4096 % 64 - 0x80)) * 64 + (0x80 + n / 64 % 64 - 0x80)) * 64 +
        (0x80 + n % 64 - 0x80) = n by omega, hc]

theorem decodeLossy_encode (s : String) : decodeLossy (encode s) = s := by
  have hchars (cs : List Char) : decodeFrom none (cs.flatMap encodeChar) = cs := by
    induction cs with
    | nil => rfl
    | cons c cs ih => rw [List.flatMap_cons, decodeFrom_encodeChar, ih]
  rw [decodeLossy, encode, hchars, String.ofList_toList]

/-- Octets are those of the text that they are read as exactly if they are those of a text. -/
theorem encode_decodeLossy (bs : List UInt8) : encode (decodeLossy bs) = bs ↔ ∃ s, encode s = bs := by
  refine ⟨fun h => ⟨_, h⟩, ?_⟩
  rintro ⟨s, rfl⟩
  rw [decodeLossy_encode]

/-! ## ASCII texts in octets -/

/-- The code points that an unfinished character can still become. -/
def Unfinished.low (u : Unfinished) : Nat := (u.value * 64 + (u.least - 0x80)) * Nat.pow 64 (u.owed - 1)

def Unfinished.high (u : Unfinished) : Nat := (u.value * 64 + (u.most - 0x80) + 1) * Nat.pow 64 (u.owed - 1)

/-- The next octet is not ASCII, and all that can come out are characters beyond ASCII. -/
structure Unfinished.Beyond (u : Unfinished) : Prop where
  least : 0x80 ≤ u.least
  low : 0x80 ≤ u.low
  valid : u.high ≤ 0xd800 ∨ 0xe000 ≤ u.low ∧ u.high ≤ 0x110000

theorem Unfinished.start?_beyond {n : Nat} (h : start? n = some u) : u.Beyond := by
  unfold start? at h
  split_ifs at h with h2 he0 hed h3 hf0 h4 hf4 <;> obtain rfl := Option.some.inj h
  all_goals simp only [Bool.and_eq_true, decide_eq_true_eq] at *
  all_goals constructor <;> simp only [Unfinished.low, Unfinished.high, Nat.pow_eq] <;> omega

theorem Unfinished.Beyond.more (hu : u.Beyond) (h : u.least ≤ b.toNat ∧ b.toNat ≤ u.most) (howed : 1 < u.owed) :
    Unfinished.Beyond ⟨u.value * 64 + (b.toNat - 0x80), u.owed - 1, 0x80, 0xbf⟩ := by
  have hspan : Nat.pow 64 (u.owed - 1) = 64 * Nat.pow 64 (u.owed - 1 - 1) := by
    rw [show u.owed - 1 = (u.owed - 1 - 1) + 1 by omega]
    exact Nat.pow_succ'
  have hleast := hu.least
  have hlow : u.low ≤ Unfinished.low ⟨u.value * 64 + (b.toNat - 0x80), u.owed - 1, 0x80, 0xbf⟩ := by
    unfold Unfinished.low
    dsimp only
    rw [hspan, ← Nat.mul_assoc]
    exact Nat.mul_le_mul_right _ (by omega)
  have hhigh : Unfinished.high ⟨u.value * 64 + (b.toNat - 0x80), u.owed - 1, 0x80, 0xbf⟩ ≤ u.high := by
    unfold Unfinished.high
    dsimp only
    rw [hspan, ← Nat.mul_assoc]
    exact Nat.mul_le_mul_right _ (by omega)
  exact ⟨Nat.le.refl, hu.low.trans hlow, hu.valid.imp hhigh.trans fun h => ⟨h.1.trans hlow, hhigh.trans h.2⟩⟩

theorem Unfinished.Beyond.last (hu : u.Beyond) (h : u.least ≤ b.toNat ∧ b.toNat ≤ u.most) (howed : u.owed ≤ 1) :
    0x80 ≤ (Char.ofNat (u.value * 64 + (b.toNat - 0x80))).toNat := by
  obtain ⟨hleast, hlow, hvalid⟩ := hu
  have hspan : u.owed - 1 = 0 := by omega
  unfold Unfinished.low at hlow hvalid
  unfold Unfinished.high at hvalid
  rw [hspan, show Nat.pow 64 0 = 1 from rfl, Nat.mul_one] at hlow hvalid
  rw [Nat.mul_one] at hvalid
  have hchar : (u.value * 64 + (b.toNat - 0x80)).isValidChar := by
    unfold Nat.isValidChar
    omega
  rw [toNat_ofNat_of_valid hchar]
  omega

/-- Whatever is at hand, an ASCII character does not come next. -/
theorem not_prefix_decodeFrom {c : Char} (hc : c.toNat < 0x80) {p : List Char} (hu : u.Beyond) :
    ¬ c :: p <+: decodeFrom (some u) bs := by
  have hhead {d : Char} {cs : List Char} (hd : 0x80 ≤ d.toNat) : ¬ c :: p <+: d :: cs := by
    intro h
    obtain ⟨rfl, _⟩ := List.cons_prefix_cons.1 h
    omega
  induction bs generalizing u with
  | nil => exact hhead (by decide)
  | cons b bs ih =>
    by_cases hb : u.least ≤ b.toNat ∧ b.toNat ≤ u.most
    · rcases Nat.lt_or_ge 1 u.owed with howed | howed
      · rw [decodeFrom_more hb howed]
        exact ih (hu.more hb howed)
      · rw [decodeFrom_last hb howed]
        exact hhead (hu.last hb howed)
    · rw [decodeFrom_torn hb]
      exact hhead (by decide)

section Ascii

variable {p : List Char} (hp : ∀ c ∈ p, c.toNat < 0x80)
include hp

theorem prefix_decodeFrom : p <+: decodeFrom none bs ↔ p.flatMap encodeChar <+: bs := by
  induction p generalizing bs with
  | nil => simp
  | cons c p ih =>
    have hc : c.toNat < 0x80 := hp c List.mem_cons_self
    have hoctet : (UInt8.ofNat c.toNat).toNat = c.toNat := UInt8.toNat_ofNat_of_lt' (by simp only [UInt8.size]; omega)
    rw [List.flatMap_cons, encodeChar_ascii hc, List.singleton_append]
    cases bs with
    | nil => simp [decodeFrom]
    | cons b bs =>
      rcases Nat.lt_or_ge b.toNat 0x80 with hb | hb
      · have hsame : c = Char.ofNat b.toNat ↔ UInt8.ofNat c.toNat = b := by
          constructor
          · rintro rfl
            rw [toNat_ofNat_of_valid (by unfold Nat.isValidChar; omega), UInt8.ofNat_toNat]
          · rintro rfl
            rw [hoctet, Char.ofNat_toNat]
        rw [decodeFrom_ascii hb, List.cons_prefix_cons, List.cons_prefix_cons, hsame,
          ih fun d hd => hp d (List.mem_cons_of_mem c hd)]
      · have hne : UInt8.ofNat c.toNat ≠ b := by
          rintro rfl
          omega
        refine iff_of_false ?_ fun h => hne (List.cons_prefix_cons.1 h).1
        cases hu : Unfinished.start? b.toNat with
        | none =>
          rw [decodeFrom_stray hb hu]
          intro h
          obtain ⟨rfl, _⟩ := List.cons_prefix_cons.1 h
          exact absurd hc (by decide)
        | some u =>
          rw [decodeFrom_start hb hu]
          exact not_prefix_decodeFrom hc (Unfinished.start?_beyond hu)

/-- An ASCII text stands in octets where it stands in what they are read as. -/
theorem infix_decodeFrom (hne : p ≠ []) (bs : List UInt8) :
    (p <:+: decodeFrom none bs ↔ p.flatMap encodeChar <:+: bs) ∧
      ∀ u : Unfinished, u.Beyond → (p <:+: decodeFrom (some u) bs ↔ p.flatMap encodeChar <:+: bs) := by
  have hchar {d : Char} (hd : 0x80 ≤ d.toNat) : d ∉ p := fun hmem => Nat.not_lt.2 hd (hp d hmem)
  have hoctets : p.flatMap encodeChar ≠ [] := by
    obtain ⟨c, p, rfl⟩ := List.exists_cons_of_ne_nil hne
    rw [List.flatMap_cons, encodeChar_ascii (hp c List.mem_cons_self)]
    simp
  have hoctet {b : UInt8} (hb : 0x80 ≤ b.toNat) : b ∉ p.flatMap encodeChar := by
    intro hmem
    obtain ⟨c, hc, hb'⟩ := List.mem_flatMap.1 hmem
    have hascii := hp c hc
    rw [encodeChar_ascii hascii, List.mem_singleton] at hb'
    rw [hb', UInt8.toNat_ofNat_of_lt' (by simp only [UInt8.size]; omega)] at hb
    omega
  have hreplacement : 0x80 ≤ replacement.toNat := by decide
  induction bs with
  | nil =>
    refine ⟨by simp [decodeFrom, hne, hoctets], fun u _ => ?_⟩
    rw [decodeFrom, infix_cons_of_notMem hne (hchar hreplacement)]
    simp [hne, hoctets]
  | cons b bs ih =>
    have hnone : p <:+: decodeFrom none (b :: bs) ↔ p.flatMap encodeChar <:+: b :: bs := by
      rcases Nat.lt_or_ge b.toNat 0x80 with hb | hb
      · rw [List.infix_cons_iff, ← prefix_decodeFrom hp, decodeFrom_ascii hb, List.infix_cons_iff, ih.1]
      · rw [infix_cons_of_notMem hoctets (hoctet hb)]
        cases hu : Unfinished.start? b.toNat with
        | none => rw [decodeFrom_stray hb hu, infix_cons_of_notMem hne (hchar hreplacement), ih.1]
        | some u => rw [decodeFrom_start hb hu, ih.2 u (Unfinished.start?_beyond hu)]
    refine ⟨hnone, fun u hu => ?_⟩
    by_cases hb : u.least ≤ b.toNat ∧ b.toNat ≤ u.most
    · rw [infix_cons_of_notMem hoctets (hoctet (hu.least.trans hb.1))]
      rcases Nat.lt_or_ge 1 u.owed with howed | howed
      · rw [decodeFrom_more hb howed, ih.2 _ (hu.more hb howed)]
      · rw [decodeFrom_last hb howed, infix_cons_of_notMem hne (hchar (hu.last hb howed)), ih.1]
    · rw [decodeFrom_torn hb, infix_cons_of_notMem hne (hchar hreplacement), hnone]

theorem infix_decodeLossy (hne : p ≠ []) (bs : List UInt8) :
    p <:+: (decodeLossy bs).toList ↔ p.flatMap encodeChar <:+: bs := by
  rw [decodeLossy, String.toList_ofList]
  exact (infix_decodeFrom hp hne bs).1

end Ascii

end Dataflow.Text
