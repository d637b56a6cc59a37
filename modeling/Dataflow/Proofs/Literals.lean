import Dataflow.Proofs.Numbers
import Dataflow.Proofs.Parts

/-!
# Literals that read back

The text of a literal is read as that literal (`Literal.render_writtenAs`), unless it holds a character
that is written as its code point, which is not read, or is a number with a point that is written with an
exponent, which is not read either (`Literal.number?_write_iff`).
-/

namespace Dataflow

namespace Text

/-! ## Texts without brackets -/

/-- Neither a quote nor a bracket. -/
def isPlain (c : Char) : Bool := !"\"'()[]".toList.contains c

theorem pieces_of_plain {t : List Char} (ht : ∀ c ∈ t, isPlain c = true) (before : Option Char) :
    piecesFrom (.outside before) t = ⟨t.map .char, false⟩ := by
  induction t generalizing before with
  | nil => rfl
  | cons c t ih =>
    have hc := ht c (by simp)
    have hopens : opensQuote before c = false := by
      simp only [isPlain, String.toList, Bool.not_eq_true', List.contains_eq_mem, decide_eq_false_iff_not] at hc
      have hquote : c ≠ '"' ∧ c ≠ '\'' := ⟨fun h => hc (by subst h; decide), fun h => hc (by subst h; decide)⟩
      simp [opensQuote, hquote]
    rw [piecesFrom, hopens]
    simp [ih fun c hc => ht c (by simp [hc])]

/-- Characters that are no brackets and are not taken for quotes. -/
theorem closed_of_chars {sep : Char → Bool} {t : List Char} (hpieces : pieces t = ⟨t.map .char, false⟩)
    (ht : ∀ c ∈ t, c ∉ ['(', '[', ')', ']'] ∧ sep c = false) : Closed sep t := by
  have hquotes : (pieces t).unclosed = false := by rw [hpieces]
  have hchars := pieceChars_pieces hquotes
  refine ⟨hquotes, depth_of_not_mem 0 fun c hc => ?_, depth_of_not_mem 0 fun c hc => ?_⟩
  · rw [hchars] at hc
    obtain ⟨hbracket, hsep⟩ := ht c hc
    simp only [List.mem_cons, List.not_mem_nil, or_false, not_or] at hbracket
    simp [hbracket, hsep]
  · rw [hchars] at hc
    have hbracket := (ht c hc).1
    simp only [List.mem_cons, List.not_mem_nil, or_false, not_or] at hbracket
    simp [hbracket]

theorem closed_of_plain {sep : Char → Bool} {t : List Char} (ht : t.all (fun c => isPlain c && !sep c) = true) :
    Closed sep t := by
  simp only [List.all_eq_true, Bool.and_eq_true, Bool.not_eq_true'] at ht
  refine closed_of_chars (pieces_of_plain (fun c hc => (ht c hc).1) none) fun c hc => ⟨?_, (ht c hc).2⟩
  have hplain := (ht c hc).1
  intro hmem
  simp only [List.mem_cons, List.not_mem_nil, or_false] at hmem
  rcases hmem with rfl | rfl | rfl | rfl <;> revert hplain <;> decide

end Text

/-! ## Numbers -/

namespace Literal

/-- The characters that numbers are written with. -/
def isNumeric (c : Char) : Bool := Decimal.isDigit c || c = '.' || c = '-'

theorem natural?_numeric {cs : List Char} {n : Nat} (h : Decimal.natural? cs = some n) :
    cs ≠ [] ∧ ∀ c ∈ cs, isNumeric c = true := by
  obtain ⟨⟨hne, hall⟩, _⟩ := Decimal.natural?_eq_some.1 h
  exact ⟨hne, fun c hc => by simp [isNumeric, hall c hc]⟩

theorem point?_numeric {cs : List Char} {x : Float} (h : point? cs = some x) :
    cs ≠ [] ∧ ∀ c ∈ cs, isNumeric c = true := by
  unfold point? at h
  split at h
  · rename_i whole fraction hsplit
    split at h
    · rename_i n k hwhole hfraction
      rw [(Text.splitOnce_eq_some.1 hsplit).1]
      refine ⟨by simp, fun c hc => ?_⟩
      simp only [List.mem_append, List.mem_singleton] at hc
      rcases hc with hc | rfl | hc
      · exact (natural?_numeric hwhole).2 c hc
      · decide
      · exact (natural?_numeric hfraction).2 c hc
    · cases h
  · cases h

theorem number?_ok {cs : List Char} {l : Literal} (h : number? cs = some l) :
    cs ≠ [] ∧ ∀ c ∈ cs, isNumeric c = true := by
  unfold number? at h
  split at h
  rename_i minus ds hsplit
  have hdigits : ds ≠ [] ∧ ∀ c ∈ ds, isNumeric c = true := by
    split at h
    · rename_i n hn
      exact natural?_numeric hn
    · obtain ⟨x, hx, _⟩ := Option.map_eq_some_iff.1 h
      exact point?_numeric hx
  split at hsplit
  · cases hsplit
    exact ⟨by simp, List.forall_mem_cons.2 ⟨by decide, hdigits.2⟩⟩
  · cases hsplit
    exact hdigits

theorem isNumeric_facts {c : Char} (h : isNumeric c = true) :
    Text.isPlain c = true ∧ Text.isBlank c = false ∧ c ∉ ['T', 'F', '(', '$', '!', '\'', '"'] := by
  have hcases : c = '.' ∨ c = '-' ∨ 48 ≤ c.toNat ∧ c.toNat ≤ 57 := by
    simp only [isNumeric, Decimal.isDigit, Bool.or_eq_true, Bool.and_eq_true, decide_eq_true_eq] at h
    tauto
  rcases hcases with rfl | rfl | ⟨hlow, hhigh⟩
  · decide
  · decide
  · obtain ⟨n, hn, rfl⟩ : ∃ n ∈ List.range 10, c = Char.ofNat (48 + n) :=
      ⟨c.toNat - 48, by simp; omega, by rw [Nat.add_sub_cancel' hlow, Char.ofNat_toNat]⟩
    revert n
    decide

theorem number?_trim {cs : List Char} {l : Literal} (h : number? cs = some l) : Text.trimBlank cs = cs := by
  have hall := (number?_ok h).2
  exact Text.trimBlank_eq_self (fun c hc => (isNumeric_facts (hall c (List.mem_of_mem_head? hc))).2.1)
    fun c hc => (isNumeric_facts (hall c (List.mem_of_mem_getLast? hc))).2.1

theorem number?_eq_none {cs : List Char} {c : Char} (hc : c ∈ cs) (h : isNumeric c = false) : number? cs = none := by
  rw [Option.eq_none_iff_forall_not_mem]
  intro l hl
  have hnumeric := (number?_ok hl).2 c hc
  rw [h] at hnumeric
  cases hnumeric

/-! ## Reading -/

/-- What is none of the literals that are words. -/
theorem read?_of_ne {cs : List Char} (h : cs ∉ ["()".toList, "True".toList, "False".toList]) : read? cs =
    match (number? cs).or (negative? cs) with
    | some number => .ok (some number)
    | none =>
      match quoted? '\'' cs, quoted? '"' cs with
      | some (.error e), _ => .error e
      | some (.ok [c]), _ => .ok (some (.char c))
      | some (.ok _), _ =>
        .error (ReadError.within { message := "character literal must hold one character" } (String.ofList cs))
      | none, some (.error e) => .error e
      | none, some (.ok inside) => .ok (some (.text (String.ofList inside)))
      | none, none => .ok none := by
  have hne : ∀ s : String, String.ofList cs = s → cs = s.toList := by
    rintro s rfl
    simp
  unfold read?
  split
  · rename_i heq
    exact absurd (hne _ heq) (fun heq => h (by simp [heq]))
  · rename_i heq
    exact absurd (hne _ heq) (fun heq => h (by simp [heq]))
  · rename_i heq
    exact absurd (hne _ heq) (fun heq => h (by simp [heq]))
  · rfl

theorem not_word_of_head {cs : List Char} {c : Char} (hc : cs.head? = some c) (h : c ≠ '(' ∧ c ≠ 'T' ∧ c ≠ 'F') :
    cs ∉ ["()".toList, "True".toList, "False".toList] := by
  simp only [List.mem_cons, List.not_mem_nil, or_false]
  rintro (rfl | rfl | rfl) <;> simp at hc <;> simp [← hc] at h

theorem not_word_of_enclosed {t : List Char} (ht : t ≠ []) :
    '(' :: t ++ [')'] ∉ ["()".toList, "True".toList, "False".toList] := by
  simp [ht]

theorem read?_number {cs : List Char} {l : Literal} (h : number? cs = some l) : read? cs = .ok (some l) := by
  obtain ⟨hne, hall⟩ := number?_ok h
  obtain ⟨c, t, rfl⟩ := List.exists_cons_of_ne_nil hne
  have hfacts := (isNumeric_facts (hall c (by simp))).2.2
  simp only [List.mem_cons, not_or] at hfacts
  rw [read?_of_ne (not_word_of_head rfl ⟨hfacts.2.2.1, hfacts.1, hfacts.2.1⟩), h]
  rfl

theorem unwrap?_enclose (first last : Char) (t : List Char) : Text.unwrap? first last (first :: t ++ [last]) = some t := by
  simp [Text.unwrap?]

theorem unwrap?_ok {first last : Char} {cs inner : List Char} (h : Text.unwrap? first last cs = some inner) :
    cs = first :: inner ++ [last] := by
  unfold Text.unwrap? at h
  split at h
  · rename_i c rest
    split at h
    · rename_i hfirst
      split at h
      · rename_i c' hc'
        split at h
        · rename_i hlast
          cases h
          rw [hfirst, ← hlast, List.cons_append, List.dropLast_append_getLast? c' hc']
        · cases h
      · cases h
    · cases h
  · cases h

theorem unwrap?_eq_none {first last : Char} {cs : List Char} (h : cs.head? ≠ some first) :
    Text.unwrap? first last cs = none := by
  rw [Option.eq_none_iff_forall_not_mem]
  intro inner hinner
  exact h (by rw [unwrap?_ok hinner]; rfl)

/-- In parentheses only numbers below zero are literals. -/
theorem read?_parenthesized {t : List Char} (hne : t ≠ []) :
    read? ('(' :: t ++ [')']) = .ok ((number? (Text.trimBlank t)).filter isNegative) := by
  have hnumber : number? ('(' :: t ++ [')']) = none := number?_eq_none (c := '(') (by simp) (by decide)
  have hnegative : negative? ('(' :: t ++ [')']) = (number? (Text.trimBlank t)).filter isNegative := by
    rw [negative?, unwrap?_enclose]
  have hquoted : ∀ q, q ≠ '(' → quoted? q ('(' :: t ++ [')']) = none := by
    intro q hq
    rw [quoted?, unwrap?_eq_none (by simpa using fun h => hq h.symm)]
    rfl
  rw [read?_of_ne (not_word_of_enclosed hne), hnumber, hnegative, hquoted _ (by decide), hquoted _ (by decide)]
  cases (number? (Text.trimBlank t)).filter isNegative <;> rfl

theorem read?_enclosed {t : List Char} (hne : t ≠ []) (htrim : Text.trimBlank t = t) :
    read? ('(' :: t ++ [')']) = .ok ((number? t).filter isNegative) := by
  rw [read?_parenthesized hne, htrim]

/-! ## Quotes -/

/-- A character that is not written as its code point. -/
def isSpelled (c : Char) : Bool :=
  ['\x00', '\t', '\r', '\n'].contains c || (Text.isPrintable c && !Text.isGraphemeExtend c)

/-- What a character in quotes is written as: itself, or an escape of one character. -/
theorem quoteChar_spelled {quote c : Char} (hc : isSpelled c = true) (hquote : quote = '\'' ∨ quote = '"') :
    (Text.quoteChar quote c = [c] ∧ c ≠ '\\' ∧ c ≠ quote) ∨
      ∃ e, Text.quoteChar quote c = ['\\', e] ∧ ∀ rest, unescape ('\\' :: e :: rest) =
        match unescape rest with
        | .ok inside => .ok (c :: inside)
        | .error err => .error err := by
  unfold Text.quoteChar
  split
  · rename_i h
    exact Or.inr ⟨'0', rfl, fun rest => by rw [h]; rfl⟩
  split
  · rename_i h
    exact Or.inr ⟨'t', rfl, fun rest => by rw [h]; rfl⟩
  split
  · rename_i h
    exact Or.inr ⟨'r', rfl, fun rest => by rw [h]; rfl⟩
  split
  · rename_i h
    exact Or.inr ⟨'n', rfl, fun rest => by rw [h]; rfl⟩
  split
  · rename_i h
    simp only [Bool.or_eq_true, decide_eq_true_eq] at h
    refine Or.inr ⟨c, rfl, fun rest => ?_⟩
    rcases h with rfl | rfl
    · rfl
    · rcases hquote with rfl | rfl <;> rfl
  split
  · rename_i hescape _
    simp only [Bool.or_eq_true, decide_eq_true_eq, not_or] at hescape
    exact Or.inl ⟨rfl, hescape.1, hescape.2⟩
  · rename_i h₁ h₂ h₃ h₄ _ h
    simp [isSpelled, h₁, h₂, h₃, h₄] at hc
    simp [hc] at h

theorem unescape_quoteBody {quote : Char} (hquote : quote = '\'' ∨ quote = '"') {cs : List Char}
    (hcs : ∀ c ∈ cs, isSpelled c = true) : unescape (Text.quoteBody quote cs) = .ok cs := by
  induction cs with
  | nil => rfl
  | cons c cs ih =>
    have hrest := ih fun c hc => hcs c (by simp [hc])
    rw [Text.quoteBody, List.flatMap_cons, ← Text.quoteBody]
    rcases quoteChar_spelled (hcs c (by simp)) hquote with ⟨heq, hescape, _⟩ | ⟨e, heq, hread⟩
    · rw [heq, List.singleton_append, unescape, hrest]
      all_goals simp [hescape]
    · rw [heq, List.cons_append, List.singleton_append, hread, hrest]

/-- The body of a literal does not end it. -/
theorem sealed_quoteBody {quote : Char} (hquote : quote = '\'' ∨ quote = '"') {cs : List Char}
    (hcs : ∀ c ∈ cs, isSpelled c = true) : Text.Sealed quote (Text.quoteBody quote cs) := by
  induction cs with
  | nil => exact .nil
  | cons c cs ih =>
    have hrest := ih fun c hc => hcs c (by simp [hc])
    rw [Text.quoteBody, List.flatMap_cons, ← Text.quoteBody]
    rcases quoteChar_spelled (hcs c (by simp)) hquote with ⟨heq, hescape, hend⟩ | ⟨e, heq, _⟩
    · rw [heq]
      exact (Text.Sealed.char hend hescape).append hrest
    · have hbackslash : quote ≠ '\\' := by rcases hquote with rfl | rfl <;> decide
      rw [heq]
      exact (Text.Sealed.escape hbackslash e).append hrest

theorem quoted_closed {quote : Char} (hquote : quote = '\'' ∨ quote = '"') {sep : Char → Bool} {cs : List Char}
    (hcs : ∀ c ∈ cs, isSpelled c = true) : Text.Closed sep (quote :: Text.quoteBody quote cs ++ [quote]) := by
  have hopens : Text.opensQuote none quote = true := by rcases hquote with rfl | rfl <;> decide
  have hpieces : Text.pieces (quote :: Text.quoteBody quote cs ++ [quote]) =
      ⟨[.quoted quote (Text.quoteBody quote cs)], false⟩ :=
    (Text.Pieced.quoted hopens (sealed_quoteBody hquote hcs) .nil).piecesFrom_eq
  refine ⟨by rw [hpieces], ?_, ?_⟩ <;> rw [hpieces] <;> rfl

/-! ## Literals -/

/-- A literal whose text is read. A number with a point is one in the range that is written without an exponent
(`number?_write_iff`); the others are, unless they hold a character that is written as its code point. -/
def Legible : Literal → Prop
  | .float x => Decimal.IsPlain x
  | .char c => isSpelled c = true
  | .text s => ∀ c ∈ s.toList, isSpelled c = true
  | .int _ | .bool _ | .unit => True

/-- A text that begins with a digit has no minus in front. -/
theorem number?_unsigned {whole : List Char} (hwhole : whole ≠ [] ∧ ∀ c ∈ whole, Decimal.isDigit c = true)
    (rest : List Char) : number? (whole ++ rest) = match Decimal.natural? (whole ++ rest) with
      | some n => int? n
      | none => (point? (whole ++ rest)).map .float := by
  unfold number?
  split
  rename_i minus ds hsplit
  split at hsplit
  · next heq =>
    obtain ⟨c, whole, rfl⟩ := List.exists_cons_of_ne_nil hwhole.1
    cases heq
    exact absurd (hwhole.2 '-' (by simp)) (by decide)
  · cases hsplit
    rfl

theorem number?_digits (n : Nat) : number? (Nat.toDigits 10 n) = int? n := by
  have hnatural := Decimal.natural?_toDigits n
  have hunsigned := number?_unsigned (Decimal.natural?_eq_some.1 hnatural).1 []
  rwa [List.append_nil, hnatural] at hunsigned

theorem number?_minus (n : Nat) : number? ('-' :: Nat.toDigits 10 n) = int? (-(n : Int)) := by
  unfold number?
  simp only [Decimal.natural?_toDigits]
  rfl

theorem number?_int (n : Int64) : number? (render (.int n)).toList = some (.int n) := by
  have hlow := n.le_toInt
  have hhigh := n.toInt_lt
  have hint : int? n.toInt = some (.int n) := by
    rw [int?, if_pos (by simp; omega), Int64.ofInt_toInt]
  rw [render, Int.toString_eq_repr, Int.repr_eq_if]
  split
  · rename_i hsign
    rw [Nat.toList_repr, number?_digits, Int.toNat_of_nonneg hsign, hint]
  · rename_i hsign
    have htext : ("-" ++ (-n.toInt).toNat.repr).toList = '-' :: Nat.toDigits 10 (-n.toInt).toNat := by
      simp [Nat.toList_repr]
    rw [htext, number?_minus, Int.toNat_of_nonneg (by omega), Int.neg_neg, hint]

/-- Digits around a point are read as the value nearest to them. -/
theorem number?_decimal {whole fraction : List Char} (hwhole : whole ≠ [] ∧ ∀ c ∈ whole, Decimal.isDigit c = true)
    (hfraction : fraction ≠ [] ∧ ∀ c ∈ fraction, Decimal.isDigit c = true) {x : Float}
    (hx : Decimal.nearest (Decimal.naturalOf (whole ++ fraction)) (-(fraction.length : Int)) = x) :
    number? (whole ++ '.' :: fraction) = some (.float x) ∧
      number? ('-' :: (whole ++ '.' :: fraction)) = some (.float (-x)) := by
  have hnatural : Decimal.natural? (whole ++ '.' :: fraction) = none := by
    rw [Option.eq_none_iff_forall_ne_some]
    intro n hn
    exact absurd ((Decimal.natural?_eq_some.1 hn).1.2 '.' (by simp)) (by decide)
  have hdot : '.' ∉ whole := fun h => absurd (hwhole.2 _ h) (by decide)
  have hsplit : Text.splitOnce ['.'] (whole ++ '.' :: fraction) = some (whole, fraction) :=
    Text.splitOnce_eq_some.2 ⟨rfl, .of_notMem hdot⟩
  have hpoint : point? (whole ++ '.' :: fraction) = some x := by
    rw [point?, hsplit]
    dsimp only
    rw [Decimal.natural?_eq_some.2 ⟨hwhole, rfl⟩, Decimal.natural?_eq_some.2 ⟨hfraction, rfl⟩]
    dsimp only
    rw [hx]
  constructor
  · rw [number?_unsigned hwhole, hnatural, hpoint]
    rfl
  · rw [number?, hnatural, hpoint]
    rfl

theorem number_range (q : ℚ) :
    10 ^ number.plainFrom ≤ q ∧ q < 10 ^ number.plainBelow ↔ 1 / 10 ^ 4 ≤ q ∧ q < 10 ^ 16 := by
  norm_num [number]

theorem number?_write {x : Float} (h : Decimal.IsPlain x) : number? (number.write x).toList = some (.float x) := by
  obtain hzero | ⟨hlow, hhigh⟩ := h
  · have hread := number?_decimal Decimal.single_zero Decimal.single_zero rfl
    obtain rfl | rfl := Decimal.zero_of_magnitude (Decimal.magnitude_eq_zero.1 hzero)
    · rw [show number.write 0.0 = "0.0" by decide +kernel]
      exact hread.1
    · rw [show number.write (-0.0) = "-0.0" by decide +kernel]
      exact hread.2
  · have hx := Decimal.normal_of_rounds (Decimal.Binary.rounds_value _) hlow hhigh
    obtain ⟨d, hd⟩ : ∃ d, d = (Decimal.Binary.ofBits (Decimal.magnitudeBits x)).shortest number.tie := ⟨_, rfl⟩
    have hrounds := hd ▸ Decimal.Binary.rounds_shortest hx.pos number.tie
    obtain ⟨whole, fraction, htext, hwhole, hfraction, hvalue⟩ := Decimal.positional_eq d
    have hread := number?_decimal hwhole hfraction
      (Decimal.nearest_eq hx (List.length_pos_iff.2 hfraction.1) (hvalue ▸ hrounds))
    have hrange := (number_range d.value).2 ((Decimal.plain_iff hx.pos _ hd).2 ⟨hlow, hhigh⟩)
    rw [number.write_normal hx, ← hd, number.layout_positional (hrounds.digits_ne_zero hx.pos) hrange, htext]
    rw [hx.neg_toFloat] at hread
    have hsign := Decimal.eq_toFloat hx
    split at hsign
    · next hpositive =>
      rw [if_pos hpositive, hsign]
      exact hread.1
    · next hnegative =>
      rw [if_neg hnegative, hsign]
      exact hread.2

/-- Beyond the range a letter is written, of an exponent or of a word. -/
theorem mem_write_of_not_plain {x : Float} (h : ¬ Decimal.IsPlain x) :
    ∃ c ∈ (number.write x).toList, isNumeric c = false := by
  rw [Decimal.IsPlain, not_or] at h
  unfold Decimal.Style.write
  split
  · exact ⟨'N', by decide, by decide⟩
  · extract_lets bits magnitude sign body
    rw [String.toList_ofList]
    suffices hbody : ∃ c ∈ body, isNumeric c = false by
      obtain ⟨c, hc, hnumeric⟩ := hbody
      exact ⟨c, List.mem_append_right sign hc, hnumeric⟩
    unfold body
    split
    · exact ⟨'i', by decide, by decide⟩
    · have hmagnitude : magnitude ≠ 0 := fun hzero => h.1 (Decimal.magnitude_eq_zero.2 hzero)
      rw [if_neg hmagnitude]
      have hpos := Nat.pos_of_ne_zero (mt Decimal.mant_eq_zero.1 hmagnitude)
      have hrounds := Decimal.Binary.rounds_shortest hpos number.tie
      have hrange := mt (number_range _).1 (mt (Decimal.plain_iff hpos number.tie rfl).1 h.2)
      change ∃ c ∈ number.layout ((Decimal.Binary.ofBits (Decimal.magnitudeBits x)).shortest number.tie), _
      rw [number.layout_scientific (hrounds.digits_ne_zero hpos) hrange]
      exact ⟨'e', by simp [Decimal.scientific], by decide⟩

/-- **A number is read from its text if and only if it is written without an exponent.** -/
theorem number?_write_iff (x : Float) : number? (number.write x).toList = some (.float x) ↔ Decimal.IsPlain x := by
  refine ⟨fun h => ?_, number?_write⟩
  by_contra hplain
  obtain ⟨c, hc, hnumeric⟩ := mem_write_of_not_plain hplain
  rw [number?_eq_none hc hnumeric] at h
  cases h

example : number.write 0.0001 = "0.0001" ∧ number.write 0.00009 = "9e-5" ∧ number.write 1e16 = "1e16" := by
  decide +kernel

/-- A text in quotes is no number and no word. -/
theorem read?_quote {quote : Char} (hquote : quote = '\'' ∨ quote = '"') (t : List Char) :
    number? (quote :: t) = none ∧ negative? (quote :: t) = none ∧
      quote :: t ∉ ["()".toList, "True".toList, "False".toList] := by
  refine ⟨number?_eq_none (c := quote) (by simp) (by rcases hquote with rfl | rfl <;> decide), ?_,
    not_word_of_head rfl (by rcases hquote with rfl | rfl <;> decide)⟩
  rw [negative?, unwrap?_eq_none (by rcases hquote with rfl | rfl <;> simp)]

theorem read?_char {c : Char} (hc : isSpelled c = true) :
    read? ('\'' :: Text.quoteBody '\'' [c] ++ ['\'']) = .ok (some (.char c)) := by
  obtain ⟨hnumber, hnegative, hword⟩ := read?_quote (Or.inl rfl) (Text.quoteBody '\'' [c] ++ ['\''])
  have hquoted : quoted? '\'' ('\'' :: Text.quoteBody '\'' [c] ++ ['\'']) = some (.ok [c]) := by
    rw [quoted?, unwrap?_enclose, Option.map_some, unescape_quoteBody (Or.inl rfl) (by simpa using hc)]
  rw [List.cons_append] at hquoted ⊢
  rw [read?_of_ne hword, hnumber, hnegative, hquoted]
  rfl

theorem read?_text {cs : List Char} (hcs : ∀ c ∈ cs, isSpelled c = true) :
    read? ('"' :: Text.quoteBody '"' cs ++ ['"']) = .ok (some (.text (String.ofList cs))) := by
  obtain ⟨hnumber, hnegative, hword⟩ := read?_quote (Or.inr rfl) (Text.quoteBody '"' cs ++ ['"'])
  have hother : quoted? '\'' ('"' :: Text.quoteBody '"' cs ++ ['"']) = none := by
    rw [quoted?, unwrap?_eq_none (by simp)]
    rfl
  have hquoted : quoted? '"' ('"' :: Text.quoteBody '"' cs ++ ['"']) = some (.ok cs) := by
    rw [quoted?, unwrap?_enclose, Option.map_some, unescape_quoteBody (Or.inr rfl) hcs]
  rw [List.cons_append] at hother hquoted ⊢
  rw [read?_of_ne hword, hnumber, hnegative, hother, hquoted]
  rfl

/-- A text that is read as the literal, wherever a term may stand. -/
structure WrittenAs (l : Literal) (t : List Char) : Prop where
  read : read? t = .ok (some l)
  closed : Text.Closed Text.isBlank t
  trimmed : Text.trimBlank t = t
  nonempty : t ≠ []
  plain : t.head? ≠ some '$' ∧ t.head? ≠ some '!'

theorem closed_of_number {sep : Char → Bool} (hsep : ∀ c, isNumeric c = true → sep c = false) {l : Literal}
    {t : List Char} (h : number? t = some l) : Text.Closed sep t := by
  refine Text.closed_of_plain (List.all_eq_true.2 fun c hc => ?_)
  have hnumeric := (number?_ok h).2 c hc
  rw [(isNumeric_facts hnumeric).1, hsep c hnumeric]
  rfl

theorem writtenAs_number {l : Literal} {t : List Char} (h : number? t = some l) : l.WrittenAs t := by
  obtain ⟨hne, hall⟩ := number?_ok h
  refine ⟨read?_number h, closed_of_number (fun c hc => (isNumeric_facts hc).2.1) h, number?_trim h, hne, ?_, ?_⟩
  · exact fun hhead => absurd (hall '$' (List.mem_of_mem_head? hhead)) (by decide)
  · exact fun hhead => absurd (hall '!' (List.mem_of_mem_head? hhead)) (by decide)

/-- A number below zero may stand in parentheses. -/
theorem writtenAs_enclosed {l : Literal} {t : List Char} (h : number? t = some l) (hl : l.isNegative = true) :
    l.WrittenAs ('(' :: t ++ [')']) := by
  refine ⟨?_, (writtenAs_number h).closed.enclose, Text.trimBlank_between (by decide) (by decide) t, by simp, by simp⟩
  rw [read?_enclosed (number?_ok h).1 (number?_trim h), h, Option.filter_some, if_pos hl]

theorem number?_of_negative {l : Literal} (h : l.Legible) (hl : l.isNegative = true) : number? l.render.toList = some l := by
  cases l with
  | int n => exact number?_int n
  | float x => exact (number?_write_iff x).2 h
  | char | bool | text | unit => cases hl

theorem writtenAs_quoted {l : Literal} {quote : Char} (hquote : quote = '\'' ∨ quote = '"') {cs : List Char}
    (hcs : ∀ c ∈ cs, isSpelled c = true)
    (hread : read? (quote :: Text.quoteBody quote cs ++ [quote]) = .ok (some l)) :
    l.WrittenAs (quote :: Text.quoteBody quote cs ++ [quote]) := by
  have hblank : Text.isBlank quote = false := by rcases hquote with rfl | rfl <;> decide
  refine ⟨hread, quoted_closed hquote hcs, Text.trimBlank_between hblank hblank _, by simp, ?_⟩
  rcases hquote with rfl | rfl <;> simp

theorem toList_render_char (c : Char) : (render (.char c)).toList = '\'' :: Text.quoteBody '\'' [c] ++ ['\''] := by
  simp [render, Text.quotedChar, Text.quoteBody]

theorem toList_render_text (s : String) : (render (.text s)).toList = '"' :: Text.quoteBody '"' s.toList ++ ['"'] := by
  simp [render, Text.quotedString]

/-- **Literals read back.** -/
theorem render_writtenAs {l : Literal} (h : l.Legible) : l.WrittenAs l.render.toList := by
  cases l with
  | int n => exact writtenAs_number (number?_int n)
  | float x => exact writtenAs_number ((number?_write_iff x).2 h)
  | bool b =>
    cases b with
    | true => exact ⟨rfl, Text.closed_of_plain (by decide), by decide, by decide, by decide⟩
    | false => exact ⟨rfl, Text.closed_of_plain (by decide), by decide, by decide, by decide⟩
  | unit =>
    have hclosed : Text.Closed Text.isBlank [] := .nil
    exact ⟨rfl, hclosed.enclose, by decide, by decide, by decide⟩
  | char c =>
    have hc : isSpelled c = true := h
    rw [toList_render_char]
    exact writtenAs_quoted (Or.inl rfl) (by simpa using hc) (read?_char hc)
  | text s =>
    have hread := read?_text h
    rw [String.ofList_toList] at hread
    rw [toList_render_text]
    exact writtenAs_quoted (Or.inr rfl) h hread

end Literal

end Dataflow
