import Dataflow.Proofs.Octets
import Dataflow.Render.Cpp
import Dataflow.Render.Haskell
import Mathlib.Data.List.TakeWhile
import Mathlib.Tactic.Common

/-!
# Text in the literals of the source

A literal in the source is read the way its language reads it: up to the first quote that is not
escaped, and escape by escape inside. A Haskell literal denotes the characters it was written for
(`Haskell.escape_denotes`). A C++ string literal denotes the octets of the characters in front of the
first NUL, since the string is made from an array that ends at its first NUL (`Cpp.literal_denotes`).
-/

namespace Dataflow

/-! ## Escaped characters -/

namespace Text

/-- A backslash escapes the next character, unless it is escaped itself. -/
def escapes (escaped : Bool) (c : Char) : Bool := !escaped && c = '\\'

/-- Whether the character behind a text is escaped. -/
def escapesNext (before : List Char) : Bool := before.foldl escapes false

/-- What comes before and behind the first quote that is not escaped. -/
def cutAtQuote (quote : Char) (escaped : Bool) : List Char → Option (List Char × List Char)
  | [] => none
  | c :: cs =>
    if c = quote ∧ escaped = false then some ([], cs)
    else (cutAtQuote quote (escapes escaped c) cs).map fun cut => (c :: cut.1, cut.2)

/-- May stand between quotes: every quote in it is escaped, and the quote behind it is not. -/
structure Sealed (quote : Char) (body : List Char) : Prop where
  quotes : ∀ before after, body = before ++ quote :: after → escapesNext before = true
  closed : escapesNext body = false

theorem escapesNext_append {before : List Char} (h : escapesNext before = false) (more : List Char) :
    escapesNext (before ++ more) = escapesNext more := by
  unfold escapesNext at h ⊢
  rw [List.foldl_append, h]

namespace Sealed

variable {quote c : Char} {body more : List Char}

theorem nil : Sealed quote [] := ⟨by simp, rfl⟩

theorem append (h : Sealed quote body) (h' : Sealed quote more) : Sealed quote (body ++ more) where
  quotes := by
    intro before after heq
    rcases List.append_eq_append_iff.1 heq with ⟨t, rfl, ht⟩ | ⟨t, hbody, ht⟩
    · rw [escapesNext_append h.closed]
      exact h'.quotes t after ht
    · cases t with
      | nil => exact absurd (h'.quotes [] after ht.symm) (by decide)
      | cons d t =>
        obtain ⟨rfl, -⟩ := List.cons.inj ht
        exact h.quotes before t hbody
  closed := by rw [escapesNext_append h.closed, h'.closed]

/-- A character that means itself. -/
theorem char (hquote : c ≠ quote) (hescape : c ≠ '\\') : Sealed quote [c] where
  quotes := by
    intro before after heq
    cases before with
    | nil => exact absurd (List.cons.inj heq).1 hquote
    | cons d before => simp at heq
  closed := by simp [escapesNext, escapes, hescape]

/-- An escape of one character. -/
theorem escape (hquote : quote ≠ '\\') (c : Char) : Sealed quote ['\\', c] where
  quotes := by
    intro before after heq
    cases before with
    | nil => exact absurd (List.cons.inj heq).1.symm hquote
    | cons d before =>
      obtain ⟨rfl, heq⟩ := List.cons.inj heq
      cases before with
      | nil => rfl
      | cons e before => simp at heq
  closed := by simp [escapesNext, escapes]

theorem word : ∀ cs : List Char, (∀ c ∈ cs, c ≠ quote ∧ c ≠ '\\') → Sealed quote cs
  | [], _ => nil
  | c :: cs, h =>
    have hc := h c List.mem_cons_self
    (char hc.1 hc.2).append (word cs fun d hd => h d (List.mem_cons_of_mem c hd))

theorem flatMap {α : Type} {f : α → List Char} (h : ∀ a, Sealed quote (f a)) :
    ∀ as : List α, Sealed quote (as.flatMap f)
  | [] => nil
  | a :: as => by
    rw [List.flatMap_cons]
    exact (h a).append (flatMap h as)

end Sealed

theorem cutAtQuote_append {quote : Char} (rest : List Char) : ∀ (body : List Char) (escaped : Bool),
    (∀ before after, body = before ++ quote :: after → before.foldl escapes escaped = true) →
    body.foldl escapes escaped = false →
    cutAtQuote quote escaped (body ++ quote :: rest) = some (body, rest)
  | [], escaped, _, hclosed => by
    have hescaped : escaped = false := hclosed
    simp [cutAtQuote, hescaped]
  | c :: body, escaped, hquotes, hclosed => by
    have hc : ¬ (c = quote ∧ escaped = false) := by
      rintro ⟨rfl, rfl⟩
      exact absurd (hquotes [] body rfl) (by decide)
    have ih := cutAtQuote_append rest body (escapes escaped c)
      (fun before after heq => hquotes (c :: before) after (by rw [heq, List.cons_append])) hclosed
    rw [List.cons_append, cutAtQuote, if_neg hc, ih, Option.map_some]

/-- Reading stops at the quote behind a sealed text. -/
theorem Sealed.cutAtQuote {quote : Char} {body : List Char} (h : Sealed quote body) (rest : List Char) :
    cutAtQuote quote false (body ++ quote :: rest) = some (body, rest) :=
  cutAtQuote_append rest body false h.quotes h.closed

theorem cutAtQuote_eq_some {quote : Char} : ∀ {cs body rest : List Char} {escaped : Bool},
    cutAtQuote quote escaped cs = some (body, rest) → cs = body ++ quote :: rest ∧
      (∀ before after, body = before ++ quote :: after → before.foldl escapes escaped = true) ∧
      body.foldl escapes escaped = false
  | [], _, _, _, h => by cases h
  | c :: cs, body, rest, escaped, h => by
    rw [cutAtQuote] at h
    split at h
    · rename_i hc
      cases h
      exact ⟨by rw [hc.1, List.nil_append], by simp, hc.2⟩
    · rename_i hc
      obtain ⟨⟨body, rest⟩, hcut, heq⟩ := Option.map_eq_some_iff.1 h
      cases heq
      obtain ⟨rfl, hquotes, hclosed⟩ := cutAtQuote_eq_some hcut
      refine ⟨rfl, fun before after heq => ?_, hclosed⟩
      cases before with
      | nil =>
        obtain ⟨rfl, -⟩ := List.cons.inj heq
        simpa using hc
      | cons d before =>
        obtain ⟨rfl, htail⟩ := List.cons.inj heq
        exact hquotes before after htail

/-- What comes before the first quote that is not escaped is sealed. -/
theorem sealed_of_cutAtQuote {quote : Char} {cs body rest : List Char} (h : cutAtQuote quote false cs = some (body, rest)) :
    cs = body ++ quote :: rest ∧ Sealed quote body :=
  have hcut := cutAtQuote_eq_some h
  ⟨hcut.1, hcut.2.1, hcut.2.2⟩

/-! ## Octets of a text -/

theorem ne_zero_of_mem_utf8EncodeChar {c : Char} (hc : c ≠ '\x00') {b : UInt8}
    (hb : b ∈ String.utf8EncodeChar c) : b ≠ 0 := by
  have hpos : c.toNat ≠ 0 := fun h => hc (by rw [← Char.ofNat_toNat c, h])
  have hval : c.val.toNat = c.toNat := rfl
  rintro rfl
  have hzero : ∀ n, n % 256 ≠ 0 → (0 : UInt8) ≠ UInt8.ofNat n := by
    intro n hn h
    exact hn (by simpa using congrArg UInt8.toNat h.symm)
  simp only [String.utf8EncodeChar, hval] at hb
  split_ifs at hb <;> simp only [List.mem_cons, List.not_mem_nil, or_false] at hb
  · exact hzero _ (by omega) hb
  · rcases hb with hb | hb <;> exact hzero _ (by omega) hb
  · rcases hb with hb | hb | hb <;> exact hzero _ (by omega) hb
  · rcases hb with hb | hb | hb | hb <;> exact hzero _ (by omega) hb

end Text

/-! ## Haskell -/

namespace Haskell

/-- The character with a number in decimal digits. -/
def numbered? (digits : List Char) : Option Char :=
  if (Nat.ofDigitChars 10 digits 0).isValidChar then some (Char.ofNat (Nat.ofDigitChars 10 digits 0)) else none

/-- Escapes of one character, with the character they stand for. -/
def marks (quote : Char) : List (Char × Char) := [('\\', '\\'), ('n', '\n'), ('t', '\t'), (quote, quote)]

/-- What the inside of a literal between quotes denotes. A number goes on for as long as there are
digits, and `\&` stands for nothing. -/
def decode (quote : Char) : List Char → Option (List Char)
  | [] => some []
  | c :: rest =>
    if c ≠ '\\' then (decode quote rest).map (c :: ·)
    else
      match rest with
      | [] => none
      | d :: rest =>
        match (marks quote).lookup d with
        | some e => (decode quote rest).map (e :: ·)
        | none =>
          if d = '&' then decode quote rest
          else if d.isDigit then
            (numbered? (d :: rest.takeWhile Char.isDigit)).bind fun e =>
              (decode quote (rest.dropWhile Char.isDigit)).map (e :: ·)
          else none
termination_by cs => cs.length
decreasing_by
  all_goals simp only [List.length_cons]
  all_goals have := (List.dropWhile_sublist (l := rest) Char.isDigit).length_le
  all_goals omega

/-- What a literal between quotes denotes. -/
def quoted? (quote : Char) (text : List Char) : Option (List Char) :=
  (Text.dropStart? [quote] text).bind fun rest =>
    (Text.cutAtQuote quote false rest).bind fun cut =>
      if cut.2 = [] then decode quote cut.1 else none

variable {quote : Char}

theorem numbered?_toDigits (c : Char) : numbered? (Nat.toDigits 10 c.toNat) = some c := by
  have hvalid : c.toNat.isValidChar := c.valid
  rw [numbered?, Nat.ofDigitChars_ten_toDigits, if_pos hvalid, Char.ofNat_toNat]

/-- A literal goes on with a digit only where its text does. -/
theorem head?_escape {rest : List Char} (h : rest.head?.any Char.isDigit = false) :
    (escape quote rest).head?.any Char.isDigit = false := by
  cases rest with
  | nil => rfl
  | cons c rest =>
    rw [escape]
    -- every escape begins with a backslash, and any other character stands as it is
    split_ifs
    iterate 6 · rfl
    · exact h

theorem span_digits {ds rest : List Char} (hds : ∀ d ∈ ds, d.isDigit = true)
    (hrest : rest.head?.any Char.isDigit = false) :
    (ds ++ rest).takeWhile Char.isDigit = ds ∧ (ds ++ rest).dropWhile Char.isDigit = rest := by
  rw [List.takeWhile_append_of_pos hds, List.dropWhile_append_of_pos hds]
  cases rest with
  | nil => simp
  | cons e rest =>
    have he : e.isDigit = false := by simpa using hrest
    simp [he]

theorem decode_plain {c : Char} (hc : c ≠ '\\') (rest : List Char) :
    decode quote (c :: rest) = (decode quote rest).map (c :: ·) := by
  rw [decode.eq_def]
  exact if_pos hc

theorem decode_mark {d e : Char} (h : (marks quote).lookup d = some e) (rest : List Char) :
    decode quote ('\\' :: d :: rest) = (decode quote rest).map (e :: ·) := by
  rw [decode.eq_def]
  simp only [ne_eq, not_true_eq_false, if_false, h]

section

variable (hquote : quote = '\'' ∨ quote = '"')

include hquote

theorem ne_backslash : quote ≠ '\\' := by
  rcases hquote with rfl | rfl <;> decide

theorem ne_of_isDigit {d : Char} (hd : d.isDigit = true) : d ≠ quote ∧ d ≠ '\\' := by
  rcases hquote with rfl | rfl
  all_goals constructor <;> (rintro rfl; revert hd; decide)

theorem lookup_marks_quote : (marks quote).lookup quote = some quote := by
  rcases hquote with rfl | rfl <;> rfl

theorem decode_nothing (rest : List Char) : decode quote ('\\' :: '&' :: rest) = decode quote rest := by
  have hmark : (marks quote).lookup '&' = none := by
    rcases hquote with rfl | rfl <;> rfl
  rw [decode.eq_def]
  simp only [ne_eq, not_true_eq_false, if_false, hmark, if_true]

/-- The digits of a number end where no digit follows. -/
theorem decode_digits {d : Char} {ds rest : List Char} (hds : ∀ e ∈ d :: ds, e.isDigit = true)
    (hrest : rest.head?.any Char.isDigit = false) :
    decode quote ('\\' :: d :: (ds ++ rest)) =
      (numbered? (d :: ds)).bind fun e => (decode quote rest).map (e :: ·) := by
  have hd : d.isDigit = true := hds d List.mem_cons_self
  have hne : ∀ e : Char, e.isDigit = false → d ≠ e := by
    rintro e he rfl
    rw [hd] at he
    exact Bool.noConfusion he
  have hmark : (marks quote).lookup d = none := by
    simp only [List.lookup_eq_none_iff, marks, List.mem_cons, List.not_mem_nil, or_false, forall_eq_or_imp,
      forall_eq, bne_iff_ne]
    exact ⟨hne '\\' rfl, hne 'n' rfl, hne 't' rfl, (ne_of_isDigit hquote hd).1⟩
  obtain ⟨htake, hdrop⟩ := span_digits (fun e he => hds e (List.mem_cons_of_mem d he)) hrest
  rw [decode.eq_def]
  simp only [ne_eq, not_true_eq_false, if_false, hmark, if_neg (hne '&' rfl), if_pos hd, htake, hdrop]

theorem decode_number (c : Char) {rest : List Char} (hrest : rest.head?.any Char.isDigit = false) :
    decode quote ('\\' :: (Nat.toDigits 10 c.toNat ++ rest)) = (decode quote rest).map (c :: ·) := by
  have hdigits : ∀ e ∈ Nat.toDigits 10 c.toNat, e.isDigit = true :=
    fun e => Nat.isDigit_of_mem_toDigits (by decide) (by decide)
  cases h : Nat.toDigits 10 c.toNat with
  | nil => exact absurd h Nat.toDigits_ne_nil
  | cons d ds =>
    rw [h] at hdigits
    rw [List.cons_append, decode_digits hquote hdigits hrest, ← h, numbered?_toDigits, Option.bind_some]

theorem decode_escape : ∀ cs : List Char, decode quote (escape quote cs) = some cs
  | [] => by rw [escape, decode]
  | c :: rest => by
    have ih := decode_escape rest
    rw [escape]
    split_ifs with hbackslash hnewline htab hself _ hdigit
    · rw [decode_mark rfl, ih, Option.map_some, hbackslash]
    · rw [decode_mark rfl, ih, Option.map_some, hnewline]
    · rw [decode_mark rfl, ih, Option.map_some, htab]
    · rw [hself, decode_mark (lookup_marks_quote hquote), ih, Option.map_some]
    · -- what keeps the digit apart begins with no digit itself
      have happart : (['\\', '&'] ++ escape quote rest).head?.any Char.isDigit = false := rfl
      rw [List.cons_append, decode_number hquote c happart]
      exact congrArg _ ((decode_nothing hquote _).trans ih)
    · have hnext : rest.head?.any Char.isDigit = false := Bool.eq_false_iff.2 hdigit
      rw [List.cons_append, List.nil_append, decode_number hquote c (head?_escape hnext), ih, Option.map_some]
    · rw [decode_plain hbackslash, ih, Option.map_some]

theorem sealed_number (c : Char) : Text.Sealed quote ('\\' :: Nat.toDigits 10 c.toNat) := by
  have hdigits : ∀ e ∈ Nat.toDigits 10 c.toNat, e ≠ quote ∧ e ≠ '\\' := by
    intro e he
    have hdigit : e.isDigit = true := Nat.isDigit_of_mem_toDigits (by decide) (by decide) he
    exact ne_of_isDigit hquote hdigit
  cases h : Nat.toDigits 10 c.toNat with
  | nil => exact absurd h Nat.toDigits_ne_nil
  | cons d ds =>
    rw [h] at hdigits
    exact (Text.Sealed.escape (ne_backslash hquote) d).append
      (.word ds fun e he => hdigits e (List.mem_cons_of_mem d he))

theorem sealed_escape : ∀ cs : List Char, Text.Sealed quote (escape quote cs)
  | [] => .nil
  | c :: rest => by
    have ih := sealed_escape rest
    have hescape : ∀ d, Text.Sealed quote ('\\' :: d :: escape quote rest) :=
      fun d => (Text.Sealed.escape (ne_backslash hquote) d).append ih
    rw [escape]
    split_ifs with hbackslash _ _ hself
    · exact hescape '\\'
    · exact hescape 'n'
    · exact hescape 't'
    · exact hescape c
    · exact (sealed_number hquote c).append (hescape '&')
    · exact (sealed_number hquote c).append ih
    · exact (Text.Sealed.char hself hbackslash).append ih

theorem quoted?_escape (cs : List Char) : quoted? quote (quote :: (escape quote cs ++ [quote])) = some cs := by
  simp only [quoted?, Text.dropStart?, if_true, Option.bind_some, (sealed_escape hquote cs).cutAtQuote,
    decode_escape hquote]

end

/-- A literal has no quote inside that is not escaped, and denotes the text or the character that it is
written for. -/
theorem escape_denotes (s : String) (quote : Char) (hquote : quote = '\'' ∨ quote = '"') :
    (∀ before after, escape quote s.toList = before ++ quote :: after → Text.escapesNext before = true) ∧
      decode quote (escape quote s.toList) = some s.toList ∧
      quoted? '"' (literal (.text s)).toList = some s.toList ∧
      ∀ c, quoted? '\'' (literal (.char c)).toList = some [c] := by
  refine ⟨(sealed_escape hquote s.toList).quotes, decode_escape hquote s.toList, ?_, fun c => ?_⟩
  · simpa [literal] using quoted?_escape (.inr rfl) s.toList
  · simpa [literal] using quoted?_escape (.inl rfl) [c]

/-- A control character in front of a digit, both quotes, a backslash, and a control character at the end. -/
theorem escape_denotes_mixed :
    escape '"' "\x012'\"\\\x01".toList = "\\1\\&2'\\\"\\\\\\1".toList ∧
      decode '"' "\\1\\&2'\\\"\\\\\\1".toList = some "\x012'\"\\\x01".toList := by
  have hwritten : escape '"' "\x012'\"\\\x01".toList = "\\1\\&2'\\\"\\\\\\1".toList := by decide
  refine ⟨hwritten, ?_⟩
  rw [← hwritten]
  exact (escape_denotes "\x012'\"\\\x01" '"' (.inr rfl)).2.1

end Haskell

/-! ## C++ -/

namespace Cpp

/-- Escapes of one character, with their octets. -/
def simpleEscapes : List (Char × UInt8) :=
  [('\'', 39), ('"', 34), ('?', 63), ('\\', 92), ('a', 7), ('b', 8), ('f', 12), ('n', 10), ('r', 13),
    ('t', 9), ('v', 11)]

def isOctal (c : Char) : Bool := '0' ≤ c && c ≤ '7'

/-- The digits of an octal escape: as many as there are, up to three. -/
def octalDigits (cs : List Char) : List Char := (cs.take 3).takeWhile isOctal

/-- The octets that the inside of a string literal denotes. -/
def decode : List Char → Option (List UInt8)
  | [] => some []
  | c :: rest =>
    if c = '"' ∨ c = '\n' then none
    else if c ≠ '\\' then (decode rest).map (String.utf8EncodeChar c ++ ·)
    else if octalDigits rest ≠ [] then
      if Nat.ofDigitChars 8 (octalDigits rest) 0 < 256 then
        (decode (rest.drop (octalDigits rest).length)).map
          (UInt8.ofNat (Nat.ofDigitChars 8 (octalDigits rest) 0) :: ·)
      else none
    else
      match rest with
      | [] => none
      | d :: rest => (simpleEscapes.lookup d).bind fun b => (decode rest).map (b :: ·)
termination_by cs => cs.length

/-- A string made from an array of octets ends in front of the first NUL; the array has one behind the
octets of its literal. -/
def untilNul (bs : List UInt8) : List UInt8 := (bs ++ [0]).takeWhile (· ≠ 0)

/-- The octets of a string that is made from a literal. -/
def stringOctets? (text : List Char) : Option (List UInt8) :=
  (Text.dropStart? "std::string(\"".toList text).bind fun rest =>
    (Text.cutAtQuote '"' false rest).bind fun cut =>
      if cut.2 = [')'] then (decode cut.1).map untilNul else none

theorem decode_plain {c : Char} (hc : c ≠ '"' ∧ c ≠ '\n' ∧ c ≠ '\\') (rest : List Char) :
    decode (c :: rest) = (decode rest).map (String.utf8EncodeChar c ++ ·) := by
  rw [decode.eq_def]
  simp only [hc, or_self, if_false, ne_eq, not_false_eq_true, if_true]

theorem decode_simple {d : Char} {b : UInt8} (hd : isOctal d = false) (hb : simpleEscapes.lookup d = some b)
    (rest : List Char) : decode ('\\' :: d :: rest) = (decode rest).map (b :: ·) := by
  have hnone : octalDigits (d :: rest) = [] := by
    rw [octalDigits, List.take_succ_cons, List.takeWhile_cons_of_neg (by simp [hd])]
  rw [decode.eq_def]
  simp only [hnone, hb, ne_eq, not_true_eq_false, if_false, Option.bind_some]
  rfl

theorem digitChar_octal : ∀ n < 8, isOctal (Nat.digitChar n) = true ∧ (Nat.digitChar n).toNat - '0'.toNat = n := by
  decide

/-- An octal escape of three digits ends there, whatever follows it. -/
theorem decode_octal (b : UInt8) (rest : List Char) :
    decode (octal b ++ rest) = (decode rest).map (b :: ·) := by
  have hb : b.toNat < 256 := b.toNat_lt
  have hhigh := digitChar_octal (b.toNat / 64) (by omega)
  have hmid := digitChar_octal (b.toNat / 8 % 8) (by omega)
  have hlow := digitChar_octal (b.toNat % 8) (by omega)
  have hdigits : octalDigits ((octal b).tail ++ rest) = (octal b).tail := by
    simp [octalDigits, octal, hhigh.1, hmid.1, hlow.1]
  have hvalue : Nat.ofDigitChars 8 (octal b).tail 0 = b.toNat := by
    simp only [octal, List.tail_cons, Nat.ofDigitChars_cons, hhigh.2, hmid.2, hlow.2, Nat.ofDigitChars_nil]
    omega
  have hoctal : octal b ++ rest = '\\' :: ((octal b).tail ++ rest) := rfl
  rw [hoctal, decode.eq_def]
  simp only [hdigits, hvalue, hb, if_true, UInt8.ofNat_toNat, List.drop_left]
  rfl

theorem decode_octals (bs : List UInt8) (rest : List Char) :
    decode (bs.flatMap octal ++ rest) = (decode rest).map (bs ++ ·) := by
  induction bs with
  | nil => simp
  | cons b bs ih =>
    rw [List.flatMap_cons, List.append_assoc, decode_octal, ih, Option.map_map]
    rfl

theorem decode_stringChar (c : Char) (rest : List Char) :
    decode (stringChar c ++ rest) = (decode rest).map (String.utf8EncodeChar c ++ ·) := by
  rw [stringChar]
  split_ifs with hbackslash hnewline htab hquote
  · rw [hbackslash]
    exact decode_simple rfl rfl rest
  · rw [hnewline]
    exact decode_simple rfl rfl rest
  · rw [htab]
    exact decode_simple rfl rfl rest
  · rw [hquote]
    exact decode_simple rfl rfl rest
  · exact decode_plain ⟨hquote, hnewline, hbackslash⟩ rest
  · rw [decode_octals, Text.encodeChar_eq_utf8EncodeChar]

theorem decode_stringChars (cs : List Char) :
    decode (cs.flatMap stringChar) = some (cs.flatMap String.utf8EncodeChar) := by
  induction cs with
  | nil => rw [List.flatMap_nil, decode, List.flatMap_nil]
  | cons c cs ih => rw [List.flatMap_cons, decode_stringChar, ih, Option.map_some, List.flatMap_cons]

theorem sealed_octal (b : UInt8) : Text.Sealed '"' (octal b) := by
  have hb : b.toNat < 256 := b.toNat_lt
  have hchar : ∀ n < 8, Text.Sealed '"' [Nat.digitChar n] := by
    intro n hn
    have hne : ∀ n < 8, Nat.digitChar n ≠ '"' ∧ Nat.digitChar n ≠ '\\' := by decide
    exact .char (hne n hn).1 (hne n hn).2
  exact (Text.Sealed.escape (by decide) _).append
    ((hchar (b.toNat / 8 % 8) (by omega)).append (hchar (b.toNat % 8) (by omega)))

theorem sealed_stringChar (c : Char) : Text.Sealed '"' (stringChar c) := by
  have hescape : ∀ d, Text.Sealed '"' ['\\', d] := Text.Sealed.escape (by decide)
  rw [stringChar]
  split_ifs with hbackslash _ _ hquote
  · exact hescape '\\'
  · exact hescape 'n'
  · exact hescape 't'
  · exact hescape '"'
  · exact .char hquote hbackslash
  · exact .flatMap sealed_octal _

/-- The string ends in front of the first NUL of its text. -/
theorem untilNul_octets (cs : List Char) :
    untilNul (cs.flatMap String.utf8EncodeChar) =
      (cs.takeWhile (· ≠ '\x00')).flatMap String.utf8EncodeChar := by
  induction cs with
  | nil => rfl
  | cons c cs ih =>
    unfold untilNul at ih ⊢
    rw [List.flatMap_cons, List.append_assoc]
    by_cases hc : c = '\x00'
    · subst hc
      rfl
    · have hoctets : ∀ b ∈ String.utf8EncodeChar c, decide (b ≠ 0) = true :=
        fun b hb => decide_eq_true (Text.ne_zero_of_mem_utf8EncodeChar hc hb)
      rw [List.takeWhile_append_of_pos hoctets, ih, List.takeWhile_cons_of_pos (by simp [hc]), List.flatMap_cons]

theorem stringOctets?_literal (s : String) :
    stringOctets? (literal (.text s)).toList =
      some ((s.toList.takeWhile (· ≠ '\x00')).flatMap String.utf8EncodeChar) := by
  have hsealed : Text.Sealed '"' (s.toList.flatMap stringChar) := .flatMap sealed_stringChar _
  have hwritten : (literal (.text s)).toList =
      "std::string(\"".toList ++ (s.toList.flatMap stringChar ++ '"' :: [')']) := by
    simp [literal, stringBody]
  rw [hwritten, stringOctets?, Text.dropStart?_eq_some.2 rfl, Option.bind_some, hsealed.cutAtQuote, Option.bind_some,
    if_pos rfl, decode_stringChars, Option.map_some, untilNul_octets]

/-- A string literal has no quote inside that is not escaped. It denotes the octets of its text up to the
first NUL, so it denotes its text just if there is no NUL in it. -/
theorem literal_denotes (s : String) :
    stringOctets? (literal (.text s)).toList =
        some (String.ofList (s.toList.takeWhile (· ≠ '\x00'))).toUTF8.data.toList ∧
      (stringOctets? (literal (.text s)).toList = some s.toUTF8.data.toList ↔ '\x00' ∉ s.toList) ∧
      ∀ before after, (stringBody s).toList = before ++ '"' :: after → Text.escapesNext before = true := by
  have hbefore := stringOctets?_literal s
  refine ⟨?_, ⟨?_, ?_⟩, ?_⟩
  · rw [hbefore, Text.toUTF8_octets, String.toList_ofList]
  · intro hall hnul
    rw [hbefore, Text.toUTF8_octets, Option.some.injEq] at hall
    -- the octet of a NUL is in the text and not in front of the first NUL
    have hzero : (0 : UInt8) ∈ s.toList.flatMap String.utf8EncodeChar :=
      List.mem_flatMap.2 ⟨'\x00', hnul, by decide⟩
    rw [← hall] at hzero
    obtain ⟨c, hc, hzero⟩ := List.mem_flatMap.1 hzero
    have hne : c ≠ '\x00' := by simpa using List.mem_takeWhile_imp hc
    exact Text.ne_zero_of_mem_utf8EncodeChar hne hzero rfl
  · intro hnul
    have hall : s.toList.takeWhile (· ≠ '\x00') = s.toList :=
      List.takeWhile_eq_self_iff.2 fun c hc => decide_eq_true (by rintro rfl; exact hnul hc)
    rw [hbefore, Text.toUTF8_octets, hall]
  · rw [stringBody, String.toList_ofList]
    exact (Text.Sealed.flatMap sealed_stringChar _).quotes

/-- A NUL ends the string, and what follows it is lost. -/
theorem literal_cut_at_nul :
    stringOctets? (literal (.text "a\x00b")).toList = some [97] ∧ "a\x00b".toUTF8.data.toList = [97, 0, 98] := by
  refine ⟨?_, ?_⟩
  · rw [stringOctets?_literal]
    decide
  · decide

end Cpp

end Dataflow
