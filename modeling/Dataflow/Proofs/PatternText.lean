import Dataflow.Eval.Run
import Dataflow.Proofs.Literals
import Mathlib.Data.List.Forall2

/-!
# Patterns and values that read back

Patterns are written with a blank behind every comma and with parentheses around numbers below zero,
values without either. One reader takes both (`Pattern.reads_back`): a text is read as the pattern
whether blanks stand around it or not (`Pattern.WrittenAs`), and the texts of the items of a tuple are
found again between the commas.
-/

namespace Dataflow

namespace Pattern

mutual

/-- A pattern of wildcards, constants with a property and tuples of two or more patterns. -/
def Built (q : Literal → Prop) : Pattern → Prop
  | .any => True
  | .value l => q l
  | .tuple ps => 2 ≤ ps.length ∧ AllBuilt q ps
termination_by structural p => p

def AllBuilt (q : Literal → Prop) : List Pattern → Prop
  | [] => True
  | p :: ps => Built q p ∧ AllBuilt q ps
termination_by structural ps => ps

end

mutual

/-- Whether a wildcard occurs in a pattern. -/
def hasWildcard : Pattern → Bool
  | .any => true
  | .value _ => false
  | .tuple ps => haveWildcards ps
termination_by structural p => p

def haveWildcards : List Pattern → Bool
  | [] => false
  | p :: ps => hasWildcard p || haveWildcards ps
termination_by structural ps => ps

end

/-! ## Texts that are read as a pattern -/

/-- A text that is read as the pattern, with blanks around it or without, and that commas do not cut. -/
structure WrittenAs (p : Pattern) (t : List Char) : Prop where
  closed : Text.Closed Text.isComma t
  trimmed : Text.trimBlank t = t
  reads : ∀ depth text, Text.trimBlank text = t → t.length < depth → readWithin depth text = .ok p

variable {p : Pattern} {t : List Char}

/-- It is enough to look at one level of reading. -/
theorem WrittenAs.of_succ (hclosed : Text.Closed Text.isComma t) (htrim : Text.trimBlank t = t)
    (h : ∀ depth text, Text.trimBlank text = t → t.length ≤ depth → readWithin (depth + 1) text = .ok p) :
    p.WrittenAs t := by
  refine ⟨hclosed, htrim, fun depth text htext hdepth => ?_⟩
  cases depth with
  | zero => exact absurd hdepth (Nat.not_lt_zero _)
  | succ depth => exact h depth text htext (Nat.le_of_lt_succ hdepth)

theorem WrittenAs.read (h : p.WrittenAs t) : Pattern.read (String.ofList t) = .ok p := by
  refine h.reads _ _ ?_ ?_
  · rw [String.toList_ofList, h.trimmed]
  · simp

theorem writtenAs_any : any.WrittenAs ['_'] := by
  refine .of_succ (Text.closed_of_plain (by decide)) (by decide) fun depth text htext _ => ?_
  simp [readWithin, htext]

theorem writtenAs_value {l : Literal} (h : l.WrittenAs t) (hclosed : Text.Closed Text.isComma t) :
    (value l).WrittenAs t := by
  refine .of_succ hclosed h.trimmed fun depth text htext _ => ?_
  have hne : t ≠ ['_'] := by
    rintro rfl
    cases h.read
  simp [readWithin, htext, hne, h.read]

/-! ## Tuples -/

theorem readItems_ok {read : List Char → Except ReadError Pattern} {us : List (List Char)} {ps : List Pattern}
    (h : List.Forall₂ (fun u p => read u = .ok p) us ps) : readItems read us = .ok ps := by
  induction h with
  | nil => rfl
  | cons hfirst _ ih => simp [readItems, hfirst, ih]

/-- A text that is read as an item of a tuple: blanks may stand around it. -/
def ItemAs (u : List Char) (p : Pattern) : Prop :=
  Text.Closed Text.isComma u ∧ p.WrittenAs (Text.trimBlank u)

/-- Items between commas are read as a tuple. -/
theorem writtenAs_tuple {us : List (List Char)} {ps : List Pattern} (h : List.Forall₂ ItemAs us ps)
    (htwo : 2 ≤ us.length) : (tuple ps).WrittenAs ('(' :: [','].intercalate us ++ [')']) := by
  obtain ⟨u, v, rest, rfl⟩ : ∃ u v rest, us = u :: v :: rest := by
    match us, htwo with
    | u :: v :: rest, _ => exact ⟨u, v, rest, rfl⟩
  have hcomma : ',' ∈ [','].intercalate (u :: v :: rest) := by simp [List.intercalate_cons_cons]
  obtain ⟨hclosed, hwritten⟩ := (List.forall₂_and_left _ _).1 h
  obtain ⟨hcut, hinner⟩ := Text.splitTop_separated (c := ',') (Or.inr rfl) (by decide) (by simp) hclosed
  have hjoined := (Text.splitTop_joined hcut).2
  generalize [','].intercalate (u :: v :: rest) = inner at hcut hinner hjoined hcomma ⊢
  -- no number has a comma, so the parentheses do not make a literal
  have hliteral : Literal.read? ('(' :: inner ++ [')']) = .ok none := by
    rw [Literal.read?_parenthesized (List.ne_nil_of_mem hcomma),
      Literal.number?_eq_none (Text.mem_trimBlank (by decide) hcomma) (by decide)]
    rfl
  have htrim : Text.trimBlank ('(' :: inner ++ [')']) = '(' :: inner ++ [')'] :=
    Text.trimBlank_between (by decide) (by decide) inner
  refine .of_succ hinner.enclose htrim fun depth text htext hdepth => ?_
  have hitems : readItems (readWithin depth) (u :: v :: rest) = .ok ps := by
    refine readItems_ok (List.forall₂_iff_get.2 ⟨hwritten.length_eq, fun k hk hk' => ?_⟩)
    have hlength := hjoined.length_le _ (List.get_mem _ ⟨k, hk⟩)
    have htrimmed := Text.length_trimBlank_le ((u :: v :: rest).get ⟨k, hk⟩)
    refine (hwritten.get hk hk').reads depth _ rfl ?_
    simp only [List.length_cons, List.length_append, List.length_nil] at hdepth
    omega
  have hparen : '(' :: inner ++ [')'] ≠ ['_'] := by simp
  unfold readWithin
  simp only [htext, hparen, hliteral, hinner.enclosed?, hcut, hitems, if_false]

theorem WrittenAs.item (h : p.WrittenAs t) : ItemAs t p := by
  refine ⟨h.closed, ?_⟩
  rw [h.trimmed]
  exact h

theorem WrittenAs.item_blank (h : p.WrittenAs t) : ItemAs (' ' :: t) p := by
  refine ⟨h.closed.blank (by decide), ?_⟩
  rw [Text.trimBlank_blank (by decide), h.trimmed]
  exact h

/-- With a blank behind every comma, all items but the first begin with a blank. -/
theorem writtenAs_spaced {ts : List (List Char)} {ps : List Pattern}
    (h : List.Forall₂ (fun t p => p.WrittenAs t) ts ps) (htwo : 2 ≤ ps.length) :
    (tuple ps).WrittenAs ('(' :: [',', ' '].intercalate ts ++ [')']) := by
  have hlen := h.length_eq
  cases h with
  | nil => simp at htwo
  | @cons t p ts ps hfirst hrest =>
    rw [Text.intercalate_blank]
    refine writtenAs_tuple (.cons hfirst.item ?_) ?_
    · rw [List.forall₂_map_left_iff]
      exact hrest.imp fun t p ht => ht.item_blank
    · simp only [List.length_cons, List.length_map] at hlen htwo ⊢
      omega

/-! ## The text of a pattern -/

theorem renderList_eq_map (ps : List Pattern) : renderList ps = ps.map render := by
  induction ps with
  | nil => rfl
  | cons p ps ih => simp [renderList, ih]

theorem toList_render_tuple (ps : List Pattern) : (tuple ps).render.toList =
    '(' :: [',', ' '].intercalate (ps.map fun p => p.render.toList) ++ [')'] := by
  simp [render, renderList_eq_map, String.toList_intercalate, Function.comp_def]

/-- The text of a constant has no comma outside quotes. -/
theorem closed_render {l : Literal} (h : l.Legible) : Text.Closed Text.isComma l.render.toList := by
  have hnumeric : ∀ c, Literal.isNumeric c = true → Text.isComma c = false := by
    intro c hc
    rw [Text.isComma, decide_eq_false_iff_not]
    rintro rfl
    cases hc
  cases l with
  | int n => exact Literal.closed_of_number hnumeric (Literal.number?_int n)
  | float x => exact Literal.closed_of_number hnumeric ((Literal.number?_write_iff x).2 h)
  | bool b => cases b <;> exact Text.closed_of_plain (by decide)
  | unit =>
    have hnil : Text.Closed Text.isComma [] := .nil
    exact hnil.enclose
  | char c =>
    have hc : Literal.isSpelled c = true := h
    rw [Literal.toList_render_char]
    exact Literal.quoted_closed (Or.inl rfl) (by simpa using hc)
  | text s =>
    rw [Literal.toList_render_text]
    exact Literal.quoted_closed (Or.inr rfl) h

theorem writtenAs_literal {l : Literal} (h : l.Legible) : (value l).WrittenAs l.render.toList :=
  writtenAs_value (Literal.render_writtenAs h) (closed_render h)

mutual

theorem render_writtenAs : ∀ {p : Pattern}, p.Built Literal.Legible → p.WrittenAs p.render.toList
  | .any, _ => writtenAs_any
  | .value l, h => by
    rw [render, Ty.parenthesize]
    split
    · rename_i hnegative
      have hnumber := Literal.number?_of_negative h hnegative
      have hwritten := writtenAs_value (Literal.writtenAs_enclosed hnumber hnegative) (closed_render h).enclose
      simpa using hwritten
    · exact writtenAs_literal h
  | .tuple ps, h => by
    rw [toList_render_tuple]
    exact writtenAs_spaced (renderAll_writtenAs h.2) h.1

theorem renderAll_writtenAs : ∀ {ps : List Pattern}, AllBuilt Literal.Legible ps →
    List.Forall₂ (fun t p => p.WrittenAs t) (ps.map fun p => p.render.toList) ps
  | [], _ => .nil
  | _ :: _, h => .cons (render_writtenAs h.1) (renderAll_writtenAs h.2)

end

end Pattern

/-! ## The text of a value -/

namespace Value

open Pattern

theorem renderList_eq_map (vs : List Value) : renderList vs = vs.map render := by
  induction vs with
  | nil => rfl
  | cons v vs ih => simp [renderList, ih]

theorem toList_render_tuple (vs : List Value) : (tuple vs).render.toList =
    '(' :: [','].intercalate (vs.map fun v => v.render.toList) ++ [')'] := by
  simp [render, renderList_eq_map, String.toList_intercalate, Function.comp_def]

theorem ofPatterns?_cons {p : Pattern} {ps : List Pattern} {vs : List Value} :
    ofPatterns? (p :: ps) = some vs ↔ ∃ v rest, ofPattern? p = some v ∧ ofPatterns? ps = some rest ∧ vs = v :: rest := by
  simp only [ofPatterns?]
  split
  · rename_i v rest hv hrest
    simp [hv, hrest, eq_comm]
  · rename_i hnone
    simp only [reduceCtorEq, false_iff]
    rintro ⟨v, rest, hv, hrest, -⟩
    exact hnone v rest hv hrest

mutual

/-- The text of a value is read as the pattern that describes the value. -/
theorem render_writtenAs : ∀ {p : Pattern} {v : Value}, p.Built Literal.Legible → ofPattern? p = some v →
    p.WrittenAs v.render.toList
  | .any, _, _, hv => by cases hv
  | .value l, v, h, hv => by
    obtain rfl : Value.lit l = v := Option.some.inj hv
    exact writtenAs_literal h
  | .tuple ps, v, h, hv => by
    obtain ⟨vs, hvs, rfl⟩ := Option.map_eq_some_iff.1 hv
    have hitems := renderAll_writtenAs h.2 hvs
    rw [toList_render_tuple]
    refine writtenAs_tuple (hitems.imp fun t p ht => ht.item) ?_
    rw [hitems.length_eq]
    exact h.1

theorem renderAll_writtenAs : ∀ {ps : List Pattern} {vs : List Value}, AllBuilt Literal.Legible ps →
    ofPatterns? ps = some vs → List.Forall₂ (fun t p => p.WrittenAs t) (vs.map fun v => v.render.toList) ps
  | [], _, _, hvs => by
    cases hvs
    exact .nil
  | _ :: _, _, h, hvs => by
    obtain ⟨v, rest, hv, hrest, rfl⟩ := ofPatterns?_cons.1 hvs
    exact .cons (render_writtenAs h.1 hv) (renderAll_writtenAs h.2 hrest)

end

mutual

/-- A pattern without wildcards describes a value. -/
theorem exists_ofPattern? : ∀ {p : Pattern}, p.hasWildcard = false → ∃ v, ofPattern? p = some v
  | .any, h => by cases h
  | .value l, _ => ⟨.lit l, rfl⟩
  | .tuple ps, h => by
    obtain ⟨vs, hvs⟩ := exists_ofPatterns? h
    exact ⟨.tuple vs, by simp [ofPattern?, hvs]⟩

theorem exists_ofPatterns? : ∀ {ps : List Pattern}, haveWildcards ps = false → ∃ vs, ofPatterns? ps = some vs
  | [], _ => ⟨[], rfl⟩
  | p :: ps, h => by
    simp only [haveWildcards, Bool.or_eq_false_iff] at h
    obtain ⟨v, hv⟩ := exists_ofPattern? h.1
    obtain ⟨vs, hvs⟩ := exists_ofPatterns? h.2
    exact ⟨v :: vs, ofPatterns?_cons.2 ⟨v, vs, hv, hvs, rfl⟩⟩

end

end Value

/-! ## Simple constants -/

/-- Printable ASCII, or one of newline, tab, carriage return and the null character. -/
def Literal.isSimpleChar (c : Char) : Bool :=
  (32 ≤ c.toNat && c.toNat ≤ 126) || ['\n', '\t', '\r', '\x00'].contains c

/-- A whole number, a truth value, unit, or a character or text of simple characters. -/
def Literal.IsSimple : Literal → Prop
  | .int _ | .bool _ | .unit => True
  | .char c => isSimpleChar c = true
  | .text s => ∀ c ∈ s.toList, isSimpleChar c = true
  | .float _ => False

theorem Literal.isSpelled_of_simple {c : Char} (h : isSimpleChar c = true) : isSpelled c = true := by
  simp only [isSimpleChar, Bool.or_eq_true, Bool.and_eq_true, decide_eq_true_eq] at h
  rcases h with ⟨hlow, hhigh⟩ | hcontrol
  · have hascii : c.toNat < 128 := by omega
    have hprintable : Text.isPrintable c = true := by
      simp only [Text.isPrintable, hascii, if_true, Bool.and_eq_true, decide_eq_true_eq]
      omega
    have hextend : Text.isGraphemeExtend c = false := by simp [Text.isGraphemeExtend, hascii]
    simp [isSpelled, hprintable, hextend]
  · simp only [List.contains_eq_mem, List.mem_cons, List.not_mem_nil, or_false, decide_eq_true_eq] at hcontrol
    rcases hcontrol with rfl | rfl | rfl | rfl <;> decide

theorem Literal.IsSimple.legible {l : Literal} (h : l.IsSimple) : l.Legible := by
  cases l with
  | int | bool | unit => trivial
  | float x => cases h
  | char c => exact isSpelled_of_simple h
  | text s => exact fun c hc => isSpelled_of_simple (h c hc)

namespace Pattern

mutual

theorem Built.mono {q r : Literal → Prop} (hqr : ∀ l, q l → r l) : ∀ {p : Pattern}, p.Built q → p.Built r
  | .any, _ => trivial
  | .value l, h => hqr l h
  | .tuple _, h => ⟨h.1, AllBuilt.mono hqr h.2⟩

theorem AllBuilt.mono {q r : Literal → Prop} (hqr : ∀ l, q l → r l) :
    ∀ {ps : List Pattern}, AllBuilt q ps → AllBuilt r ps
  | [], _ => trivial
  | _ :: _, h => ⟨Built.mono hqr h.1, AllBuilt.mono hqr h.2⟩

end

/-- **Patterns and values read back.** The text of a pattern is read as that pattern, and the text of the
value that it describes, if it has no wildcard, as that value. -/
theorem reads_back {p : Pattern} (h : p.Built Literal.IsSimple) :
    Pattern.read p.render = .ok p ∧
      (p.hasWildcard = false → ∃ v, Value.ofPattern? p = some v ∧ Value.read v.render = .ok v) := by
  have hlegible : p.Built Literal.Legible := h.mono fun l hl => hl.legible
  constructor
  · have hread := (render_writtenAs hlegible).read
    rwa [String.ofList_toList] at hread
  · intro hconcrete
    obtain ⟨v, hv⟩ := Value.exists_ofPattern? hconcrete
    have hread := (Value.render_writtenAs hlegible hv).read
    rw [String.ofList_toList] at hread
    refine ⟨v, hv, ?_⟩
    simp [Value.read, hread, hv]

/-- A number below zero, and quotes, brackets and commas in quotes. -/
def quotedBrackets : Pattern :=
  .tuple [.value (.int (-3)), .tuple [.value (.char '\''), .value (.text "(\"',\n"), .value .unit]]

theorem reads_back_quotedBrackets :
    quotedBrackets.Built Literal.IsSimple ∧ quotedBrackets.hasWildcard = false ∧
    Pattern.read "((-3), ('\\'', \"(\\\"',\\n\", ()))" = .ok quotedBrackets ∧
    Value.read "(-3,('\\'',\"(\\\"',\\n\",()))" =
      .ok (.tuple [.int (-3), .tuple [.char '\'', .text "(\"',\n", .unit]]) := by
  have hbuilt : quotedBrackets.Built Literal.IsSimple := by
    simp [quotedBrackets, Built, AllBuilt, Literal.IsSimple, Literal.isSimpleChar]
  have hpattern : quotedBrackets.render = "((-3), ('\\'', \"(\\\"',\\n\", ()))" := by decide +kernel
  obtain ⟨hread, hvalue⟩ := reads_back hbuilt
  obtain ⟨v, hv, hback⟩ := hvalue rfl
  obtain rfl : Value.tuple [.int (-3), .tuple [.char '\'', .text "(\"',\n", .unit]] = v := Option.some.inj hv
  have htext : (Value.tuple [.int (-3), .tuple [.char '\'', .text "(\"',\n", .unit]]).render =
      "(-3,('\\'',\"(\\\"',\\n\",()))" := by decide +kernel
  rw [hpattern] at hread
  rw [htext] at hback
  exact ⟨hbuilt, rfl, hread, hback⟩

end Pattern

end Dataflow
