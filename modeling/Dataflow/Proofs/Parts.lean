import Dataflow.Proofs.Brackets
import Dataflow.Proofs.SourceText

/-!
# The parts of a text

Which texts can be cut at the separators outside brackets and literals is said by a grammar,
`Text.Balanced`. The parts are the balanced texts between the separators, so that a part cut once more
is found whole (`Text.splitTop_exact`).

A part is read without what stands before it, though a single quote opens a literal only behind
certain characters. Separators are such characters (`Text.isStart_of_between`), and this is why the
literals of a part are those that it had in the text (`Text.Balanced.of_start`).
-/

namespace Dataflow.Text

/-! ## Balanced texts -/

/-- In a text that stands behind `before` every bracket and every literal is closed, and no separator
stands outside of them. Brackets of the two kinds close each other. -/
inductive Balanced : (sep : Char → Bool) → (before : Option Char) → List Char → Prop where
  | nil {sep : Char → Bool} {before : Option Char} : Balanced sep before []
  | char {sep : Char → Bool} {before : Option Char} {c : Char} {t : List Char} (hquote : opensQuote before c = false)
      (hbracket : c ∉ ['(', '[', ')', ']']) (hsep : sep c = false) (h : Balanced sep (some c) t) :
      Balanced sep before (c :: t)
  | literal {sep : Char → Bool} {before : Option Char} {quote : Char} {body t : List Char}
      (hquote : opensQuote before quote = true) (hbody : Sealed quote body) (h : Balanced sep (some quote) t) :
      Balanced sep before (quote :: body ++ quote :: t)
  | group {sep : Char → Bool} {before : Option Char} {o c : Char} {inner t : List Char} (ho : o = '(' ∨ o = '[')
      (hc : c = ')' ∨ c = ']') (hinner : Balanced (fun _ => false) (some o) inner) (h : Balanced sep (some c) t) :
      Balanced sep before (o :: inner ++ c :: t)

/-- Behind a character that lets a literal open, a text is balanced as it is on its own. -/
theorem Balanced.of_start {sep : Char → Bool} {c : Char} (hc : isStart c = true) {t : List Char}
    (h : Balanced sep (some c) t) : Balanced sep none t := by
  cases h with
  | nil => exact .nil
  | char hquote hbracket hsep h => exact .char (opensQuote_start hc _ ▸ hquote) hbracket hsep h
  | literal hquote hbody h => exact .literal (opensQuote_start hc _ ▸ hquote) hbody h
  | group ho hc hinner h => exact .group ho hc hinner h

/-! ## The pieces of a text -/

/-- A text that stands behind `before` is made up of these pieces. -/
inductive Pieced : (before : Option Char) → List Char → List Piece → Prop where
  | nil {before : Option Char} : Pieced before [] []
  | char {before : Option Char} {c : Char} {t : List Char} {ps : List Piece} (hquote : opensQuote before c = false)
      (h : Pieced (some c) t ps) : Pieced before (c :: t) (.char c :: ps)
  | quoted {before : Option Char} {quote : Char} {body t : List Char} {ps : List Piece}
      (hquote : opensQuote before quote = true) (hbody : Sealed quote body) (h : Pieced (some quote) t ps) :
      Pieced before (quote :: body ++ quote :: t) (.quoted quote body :: ps)

theorem opensQuote_cases {before : Option Char} {c : Char} (h : opensQuote before c = true) : c = '"' ∨ c = '\'' := by
  simp only [opensQuote, Bool.or_eq_true, Bool.and_eq_true, decide_eq_true_eq] at h
  exact h.imp_right And.left

theorem opensQuote_bracket {c : Char} (hc : c ∈ ['(', '[', ')', ']']) (before : Option Char) :
    opensQuote before c = false := by
  by_contra hopens
  rcases opensQuote_cases (by simpa using hopens) with rfl | rfl <;> revert hc <;> decide

/-- What an open literal and the text behind it give, once the literal is cut off. -/
def Pieces.behind (quote : Char) (held : List Char) (cut : List Char × List Char) : Pieces :=
  ⟨.quoted quote (held.reverse ++ cut.1) :: (piecesFrom (.outside (some quote)) cut.2).list,
    (piecesFrom (.outside (some quote)) cut.2).unclosed⟩

/-- An open literal ends at the first quote that is not escaped. -/
theorem piecesFrom_inside {quote : Char} (hquote : quote ≠ '\\') (cs : List Char) :
    ∀ (held : List Char) (escaped : Bool), piecesFrom (.inside quote held escaped) cs =
      (cutAtQuote quote escaped cs).elim ⟨[], true⟩ (Pieces.behind quote held) := by
  induction cs with
  | nil =>
    intro held escaped
    rfl
  | cons c cs ih =>
    intro held escaped
    -- a character that does not end the literal is held with the others
    have hheld : ∀ escaped, piecesFrom (.inside quote (c :: held) escaped) cs =
        ((cutAtQuote quote escaped cs).map fun cut => (c :: cut.1, cut.2)).elim ⟨[], true⟩
          (Pieces.behind quote held) := by
      intro escaped
      rw [ih, Option.elim_map]
      congr 1
      funext cut
      simp [Pieces.behind]
    rw [cutAtQuote]
    cases escaped with
    | true => simpa [piecesFrom, escapes] using hheld false
    | false =>
      rw [piecesFrom]
      by_cases hescape : c = '\\'
      · have hne : ¬ (c = quote ∧ false = false) := fun hc => hquote (hc.1 ▸ hescape)
        rw [if_pos hescape, if_neg hne, hheld]
        simp [escapes, hescape]
      · by_cases hend : c = quote
        · rw [if_neg hescape, if_pos hend, if_pos ⟨hend, rfl⟩]
          simp [Pieces.behind]
        · rw [if_neg hescape, if_neg hend, if_neg (by simp [hend]), hheld]
          simp [escapes, hescape]

theorem piecesFrom_quote {before : Option Char} {quote : Char} (hopens : opensQuote before quote = true)
    (cs : List Char) : piecesFrom (.outside before) (quote :: cs) =
      (cutAtQuote quote false cs).elim ⟨[], true⟩ (Pieces.behind quote []) := by
  have hquote : quote ≠ '\\' := by
    rcases opensQuote_cases hopens with rfl | rfl <;> decide
  rw [piecesFrom, if_pos hopens, piecesFrom_inside hquote]

namespace Pieced

theorem piecesFrom_eq {before : Option Char} {t : List Char} {ps : List Piece} (h : Pieced before t ps) :
    piecesFrom (.outside before) t = ⟨ps, false⟩ := by
  induction h with
  | nil => rfl
  | char hquote h ih => simp [piecesFrom, hquote, ih]
  | quoted hquote hbody h ih => simp [piecesFrom_quote hquote, hbody.cutAtQuote, Pieces.behind, ih]

/-- Every text whose literals are closed is made up of its pieces. -/
theorem of_closed {t : List Char} : ∀ {before : Option Char}, (piecesFrom (.outside before) t).unclosed = false →
    Pieced before t (piecesFrom (.outside before) t).list := by
  induction hn : t.length using Nat.strong_induction_on generalizing t with
  | _ n ih =>
    intro before h
    cases t with
    | nil => exact .nil
    | cons c t =>
      by_cases hopens : opensQuote before c = true
      · rw [piecesFrom_quote hopens] at h ⊢
        cases hcut : cutAtQuote c false t with
        | none => simp [hcut] at h
        | some cut =>
          obtain ⟨body, rest⟩ := cut
          obtain ⟨rfl, hbody⟩ := sealed_of_cutAtQuote hcut
          rw [hcut] at h
          have hshorter : rest.length < n := by
            simp only [← hn, List.length_cons, List.length_append]
            omega
          exact .quoted hopens hbody (ih _ hshorter rfl h)
      · rw [piecesFrom, if_neg hopens] at h ⊢
        have hshorter : t.length < n := by simp [← hn]
        exact .char (by simpa using hopens) (ih _ hshorter rfl h)

/-- A character that is no quote between two texts. -/
theorem append_char {before : Option Char} {t u : List Char} {ps qs : List Piece} (h : Pieced before t ps) {c : Char}
    (hc : ∀ before, opensQuote before c = false) (hu : Pieced (some c) u qs) :
    Pieced before (t ++ c :: u) (ps ++ .char c :: qs) := by
  induction h with
  | nil => exact .char (hc _) hu
  | char hquote h ih => exact .char hquote ih
  | quoted hquote hbody h ih => simpa using Pieced.quoted hquote hbody ih

end Pieced

/-! ## Balanced texts are those whose brackets add up -/

/-- The brackets of a balanced text add up. -/
theorem Balanced.exists_pieced {sep : Char → Bool} {before : Option Char} {t : List Char} (h : Balanced sep before t) :
    ∃ ps, Pieced before t ps ∧ levels sep 0 ps = some 0 := by
  induction h with
  | nil => exact ⟨[], .nil, rfl⟩
  | @char sep before c t hquote hbracket hsep h ih =>
    obtain ⟨ps, hps, hlevels⟩ := ih
    refine ⟨.char c :: ps, .char hquote hps, ?_⟩
    simp only [List.mem_cons, List.not_mem_nil, or_false, not_or] at hbracket
    unfold levels at hlevels ⊢
    rw [depth_char]
    simpa [hbracket, hsep] using hlevels
  | literal hquote hbody h ih =>
    obtain ⟨ps, hps, hlevels⟩ := ih
    exact ⟨_, .quoted hquote hbody hps, hlevels⟩
  | @group sep before o c inner t ho hc hinner h ihinner ih =>
    obtain ⟨ps, hps, hinside⟩ := ihinner
    obtain ⟨qs, hqs, hrest⟩ := ih
    have hopen : ∀ before, opensQuote before o = false := opensQuote_bracket (by rcases ho with rfl | rfl <;> decide)
    have hclose : ∀ before, opensQuote before c = false := opensQuote_bracket (by rcases hc with rfl | rfl <;> decide)
    refine ⟨.char o :: ps ++ .char c :: qs, .char (hopen _) (hps.append_char hclose hqs), ?_⟩
    unfold levels at hinside hrest ⊢
    rw [List.cons_append, depth_char, if_pos (by simpa using ho), depth_append, depth_deeper hinside, Option.bind_some,
      depth_char, if_neg (by rcases hc with rfl | rfl <;> decide), if_pos (by simpa using hc)]
    exact hrest

/-- A text that closes `d` brackets opened before it and is balanced behind them. -/
def Closes : (d : Nat) → (before : Option Char) → List Char → Prop
  | 0, before, t => Balanced (fun _ => false) before t
  | d + 1, before, t => ∃ inner c u, t = inner ++ c :: u ∧ (c = ')' ∨ c = ']') ∧
      Balanced (fun _ => false) before inner ∧ Closes d (some c) u

/-- What can stand in front of a balanced text can stand in front of one that closes brackets. -/
theorem Closes.append {before last : Option Char} {x : List Char}
    (hx : ∀ t, Balanced (fun _ => false) last t → Balanced (fun _ => false) before (x ++ t)) :
    ∀ {d : Nat} {t : List Char}, Closes d last t → Closes d before (x ++ t)
  | 0, t, h => hx t h
  | d + 1, _, ⟨inner, c, u, ht, hc, hinner, hu⟩ =>
    ⟨x ++ inner, c, u, by rw [ht, List.append_assoc], hc, hx inner hinner, hu⟩

/-- Where the brackets add up, each is closed. -/
theorem Pieced.closes {before : Option Char} {t : List Char} {ps : List Piece} (h : Pieced before t ps) :
    ∀ {d : Nat}, levels (fun _ => false) d ps = some 0 → Closes d before t := by
  induction h with
  | nil =>
    intro d hd
    cases hd
    exact .nil
  | @char before c t ps hquote h ih =>
    intro d hd
    rw [levels, depth_char] at hd
    split at hd
    · rename_i hopen
      -- the bracket that closes this one comes first, then those of the brackets before it
      obtain ⟨inner, close, u, rfl, hclose, hinner, hu⟩ := ih hd
      have hgroup : ∀ v, Balanced (fun _ => false) (some close) v →
          Balanced (fun _ => false) before (c :: inner ++ [close] ++ v) := by
        intro v hv
        simpa using Balanced.group (by simpa using hopen) hclose hinner hv
      simpa using Closes.append hgroup hu
    · rename_i hopen
      split at hd
      · rename_i hclose
        cases d with
        | zero => cases hd
        | succ d => exact ⟨[], c, t, rfl, by simpa using hclose, .nil, ih hd⟩
      · rename_i hclose
        have hbracket : c ∉ ['(', '[', ')', ']'] := by
          simp only [Bool.or_eq_true, decide_eq_true_eq, not_or] at hopen hclose
          simp [hopen, hclose]
        exact Closes.append (x := [c]) (fun v hv => .char hquote hbracket rfl hv) (ih (by simpa [levels] using hd))
  | @quoted before quote body t ps hquote hbody h ih =>
    intro d hd
    have hliteral : ∀ v, Balanced (fun _ => false) (some quote) v →
        Balanced (fun _ => false) before (quote :: body ++ [quote] ++ v) := by
      intro v hv
      simpa using Balanced.literal hquote hbody hv
    simpa using Closes.append hliteral (ih hd)

/-! ## Cutting a balanced text -/

section
variable {sep : Char → Bool} {t : List Char} {parts : List (List Char)}

theorem balanced_of_splitTop (h : splitTop sep t = .ok parts) : Balanced (fun _ => false) none t := by
  have hpieced : Pieced none t (pieces t).list := .of_closed (splitFrom_quotes h)
  exact hpieced.closes (d := 0) (splitFrom_levels h (by simp))

/-- What stands in front of a text belongs to its first part. -/
theorem Joined.append_first {first : List Char} (x : List Char) (h : Joined sep (first :: parts) t) :
    Joined sep ((x ++ first) :: parts) (x ++ t) := by
  cases h with
  | last => exact .last _
  | cons _ hc h =>
    rw [← List.append_assoc]
    exact .cons _ hc h

/-- A balanced text has parts: it can be divided at the separators outside its brackets and literals. -/
theorem Balanced.exists_joined {sep' : Char → Bool} (hsep : ∀ c, sep c = true → isBlank c = true ∨ c = ',')
    {before : Option Char} (h : Balanced sep' before t) : ∃ first rest, Joined sep (first :: rest) t ∧
      Balanced sep before first ∧ ∀ part ∈ rest, Balanced sep none part := by
  induction h with
  | nil => exact ⟨[], [], .last [], .nil, by simp⟩
  | @char _ before c t hquote hbracket _ _ ih =>
    obtain ⟨first, rest, hjoined, hfirst, hrest⟩ := ih
    cases hc : sep c with
    | true =>
      have hpart : Balanced sep none first := hfirst.of_start (isStart_of_between (hsep c hc)).1
      exact ⟨[], first :: rest, .cons [] hc hjoined, .nil, List.forall_mem_cons.2 ⟨hpart, hrest⟩⟩
    | false => exact ⟨c :: first, rest, hjoined.append_first [c], .char hquote hbracket hc hfirst, hrest⟩
  | @literal _ before quote body t hquote hbody _ ih =>
    obtain ⟨first, rest, hjoined, hfirst, hrest⟩ := ih
    refine ⟨quote :: body ++ quote :: first, rest, ?_, .literal hquote hbody hfirst, hrest⟩
    simpa using hjoined.append_first (quote :: body ++ [quote])
  | @group _ before o c inner t ho hc hinner _ _ ih =>
    obtain ⟨first, rest, hjoined, hfirst, hrest⟩ := ih
    refine ⟨o :: inner ++ c :: first, rest, ?_, .group ho hc hinner hfirst, hrest⟩
    simpa using hjoined.append_first (o :: inner ++ [c])

theorem Balanced.pieces (h : Balanced sep none t) :
    (pieces t).unclosed = false ∧ levels sep 0 (pieces t).list = some 0 := by
  obtain ⟨ps, hps, hlevels⟩ := h.exists_pieced
  rw [Text.pieces, hps.piecesFrom_eq]
  exact ⟨rfl, hlevels⟩

theorem Balanced.splitTop (h : Balanced sep none t) : splitTop sep t = .ok [t] :=
  splitTop_single h.pieces.1 h.pieces.2

/-- Balanced texts with separators between them are found again. -/
theorem Joined.splitTop (hsep : ∀ c, sep c = true → isBlank c = true ∨ c = ',') (h : Joined sep parts t)
    (hparts : ∀ part ∈ parts, Balanced sep none part) : splitTop sep t = .ok parts := by
  induction h with
  | last t => exact (hparts t (by simp)).splitTop
  | cons t hc h ih =>
    obtain ⟨ht, hrest⟩ := List.forall_mem_cons.1 hparts
    exact splitTop_cons ht.pieces.1 ht.pieces.2 (hsep _ hc) hc (ih hrest)

theorem Balanced.exists_splitTop {sep' : Char → Bool} (hsep : ∀ c, sep c = true → isBlank c = true ∨ c = ',')
    (h : Balanced sep' none t) :
    ∃ parts, Text.splitTop sep t = .ok parts ∧ Joined sep parts t ∧ ∀ part ∈ parts, Balanced sep none part := by
  obtain ⟨first, rest, hjoined, hfirst, hrest⟩ := h.exists_joined hsep
  have hparts : ∀ part ∈ first :: rest, Balanced sep none part := List.forall_mem_cons.2 ⟨hfirst, hrest⟩
  exact ⟨first :: rest, hjoined.splitTop hsep hparts, hjoined, hparts⟩

/-- The parts that are found are the balanced texts between the separators. -/
theorem splitTop_ok_iff (hsep : ∀ c, sep c = true → isBlank c = true ∨ c = ',') :
    splitTop sep t = .ok parts ↔ Joined sep parts t ∧ ∀ part ∈ parts, Balanced sep none part := by
  constructor
  · intro h
    -- a text that is cut is balanced, so it has such parts, and cutting gives one list of parts only
    obtain ⟨parts', hcut, hparts⟩ := (balanced_of_splitTop h).exists_splitTop hsep
    obtain rfl : parts' = parts := Except.ok.inj (hcut.symm.trans h)
    exact hparts
  · rintro ⟨hjoined, hparts⟩
    exact hjoined.splitTop hsep hparts

end

/-! ## Parts as slices -/

/-- The parts of a text from the place `p` on are its slices up to the next separator and from behind it. A
place is an offset in octets between two characters. -/
inductive Sliced (sep : Char → Bool) (s : String) : (p : s.Pos) → List (List Char) → Prop where
  | last {p : s.Pos} {t : List Char} (ht : (s.sliceFrom p).copy = String.ofList t) : Sliced sep s p [t]
  | cons {p q : s.Pos} {t : List Char} {ts : List (List Char)} (hle : p ≤ q)
      (ht : (s.slice p q hle).copy = String.ofList t) (hq : q ≠ s.endPos) (hsep : sep (q.get hq) = true)
      (h : Sliced sep s (q.next hq) ts) : Sliced sep s p (t :: ts)

theorem Joined.sliced {sep : Char → Bool} {s : String} {t : List Char} {parts : List (List Char)}
    (h : Joined sep parts t) : ∀ (before : List Char) {p : s.Pos},
      p.Splits (String.ofList before) (String.ofList t) → Sliced sep s p parts := by
  induction h with
  | last t =>
    intro before p hp
    exact .last hp.copy_sliceFrom_eq
  | @cons t c ts u hc h ih =>
    intro before p hp
    have htail : String.ofList (t ++ c :: u) = String.ofList t ++ (String.singleton c ++ String.ofList u) := by
      rw [String.ofList_append, String.ofList_cons]
    rw [htail] at hp
    have hs : s = (String.ofList before ++ String.ofList t) ++ (String.singleton c ++ String.ofList u) := by
      rw [String.append_assoc]
      exact hp.eq_append
    -- `hq` is about the place of the separator
    have hq := String.Pos.splits_ofEqAppend hs
    obtain ⟨hle, hslice⟩ := String.copy_slice_eq_iff_splits.2 ⟨_, _, hp, hq⟩
    have hnext := hq.next
    refine .cons hle hslice hq.ne_endPos_of_singleton ?_ (ih (before ++ t ++ [c]) ?_)
    · rw [hnext.get_eq_of_singleton]
      exact hc
    · rw [String.ofList_append, String.ofList_append]
      exact hnext

/-- **The parts of a text are stable and nothing is lost.** Exactly the balanced texts can be cut. The parts
are the balanced texts without separators that give the text once the separators are put back between them. Each is
a slice of the text between two characters, and on its own it is cut into itself. -/
theorem splitTop_exact {sep : Char → Bool} (hsep : sep = isBlank ∨ sep = isComma) (t : List Char) :
    ((∃ parts, splitTop sep t = .ok parts) ↔ Balanced (fun _ => false) none t) ∧
    ∀ parts, (splitTop sep t = .ok parts ↔ Joined sep parts t ∧ ∀ part ∈ parts, Balanced sep none part) ∧
      (splitTop sep t = .ok parts → Sliced sep (String.ofList t) (String.ofList t).startPos parts ∧
        ∀ part ∈ parts, splitTop sep part = .ok [part]) := by
  have hbetween : ∀ c, sep c = true → isBlank c = true ∨ c = ',' := by
    rcases hsep with rfl | rfl
    · exact fun c hc => Or.inl hc
    · exact fun c hc => Or.inr (by simpa [isComma] using hc)
  refine ⟨⟨?_, fun h => ?_⟩, fun parts => ⟨splitTop_ok_iff hbetween, fun h => ?_⟩⟩
  · rintro ⟨parts, h⟩
    exact balanced_of_splitTop h
  · obtain ⟨parts, hcut, -⟩ := h.exists_splitTop hbetween
    exact ⟨parts, hcut⟩
  · obtain ⟨hjoined, hparts⟩ := (splitTop_ok_iff hbetween).1 h
    exact ⟨hjoined.sliced [] (String.splits_startPos _), fun part hpart => (hparts part hpart).splitTop⟩

/-- A name with a quote in it, a wide space as separator, separators and brackets in literals, and a bracket that one of
the other kind closes. -/
def mixedTerms : List Char := "f'\u3000(λ,' '] \"a\\\" )\"".toList

theorem splitTop_exact_mixedTerms :
    splitTop isBlank mixedTerms = .ok ["f'".toList, "(λ,' ']".toList, "\"a\\\" )\"".toList] ∧
    Balanced (fun _ => false) none mixedTerms ∧
    Joined isBlank ["f'".toList, "(λ,' ']".toList, "\"a\\\" )\"".toList] mixedTerms ∧
    Sliced isBlank (String.ofList mixedTerms) (String.ofList mixedTerms).startPos
      ["f'".toList, "(λ,' ']".toList, "\"a\\\" )\"".toList] ∧
    splitTop isBlank "(λ,' ']".toList = .ok ["(λ,' ']".toList] := by
  have hcut : splitTop isBlank mixedTerms = .ok ["f'".toList, "(λ,' ']".toList, "\"a\\\" )\"".toList] := by
    decide +kernel
  obtain ⟨hbalanced, hparts⟩ := splitTop_exact (Or.inl rfl) mixedTerms
  obtain ⟨hsliced, hstable⟩ := (hparts _).2 hcut
  exact ⟨hcut, hbalanced.1 ⟨_, hcut⟩, ((hparts _).1.1 hcut).1, hsliced, hstable _ (by simp)⟩

end Dataflow.Text
