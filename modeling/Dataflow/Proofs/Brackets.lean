import Dataflow.Term
import Mathlib.Data.List.Basic

/-!
# Brackets and quotes of texts that are put together

Texts are cut at separators outside brackets and quotes. Where the brackets and quotes of parts are
closed, the parts are found again: between separators (`Text.splitTop_separated`) and inside
parentheses (`Text.Closed.enclosed?`). Names are such parts (`Term.Word.closed`).
-/

namespace Dataflow

namespace Text

/-! ## White space at the ends -/

theorem trimBlank_eq_self {cs : List Char} (hhead : ∀ c ∈ cs.head?, isBlank c = false)
    (hlast : ∀ c ∈ cs.getLast?, isBlank c = false) : trimBlank cs = cs := by
  have hdrop : ∀ l : List Char, (∀ c ∈ l.head?, isBlank c = false) → l.dropWhile isBlank = l := by
    intro l hl
    cases l with
    | nil => rfl
    | cons c l => simp [hl c (by simp)]
  rw [trimBlank, hdrop cs hhead, hdrop cs.reverse (by simpa using hlast), List.reverse_reverse]

theorem trimBlank_ends (cs : List Char) : (∀ c ∈ (trimBlank cs).head?, isBlank c = false) ∧
    ∀ c ∈ (trimBlank cs).getLast?, isBlank c = false := by
  have hfirst : ∀ l : List Char, ∀ c ∈ (l.dropWhile isBlank).head?, isBlank c = false := by
    intro l c hc
    have hnot := List.head?_dropWhile_not isBlank l
    rw [Option.mem_def.1 hc] at hnot
    simpa using hnot
  unfold trimBlank
  generalize hl : cs.dropWhile isBlank = l
  refine ⟨fun c hc => ?_, fun c hc => hfirst l.reverse c (by simpa using hc)⟩
  -- cutting at the end keeps the beginning
  obtain ⟨k, hk⟩ : (l.reverse.dropWhile isBlank).reverse <+: l := by
    rw [← List.reverse_suffix, List.reverse_reverse]
    exact List.dropWhile_suffix _
  have hmem : c ∈ l.head? := by
    rw [← hk, List.head?_append, Option.mem_def.1 hc]
    rfl
  exact hfirst cs c (hl ▸ hmem)

theorem trimBlank_between {first last : Char} (hfirst : isBlank first = false) (hlast : isBlank last = false)
    (t : List Char) : trimBlank (first :: t ++ [last]) = first :: t ++ [last] := by
  have hend : (first :: t ++ [last]).getLast? = some last := List.getLast?_concat ..
  refine trimBlank_eq_self (by simpa using hfirst) ?_
  rw [hend]
  simpa using hlast

theorem trimBlank_blank {c : Char} (hc : isBlank c = true) (cs : List Char) : trimBlank (c :: cs) = trimBlank cs := by
  simp [trimBlank, hc]

theorem trimBlank_trimBlank (cs : List Char) : trimBlank (trimBlank cs) = trimBlank cs :=
  trimBlank_eq_self (trimBlank_ends cs).1 (trimBlank_ends cs).2

theorem length_trimBlank_le (cs : List Char) : (trimBlank cs).length ≤ cs.length := by
  have hdrop : ∀ l : List Char, (l.dropWhile isBlank).length ≤ l.length := fun l => (List.dropWhile_sublist _).length_le
  calc (trimBlank cs).length = ((cs.dropWhile isBlank).reverse.dropWhile isBlank).length := List.length_reverse
    _ ≤ (cs.dropWhile isBlank).reverse.length := hdrop _
    _ = (cs.dropWhile isBlank).length := List.length_reverse
    _ ≤ cs.length := hdrop cs

theorem mem_trimBlank {c : Char} (hc : isBlank c = false) {cs : List Char} (h : c ∈ cs) : c ∈ trimBlank cs := by
  have hdrop : ∀ l : List Char, c ∈ l → c ∈ l.dropWhile isBlank := by
    intro l hl
    rw [← List.takeWhile_append_dropWhile (p := isBlank) (l := l), List.mem_append] at hl
    refine hl.resolve_left fun htake => ?_
    have hblank := List.all_eq_true.1 (List.all_takeWhile (p := isBlank) (l := l)) c htake
    rw [hc] at hblank
    cases hblank
  unfold trimBlank
  rw [List.mem_reverse]
  exact hdrop _ (List.mem_reverse.2 (hdrop cs h))

/-! ## Pieces -/

/-- A character behind which a literal may open. -/
def isStart (c : Char) : Bool := isBlank c || c = '(' || c = ','

/-- What stands between terms or parts is no bracket. -/
theorem isStart_of_between {c : Char} (hc : isBlank c = true ∨ c = ',') :
    isStart c = true ∧ ¬ (c = '(' ∨ c = '[') ∧ ¬ (c = ')' ∨ c = ']') := by
  rcases hc with hc | rfl
  · refine ⟨by simp [isStart, hc], ?_, ?_⟩ <;> rintro (rfl | rfl) <;> revert hc <;> decide
  · decide

/-- Behind such a character a quote opens a literal exactly if it does so at the start. -/
theorem opensQuote_start {c : Char} (hc : isStart c = true) (d : Char) : opensQuote (some c) d = opensQuote none d := by
  simp only [isStart] at hc
  simp only [opensQuote, hc]

theorem piecesFrom_start {c : Char} (hc : isStart c = true) (t : List Char) :
    piecesFrom (.outside (some c)) t = pieces t := by
  cases t with
  | nil => rfl
  | cons d t => simp only [pieces, piecesFrom, opensQuote_start hc]

/-- What follows does not change the pieces of a text whose literals are closed. -/
theorem piecesFrom_append (rest : List Char) (state : PieceState) (t : List Char)
    (h : (piecesFrom state t).unclosed = false) : ∃ before, piecesFrom state (t ++ rest) =
      ⟨(piecesFrom state t).list ++ (piecesFrom (.outside before) rest).list,
        (piecesFrom (.outside before) rest).unclosed⟩ := by
  fun_induction piecesFrom state t with
  | case1 before => exact ⟨before, rfl⟩
  | case2 => cases h
  | case3 before c t hopens ih =>
    rw [List.cons_append, piecesFrom, if_pos hopens]
    exact ih h
  | case4 before c t hopens tail ih =>
    obtain ⟨b, hb⟩ := ih h
    rw [List.cons_append, piecesFrom, if_neg hopens]
    exact ⟨b, by simp [hb, tail]⟩
  | case5 quote body c t ih =>
    rw [List.cons_append, piecesFrom]
    exact ih h
  | case6 quote body t ih =>
    rw [List.cons_append, piecesFrom, if_pos rfl]
    exact ih h
  | case7 body c t hescape tail ih =>
    obtain ⟨b, hb⟩ := ih h
    rw [List.cons_append, piecesFrom, if_neg hescape, if_pos rfl]
    exact ⟨b, by simp [hb, tail]⟩
  | case8 quote body c t hescape hquote ih =>
    rw [List.cons_append, piecesFrom, if_neg hescape, if_neg hquote]
    exact ih h

theorem pieces_snoc {t : List Char} (ht : (pieces t).unclosed = false) {c : Char} (hc : c ≠ '"' ∧ c ≠ '\'')
    (u : List Char) : pieces (t ++ c :: u) =
      ⟨(pieces t).list ++ .char c :: (piecesFrom (.outside (some c)) u).list,
        (piecesFrom (.outside (some c)) u).unclosed⟩ := by
  obtain ⟨before, h⟩ := piecesFrom_append (c :: u) (.outside none) t ht
  have hopens : opensQuote before c = false := by simp [opensQuote, hc]
  rw [pieces, h]
  simp [piecesFrom, hopens, pieces]

/-- The pieces of two texts with a character between them behind which a literal may open. -/
theorem pieces_join {t : List Char} (ht : (pieces t).unclosed = false) {c : Char} (hc : isStart c = true)
    (u : List Char) : pieces (t ++ c :: u) = ⟨(pieces t).list ++ .char c :: (pieces u).list, (pieces u).unclosed⟩ := by
  have hquote : c ≠ '"' ∧ c ≠ '\'' := by
    constructor <;> rintro rfl <;> revert hc <;> decide
  rw [pieces_snoc ht hquote, piecesFrom_start hc]

/-- The characters of a literal that is still open. -/
def PieceState.held : PieceState → List Char
  | .outside _ => []
  | .inside quote body _ => quote :: body.reverse

/-- The pieces make up the text. -/
theorem pieceChars_piecesFrom (state : PieceState) (t : List Char) (h : (piecesFrom state t).unclosed = false) :
    pieceChars (piecesFrom state t).list = state.held ++ t := by
  fun_induction piecesFrom state t with
  | case1 => rfl
  | case2 => cases h
  | case3 before c t hopens ih => exact ih h
  | case4 before c t hopens tail ih => simpa [pieceChars, Piece.chars, PieceState.held] using ih h
  | case5 quote body c t ih => simpa [PieceState.held] using ih h
  | case6 quote body t ih => simpa [PieceState.held] using ih h
  | case7 body c t hescape tail ih =>
    have hrest := ih h
    simpa [pieceChars, Piece.chars, PieceState.held] using hrest
  | case8 quote body c t hescape hquote ih => simpa [PieceState.held] using ih h

theorem pieceChars_pieces {t : List Char} (h : (pieces t).unclosed = false) : pieceChars (pieces t).list = t :=
  pieceChars_piecesFrom (.outside none) t h

/-! ## Depth -/

/-- How deep in brackets one is behind some pieces; `none` if a bracket closes that was not opened, or
if a separator stands outside all brackets. -/
def depth (opens closes sep : Char → Bool) : Nat → List Piece → Option Nat
  | d, [] => some d
  | d, .quoted _ _ :: ps => depth opens closes sep d ps
  | d, .char c :: ps =>
    if opens c then depth opens closes sep (d + 1) ps
    else if closes c then
      match d with
      | 0 => none
      | d + 1 => depth opens closes sep d ps
    else if d = 0 && sep c then none
    else depth opens closes sep d ps

/-- Depth in brackets of both kinds. -/
def levels (sep : Char → Bool) : Nat → List Piece → Option Nat :=
  depth (fun c => c = '(' || c = '[') (fun c => c = ')' || c = ']') sep

/-- Depth in parentheses. -/
def parens : Nat → List Piece → Option Nat :=
  depth (fun c => c = '(') (fun c => c = ')') (fun _ => false)

section
variable {opens closes sep sep' : Char → Bool}

theorem depth_char (d : Nat) (c : Char) (ps : List Piece) : depth opens closes sep d (.char c :: ps) =
    if opens c then depth opens closes sep (d + 1) ps
    else if closes c then
      match d with
      | 0 => none
      | d + 1 => depth opens closes sep d ps
    else if d = 0 && sep c then none
    else depth opens closes sep d ps := by
  cases d <;> rfl

theorem depth_weaken (hsep : ∀ c, sep' c = true → sep c = true) {ps : List Piece} {d e : Nat}
    (h : depth opens closes sep d ps = some e) : depth opens closes sep' d ps = some e := by
  fun_induction depth opens closes sep d ps with
  | case1 d => exact h
  | case2 d quote body ps ih => exact ih h
  | case3 d c ps hopens ih =>
    rw [depth_char, if_pos hopens]
    exact ih h
  | case4 c ps hopens hcloses => cases h
  | case5 c ps hopens hcloses d ih =>
    rw [depth_char, if_neg hopens, if_pos hcloses]
    exact ih h
  | case6 d c ps hopens hcloses hstop => cases h
  | case7 d c ps hopens hcloses hstop ih =>
    have hstop' : ¬ (d = 0 && sep' c) = true := by
      simp only [Bool.and_eq_true] at hstop ⊢
      exact fun hboth => hstop ⟨hboth.1, hsep c hboth.2⟩
    rw [depth_char, if_neg hopens, if_neg hcloses, if_neg hstop']
    exact ih h

/-- Without closing brackets one gets no less deep. -/
theorem le_depth {ps : List Piece} {d e : Nat} (h : depth opens closes sep d ps = some e)
    (hcloses : ∀ c ∈ pieceChars ps, closes c = false) : d ≤ e := by
  fun_induction depth opens closes sep d ps with
  | case1 d =>
    cases h
    exact Nat.le_refl _
  | case2 d quote body ps ih => exact ih h fun c hc => hcloses c (by simp_all [pieceChars])
  | case3 d c ps hopens ih =>
    have hle := ih h fun c hc => hcloses c (by simp_all [pieceChars])
    omega
  | case4 c ps hopens hclose => cases h
  | case5 c ps hopens hclose d ih =>
    have hnot := hcloses c (by simp [pieceChars, Piece.chars])
    rw [hclose] at hnot
    cases hnot
  | case6 d c ps hopens hclose hstop => cases h
  | case7 d c ps hopens hclose hstop ih => exact ih h fun c hc => hcloses c (by simp_all [pieceChars])

/-- Brackets that are not there do not count. -/
theorem depth_of_not_mem : ∀ {ps : List Piece} (d : Nat),
    (∀ c ∈ pieceChars ps, opens c = false ∧ closes c = false ∧ sep c = false) →
      depth opens closes sep d ps = some d
  | [], d, _ => rfl
  | .quoted quote body :: ps, d, h => by
    rw [depth]
    exact depth_of_not_mem d fun c hc => h c (by simp_all [pieceChars])
  | .char c :: ps, d, h => by
    obtain ⟨hopens, hcloses, hsep⟩ := h c (by simp [pieceChars, Piece.chars])
    rw [depth_char]
    simp only [hopens, hcloses, hsep, Bool.and_false, Bool.false_eq_true, if_false]
    exact depth_of_not_mem d fun c hc => h c (by simp_all [pieceChars])

theorem depth_append (qs : List Piece) : ∀ (ps : List Piece) (d : Nat),
    depth opens closes sep d (ps ++ qs) = (depth opens closes sep d ps).bind fun e => depth opens closes sep e qs
  | [], _ => rfl
  | .quoted _ _ :: ps, d => depth_append qs ps d
  | .char c :: ps, d => by
    simp only [List.cons_append, depth]
    split
    · exact depth_append qs ps _
    · split
      · split
        · rfl
        · exact depth_append qs ps _
      · split
        · rfl
        · exact depth_append qs ps _

/-- Separators do not matter inside brackets. -/
theorem depth_deeper {ps : List Piece} {d e : Nat} (h : depth opens closes sep d ps = some e) :
    depth opens closes sep' (d + 1) ps = some (e + 1) := by
  fun_induction depth opens closes sep d ps with
  | case1 d =>
    cases h
    rfl
  | case2 d quote body ps ih => exact ih h
  | case3 d c ps hopens ih =>
    rw [depth, if_pos hopens]
    exact ih h
  | case4 c ps hopens hcloses => cases h
  | case5 c ps hopens hcloses d ih =>
    rw [depth, if_neg hopens, if_pos hcloses]
    exact ih h
  | case6 d c ps hopens hcloses hsep => cases h
  | case7 d c ps hopens hcloses hsep ih =>
    rw [depth, if_neg hopens, if_neg hcloses, if_neg (by simp)]
    exact ih h

end

/-! ## Closed texts -/

/-- The quotes and brackets of a text are closed, and no separator stands outside of them. -/
structure Closed (sep : Char → Bool) (t : List Char) : Prop where
  quotes : (pieces t).unclosed = false
  levels : levels sep 0 (pieces t).list = some 0
  parens : parens 0 (pieces t).list = some 0

namespace Closed

variable {sep sep' : Char → Bool} {t u : List Char}

/-- A character that is neither a bracket nor a separator between closed texts. -/
theorem join (ht : Closed sep t) (hu : Closed sep u) {c : Char} (hc : isBlank c = true ∨ c = ',') (hsep : sep c = false) :
    Closed sep (t ++ c :: u) := by
  obtain ⟨hstart, hbracket⟩ := isStart_of_between hc
  have hpieces := pieces_join ht.quotes hstart u
  refine ⟨by rw [hpieces]; exact hu.quotes, ?_, ?_⟩
  · have hleft := ht.levels
    have hright := hu.levels
    unfold Text.levels at hleft hright ⊢
    rw [hpieces, depth_append, hleft, Option.bind_some, depth]
    simpa [hbracket.1, hbracket.2, hsep] using hright
  · have hleft := ht.parens
    have hright := hu.parens
    unfold Text.parens at hleft hright ⊢
    rw [hpieces, depth_append, hleft, Option.bind_some, depth]
    simp only [not_or] at hbracket
    simpa [hbracket.1.1, hbracket.2.1] using hright

theorem nil : Closed sep [] := ⟨rfl, rfl, rfl⟩

/-- A blank in front of a closed text. -/
theorem blank (ht : Closed sep t) (hsep : sep ' ' = false) : Closed sep (' ' :: t) :=
  nil.join ht (Or.inl (by decide)) hsep

theorem pieces_enclose (ht : Closed sep t) : pieces ('(' :: t ++ [')']) =
    ⟨.char '(' :: (pieces t).list ++ [.char ')'], false⟩ := by
  have hfirst : pieces ('(' :: t) = ⟨.char '(' :: (pieces t).list, (pieces t).unclosed⟩ :=
    pieces_join (t := []) rfl (by decide) t
  have hboth := pieces_snoc (by rw [hfirst]; exact ht.quotes) (c := ')') (by decide) []
  rw [hboth, hfirst]
  rfl

/-- Parentheses around a text close it, whatever separators it holds. -/
theorem enclose (ht : Closed sep t) : Closed sep' ('(' :: t ++ [')']) := by
  refine ⟨by rw [ht.pieces_enclose], ?_, ?_⟩
  · have hinside : Text.levels sep' 1 (pieces t).list = some 1 := depth_deeper ht.levels
    unfold Text.levels at hinside ⊢
    rw [ht.pieces_enclose, List.cons_append, depth, if_pos (by decide), depth_append, hinside]
    rfl
  · have hinside : Text.parens 1 (pieces t).list = some 1 := depth_deeper ht.parens
    unfold Text.parens at hinside ⊢
    rw [ht.pieces_enclose, List.cons_append, depth, if_pos (by decide), depth_append, hinside]
    rfl

/-- The mark of a tuple in front of its parentheses. -/
theorem mark (ht : Closed sep ('(' :: t)) (hsep : sep '!' = false) : Closed sep ('!' :: '(' :: t) := by
  have hpieces : pieces ('!' :: '(' :: t) = ⟨.char '!' :: (pieces ('(' :: t)).list, (pieces ('(' :: t)).unclosed⟩ := by
    have hmarked : pieces ('!' :: '(' :: t) = ⟨.char '!' :: .char '(' :: (pieces t).list, (pieces t).unclosed⟩ :=
      pieces_join (t := ['!']) rfl (by decide) t
    have hbare : pieces ('(' :: t) = ⟨.char '(' :: (pieces t).list, (pieces t).unclosed⟩ :=
      pieces_join (t := []) rfl (by decide) t
    rw [hmarked, hbare]
  refine ⟨by rw [hpieces]; exact ht.quotes, ?_, ?_⟩
  · have hlevels := ht.levels
    unfold Text.levels at hlevels ⊢
    rw [hpieces, depth_char, hsep]
    exact hlevels
  · have hparens := ht.parens
    unfold Text.parens at hparens ⊢
    rw [hpieces, depth_char]
    exact hparens

theorem weaken (ht : Closed sep t) (hsep : ∀ c, sep' c = true → sep c = true) : Closed sep' t :=
  ⟨ht.quotes, depth_weaken hsep ht.levels, ht.parens⟩

/-- A parenthesis at the start is closed. -/
theorem mem_of_head (ht : Closed sep t) (hhead : t.head? = some '(') : ')' ∈ t := by
  by_contra hnot
  obtain ⟨u, rfl⟩ : ∃ u, t = '(' :: u := ⟨t.tail, List.eq_cons_of_mem_head? hhead⟩
  have hpieces : pieces ('(' :: u) = ⟨.char '(' :: (pieces u).list, (pieces u).unclosed⟩ :=
    pieces_join (t := []) rfl (by decide) u
  have hdepth := ht.parens
  have hchars := pieceChars_pieces ht.quotes
  rw [hpieces] at hdepth hchars
  rw [Text.parens, depth_char, if_pos (by decide)] at hdepth
  have hle := le_depth hdepth fun c hc => by
    simp only [decide_eq_false_iff_not]
    rintro rfl
    exact hnot (hchars ▸ List.mem_append_right _ hc)
  omega

end Closed

/-! ## Cutting -/

theorem splitFrom_char {text : List Char} {sep : Char → Bool} {unclosed : Bool} (d : Nat) (current : List Char) (c : Char)
    (ps : List Piece) : splitFrom text sep unclosed d current (.char c :: ps) =
      if c = '(' || c = '[' then splitFrom text sep unclosed (d + 1) (c :: current) ps
      else if c = ')' || c = ']' then
        match d with
        | 0 => .error (unbalanced c text)
        | d + 1 => splitFrom text sep unclosed d (c :: current) ps
      else if d = 0 && sep c then
        match splitFrom text sep unclosed 0 [] ps with
        | .ok parts => .ok (current.reverse :: parts)
        | .error e => .error e
      else splitFrom text sep unclosed d (c :: current) ps := by
  cases d <;> rfl

theorem splitFrom_append {text : List Char} {sep : Char → Bool} {unclosed : Bool} (qs : List Piece) {ps : List Piece}
    {d e : Nat} (h : levels sep d ps = some e) (current : List Char) :
    splitFrom text sep unclosed d current (ps ++ qs) =
      splitFrom text sep unclosed e ((pieceChars ps).reverse ++ current) qs := by
  unfold levels at h
  generalize hopens : (fun c : Char => (c = '(' || c = '[' : Bool)) = opens at h
  generalize hcloses : (fun c : Char => (c = ')' || c = ']' : Bool)) = closes at h
  fun_induction depth opens closes sep d ps generalizing current with
  | case1 d =>
    cases h
    rfl
  | case2 d quote body ps ih =>
    rw [List.cons_append, splitFrom, ih _ h]
    simp [pieceChars]
  | case3 d c ps hopen ih =>
    subst hopens
    rw [List.cons_append, splitFrom_char, if_pos hopen, ih _ h]
    simp [pieceChars, Piece.chars]
  | case4 c ps hopen hclose => cases h
  | case5 c ps hopen hclose d ih =>
    subst hopens hcloses
    rw [List.cons_append, splitFrom_char, if_neg hopen, if_pos hclose]
    simp only
    rw [ih _ h]
    simp [pieceChars, Piece.chars]
  | case6 d c ps hopen hclose hsep => cases h
  | case7 d c ps hopen hclose hsep ih =>
    subst hopens hcloses
    rw [List.cons_append, splitFrom_char, if_neg hopen, if_neg hclose, if_neg hsep, ih _ h]
    simp [pieceChars, Piece.chars]

/-- The whole text is only for faults. -/
theorem splitFrom_ok {text text' : List Char} {sep : Char → Bool} {unclosed : Bool} {d : Nat} {current : List Char}
    {ps : List Piece} {parts : List (List Char)} (h : splitFrom text sep unclosed d current ps = .ok parts) :
    splitFrom text' sep unclosed d current ps = .ok parts := by
  fun_induction splitFrom text sep unclosed d current ps generalizing parts with
  | case1 => cases h
  | case2 => cases h
  | case3 d current hclosed hd =>
    rw [splitFrom, if_neg hclosed, if_neg hd]
    exact h
  | case4 d current quote body ps ih => exact ih h
  | case5 d current c ps hopen ih =>
    rw [splitFrom_char, if_pos hopen]
    exact ih h
  | case6 => cases h
  | case7 current c ps hopen hclose d ih =>
    rw [splitFrom_char, if_neg hopen, if_pos hclose]
    exact ih h
  | case8 d current c ps hopen hclose hsep parts' hparts ih =>
    rw [splitFrom_char, if_neg hopen, if_neg hclose, if_pos hsep, ih hparts]
    exact h
  | case9 => cases h
  | case10 d current c ps hopen hclose hsep ih =>
    rw [splitFrom_char, if_neg hopen, if_neg hclose, if_neg hsep]
    exact ih h

/-- A text without separators outside of its brackets is one part. -/
theorem splitTop_single {sep : Char → Bool} {t : List Char} (hquotes : (pieces t).unclosed = false)
    (hlevels : levels sep 0 (pieces t).list = some 0) : splitTop sep t = .ok [t] := by
  have hcut : splitFrom t sep false 0 [] ((pieces t).list ++ []) = _ := splitFrom_append [] hlevels []
  rw [List.append_nil] at hcut
  rw [Text.splitTop, hquotes, hcut, splitFrom, pieceChars_pieces hquotes]
  simp

theorem Closed.splitTop {sep : Char → Bool} {t : List Char} (ht : Closed sep t) : splitTop sep t = .ok [t] :=
  splitTop_single ht.quotes ht.levels

/-- A separator behind a closed text cuts it off. -/
theorem splitTop_cons {sep : Char → Bool} {t u : List Char} (hquotes : (pieces t).unclosed = false)
    (hlevels : levels sep 0 (pieces t).list = some 0) {c : Char} (hc : isBlank c = true ∨ c = ',') (hsep : sep c = true)
    {parts : List (List Char)} (hu : splitTop sep u = .ok parts) : splitTop sep (t ++ c :: u) = .ok (t :: parts) := by
  obtain ⟨hstart, hbracket⟩ := isStart_of_between hc
  rw [splitTop, pieces_join hquotes hstart, splitFrom_append _ hlevels, splitFrom_char, pieceChars_pieces hquotes]
  simp [hbracket.1, hbracket.2, hsep, splitFrom_ok hu]

/-- Closed texts with separators between them are cut into them. -/
theorem splitTop_separated {sep : Char → Bool} {c : Char} (hc : isBlank c = true ∨ c = ',') (hsep : sep c = true) :
    ∀ {ts : List (List Char)}, ts ≠ [] → (∀ t ∈ ts, Closed sep t) →
      splitTop sep ([c].intercalate ts) = .ok ts ∧ Closed (fun _ => false) ([c].intercalate ts)
  | [t], _, h => by
    have ht := h t (by simp)
    simpa using ⟨ht.splitTop, ht.weaken (by simp)⟩
  | t :: u :: ts, _, h => by
    have hrest : ∀ v ∈ u :: ts, Closed sep v := fun v hv => h v (List.mem_cons_of_mem t hv)
    obtain ⟨hcut, hclosed⟩ := splitTop_separated hc hsep (by simp) hrest
    have ht := h t (by simp)
    rw [List.intercalate_cons_cons, List.append_assoc, List.singleton_append]
    exact ⟨splitTop_cons ht.quotes ht.levels hc hsep hcut, (ht.weaken (by simp)).join hclosed hc rfl⟩

/-- A blank behind a separator belongs to the part that follows. -/
theorem intercalate_blank (c : Char) : ∀ (t : List Char) (ts : List (List Char)),
    [c, ' '].intercalate (t :: ts) = [c].intercalate (t :: ts.map (' ' :: ·))
  | t, [] => by simp
  | t, u :: ts => by
    have hfirst : ∀ rest, [c].intercalate ((' ' :: u) :: rest) = ' ' :: [c].intercalate (u :: rest) := by
      intro rest
      cases rest <;> simp [List.intercalate_cons_cons]
    rw [List.intercalate_cons_cons, intercalate_blank c u ts, List.map_cons, List.intercalate_cons_cons, hfirst]
    simp

theorem closingFrom_append (qs : List Piece) {ps : List Piece} {d e : Nat} (h : parens d ps = some e)
    (before : List Char) :
    closingFrom (d + 1) before (ps ++ qs) = closingFrom (e + 1) ((pieceChars ps).reverse ++ before) qs := by
  unfold parens at h
  generalize hopens : (fun c : Char => (c = '(' : Bool)) = opens at h
  generalize hcloses : (fun c : Char => (c = ')' : Bool)) = closes at h
  fun_induction depth opens closes _ d ps generalizing before with
  | case1 d =>
    cases h
    rfl
  | case2 d quote body ps ih =>
    rw [List.cons_append, closingFrom, ih _ h]
    simp [pieceChars]
  | case3 d c ps hopen ih =>
    subst hopens
    rw [List.cons_append, closingFrom, if_pos (by simpa using hopen), ih _ h]
    simp [pieceChars, Piece.chars]
  | case4 c ps hopen hclose => cases h
  | case5 c ps hopen hclose d ih =>
    subst hopens hcloses
    rw [List.cons_append, closingFrom, if_neg (by simpa using hopen), if_pos (by simpa using hclose), if_neg (by omega)]
    simp only [Nat.add_sub_cancel]
    rw [ih _ h]
    simp [pieceChars, Piece.chars]
  | case6 d c ps hopen hclose hsep => cases h
  | case7 d c ps hopen hclose hsep ih =>
    subst hopens hcloses
    rw [List.cons_append, closingFrom, if_neg (by simpa using hopen), if_neg (by simpa using hclose), ih _ h]
    simp [pieceChars, Piece.chars]

/-- What stands in parentheses is found. -/
theorem Closed.enclosed? {sep : Char → Bool} {t : List Char} (ht : Closed sep t) :
    enclosed? ('(' :: t ++ [')']) = .ok (some t) := by
  have hlast : ('(' :: t ++ [')']).getLast? = some ')' := List.getLast?_concat ..
  have hclosing : closingFrom 0 [] (.char '(' :: (pieces t).list ++ [.char ')']) = some (t.reverse ++ ['('], []) := by
    have hinside := closingFrom_append [.char ')'] ht.parens ['(']
    rw [pieceChars_pieces ht.quotes] at hinside
    rw [List.cons_append, closingFrom, if_pos rfl, hinside]
    rfl
  rw [Text.enclosed?, if_neg (by rw [hlast]; simp), ht.pieces_enclose]
  dsimp only
  rw [hclosing]
  simp

theorem closingFrom_ok {d : Nat} {before b : List Char} {ps rest : List Piece}
    (h : closingFrom d before ps = some (b, rest)) :
    before.reverse ++ pieceChars ps = b.reverse ++ ')' :: pieceChars rest := by
  fun_induction closingFrom d before ps with
  | case1 => cases h
  | case2 d before ps ih => simpa [pieceChars, Piece.chars] using ih h
  | case3 d before ps hopen hdepth =>
    cases h
    simp [pieceChars, Piece.chars]
  | case4 d before ps hopen hdepth ih => simpa [pieceChars, Piece.chars] using ih h
  | case5 d before c ps hopen hclose ih => simpa [pieceChars, Piece.chars] using ih h
  | case6 d before quote body ps ih => simpa [pieceChars, Piece.chars] using ih h

/-- What is enclosed stands in parentheses. -/
theorem enclosed?_ok {t inner : List Char} (h : enclosed? t = .ok (some inner)) : t = '(' :: inner ++ [')'] := by
  unfold enclosed? at h
  split at h
  · cases h
  · rename_i hends
    dsimp only at h
    split at h
    · rename_i before rest hclosing
      split at h
      · rename_i hrest
        simp only [Bool.and_eq_true, List.isEmpty_iff, Bool.not_eq_true'] at hrest
        obtain ⟨rfl, hquotes⟩ := hrest
        have hchars := closingFrom_ok hclosing
        rw [pieceChars_pieces hquotes] at hchars
        simp only [Except.ok.injEq, Option.some.injEq] at h
        obtain rfl : t = before.reverse ++ [')'] := by simpa [pieceChars] using hchars
        cases hbefore : before.reverse with
        | nil => simp [hbefore] at hends
        | cons c cs => simp_all
      · cases h
    · cases h

/-! ## Parts and what was between them -/

/-- A text is made up of parts with separators between them. -/
inductive Joined (sep : Char → Bool) : List (List Char) → List Char → Prop where
  | last (t : List Char) : Joined sep [t] t
  | cons (t : List Char) {c : Char} {ts : List (List Char)} {u : List Char} (hc : sep c = true) (h : Joined sep ts u) :
      Joined sep (t :: ts) (t ++ c :: u)

theorem Joined.ne_nil {sep : Char → Bool} {parts : List (List Char)} {t : List Char} (h : Joined sep parts t) :
    parts ≠ [] := by
  cases h <;> simp

theorem splitFrom_joined {text : List Char} {sep : Char → Bool} {unclosed : Bool} {d : Nat} {current : List Char}
    {ps : List Piece} {parts : List (List Char)} (h : splitFrom text sep unclosed d current ps = .ok parts) :
    Joined sep parts (current.reverse ++ pieceChars ps) := by
  fun_induction splitFrom text sep unclosed d current ps generalizing parts with
  | case1 => cases h
  | case2 => cases h
  | case3 d current hclosed hd =>
    cases h
    simpa [pieceChars] using Joined.last current.reverse
  | case4 d current quote body ps ih => simpa [pieceChars] using ih h
  | case5 d current c ps hopen ih => simpa [pieceChars, Piece.chars] using ih h
  | case6 => cases h
  | case7 current c ps hopen hclose d ih => simpa [pieceChars, Piece.chars] using ih h
  | case8 d current c ps hopen hclose hsep parts' hparts ih =>
    cases h
    have hrest := ih hparts
    simp only [Bool.and_eq_true] at hsep
    exact .cons current.reverse hsep.2 hrest
  | case9 => cases h
  | case10 d current c ps hopen hclose hsep ih => simpa [pieceChars, Piece.chars] using ih h

theorem splitFrom_quotes {text : List Char} {sep : Char → Bool} {unclosed : Bool} {d : Nat} {current : List Char}
    {ps : List Piece} {parts : List (List Char)} (h : splitFrom text sep unclosed d current ps = .ok parts) :
    unclosed = false := by
  fun_induction splitFrom text sep unclosed d current ps generalizing parts with
  | case1 => cases h
  | case2 => cases h
  | case3 d current hclosed hd => simpa using hclosed
  | case4 d current quote body ps ih => exact ih h
  | case5 d current c ps hopen ih => exact ih h
  | case6 => cases h
  | case7 current c ps hopen hclose d ih => exact ih h
  | case8 d current c ps hopen hclose hsep parts' hparts ih => exact ih hparts
  | case9 => cases h
  | case10 d current c ps hopen hclose hsep ih => exact ih h

theorem splitTop_joined {sep : Char → Bool} {t : List Char} {parts : List (List Char)}
    (h : splitTop sep t = .ok parts) : (pieces t).unclosed = false ∧ Joined sep parts t := by
  have hquotes := splitFrom_quotes h
  have hjoined := splitFrom_joined h
  rw [pieceChars_pieces hquotes] at hjoined
  exact ⟨hquotes, hjoined⟩

/-- The brackets of a text that is cut are closed. Separators outside of them are only there if it has several
parts. -/
theorem splitFrom_levels {text : List Char} {sep sep' : Char → Bool} {unclosed : Bool} {d : Nat} {current : List Char}
    {ps : List Piece} {parts : List (List Char)} (h : splitFrom text sep unclosed d current ps = .ok parts)
    (hsep' : ∀ c, sep' c = true → sep c = true ∧ parts.length = 1) : levels sep' d ps = some 0 := by
  unfold levels
  fun_induction splitFrom text sep unclosed d current ps generalizing parts with
  | case1 => cases h
  | case2 => cases h
  | case3 d current hclosed hd =>
    simp only [ne_eq, Decidable.not_not] at hd
    rw [hd]
    rfl
  | case4 d current quote body ps ih => exact ih h hsep'
  | case5 d current c ps hopen ih =>
    rw [depth_char, if_pos hopen]
    exact ih h hsep'
  | case6 => cases h
  | case7 current c ps hopen hclose d ih =>
    rw [depth_char, if_neg hopen, if_pos hclose]
    exact ih h hsep'
  | case8 d current c ps hopen hclose hsep parts' hparts ih =>
    cases h
    -- here the text is cut, so there are two parts and no separator is asked for
    have hnone : ∀ c, sep' c = false := by
      intro c
      by_contra hc
      have hlength := (hsep' c (by simpa using hc)).2
      exact (splitFrom_joined hparts).ne_nil (by simpa using hlength)
    simp only [Bool.and_eq_true, decide_eq_true_eq] at hsep
    rw [depth_char, if_neg hopen, if_neg hclose, hnone, hsep.1]
    exact ih hparts (by simp [hnone])
  | case9 => cases h
  | case10 d current c ps hopen hclose hsep ih =>
    have hsep'' : ¬ (d = 0 && sep' c) = true := by
      simp only [Bool.and_eq_true] at hsep ⊢
      exact fun hboth => hsep ⟨hboth.1, (hsep' c hboth.2).1⟩
    rw [depth_char, if_neg hopen, if_neg hclose, if_neg hsep'']
    exact ih h hsep'

/-- A text that is one part is closed. -/
theorem splitFrom_single {text : List Char} {sep : Char → Bool} {unclosed : Bool} {d : Nat} {current : List Char}
    {ps : List Piece} {t : List Char} (h : splitFrom text sep unclosed d current ps = .ok [t]) :
    levels sep d ps = some 0 :=
  splitFrom_levels h fun _ hc => ⟨hc, rfl⟩

namespace Joined

variable {sep : Char → Bool} {parts : List (List Char)} {t : List Char}

theorem length_le (h : Joined sep parts t) : ∀ part ∈ parts, part.length ≤ t.length := by
  induction h with
  | last t => simp
  | cons t hc h ih =>
    simp only [List.mem_cons, List.length_append, List.length_cons]
    rintro part (rfl | hpart)
    · omega
    · have hpart := ih part hpart
      omega

theorem length_lt (h : Joined sep parts t) (htwo : 2 ≤ parts.length) : ∀ part ∈ parts, part.length < t.length := by
  cases h with
  | last => simp at htwo
  | cons t hc h =>
    simp only [List.mem_cons, List.length_append, List.length_cons]
    rintro part (rfl | hpart)
    · omega
    · have hpart := h.length_le part hpart
      omega

/-- Between empty parts there are only separators. -/
theorem all_sep (h : Joined sep parts t) (hempty : ∀ part ∈ parts, part = []) : ∀ c ∈ t, sep c = true := by
  induction h with
  | last t => simp [hempty t (by simp)]
  | cons t hc h ih =>
    have hfirst := hempty t (by simp)
    have hrest := ih fun part hpart => hempty part (by simp [hpart])
    simpa [hfirst, hc] using hrest

/-- A text without separators at its ends and with only one part that is not empty is that part. -/
theorem eq_single (h : Joined sep parts t) (hhead : ∀ c ∈ t.head?, sep c = false)
    (hlast : ∀ c ∈ t.getLast?, sep c = false) {term : List Char}
    (hterm : (parts.filter fun part => !part.isEmpty) = [term]) : parts = [t] ∧ term = t := by
  cases h with
  | last =>
    have hmem : term ∈ [t].filter fun part => !part.isEmpty := by simp [hterm]
    exact ⟨rfl, by simpa using (List.mem_filter.1 hmem).1⟩
  | @cons t c ts u hc h =>
    have hne : t ≠ [] := by
      rintro rfl
      exact absurd (hhead c (by simp)) (by simp [hc])
    have hempty : ∀ part ∈ ts, part = [] := by
      rw [List.filter_cons_of_pos (by simpa using hne)] at hterm
      simpa using (List.cons.inj hterm).2
    have hall : ∀ d ∈ c :: u, sep d = true := by
      simp only [List.mem_cons]
      rintro d (rfl | hd)
      · exact hc
      · exact h.all_sep hempty d hd
    have hend : (t ++ c :: u).getLast? = some ((c :: u).getLast (by simp)) := by
      rw [List.getLast?_append_of_ne_nil _ (by simp), List.getLast?_eq_some_getLast]
    have hsep := hall _ (List.getLast_mem (by simp))
    exact absurd (hlast _ (by rw [hend]; rfl)) (by simp [hsep])

end Joined

/-! ## Terms with blanks between them -/

/-- A text that stands as one term. Its parentheses need not pair up with each other, only with brackets of
either kind. -/
structure Single (t : List Char) : Prop where
  cut : splitTop isBlank t = .ok [t]
  trimmed : trimBlank t = t
  nonempty : t ≠ []

theorem Single.ends {t : List Char} (h : Single t) :
    (∀ c ∈ t.head?, isBlank c = false) ∧ ∀ c ∈ t.getLast?, isBlank c = false := by
  have hends := trimBlank_ends t
  rwa [h.trimmed] at hends

theorem splitTop_spaced : ∀ {ts : List (List Char)}, ts ≠ [] → (∀ t ∈ ts, Single t) →
    splitTop isBlank ([' '].intercalate ts) = .ok ts
  | [t], _, h => by simpa using (h t (by simp)).cut
  | t :: u :: ts, _, h => by
    have hrest : ∀ v ∈ u :: ts, Single v := fun v hv => h v (List.mem_cons_of_mem t hv)
    have hcut := splitTop_spaced (by simp) hrest
    have ht := (h t (by simp)).cut
    rw [List.intercalate_cons_cons, List.append_assoc, List.singleton_append]
    exact splitTop_cons (splitTop_joined ht).1 (splitFrom_single ht) (Or.inl (by decide)) (by decide) hcut

theorem head?_spaced {x : List Char} (hx : x ≠ []) (xs : List (List Char)) :
    ([' '].intercalate (x :: xs)).head? = x.head? := by
  cases xs with
  | nil => simp
  | cons y ys => rw [List.intercalate_cons_cons, List.append_assoc, List.head?_append_of_ne_nil _ hx]

theorem getLast?_spaced : ∀ {x : List Char} {xs : List (List Char)}, (∀ t ∈ x :: xs, Single t) →
    ∃ t ∈ x :: xs, ([' '].intercalate (x :: xs)).getLast? = t.getLast?
  | x, [], _ => ⟨x, by simp, by simp⟩
  | x, y :: ys, h => by
    have hrest : ∀ t ∈ y :: ys, Single t := fun t ht => h t (List.mem_cons_of_mem x ht)
    obtain ⟨t, ht, heq⟩ := getLast?_spaced hrest
    have hne : [' '].intercalate (y :: ys) ≠ [] := fun hnil => by
      rw [hnil, List.getLast?_nil] at heq
      exact (hrest t ht).nonempty (List.getLast?_eq_none_iff.1 heq.symm)
    refine ⟨t, List.mem_cons_of_mem x ht, ?_⟩
    rw [List.intercalate_cons_cons, List.getLast?_append_of_ne_nil _ hne, heq]

/-- Terms with blanks between them have no blank at the ends. -/
theorem trimBlank_spaced {x : List Char} {xs : List (List Char)} (h : ∀ t ∈ x :: xs, Single t) :
    trimBlank ([' '].intercalate (x :: xs)) = [' '].intercalate (x :: xs) := by
  have hfirst := h x (by simp)
  obtain ⟨t, ht, hlast⟩ := getLast?_spaced h
  refine trimBlank_eq_self ?_ ?_
  · rw [head?_spaced hfirst.nonempty]
    exact hfirst.ends.1
  · rw [hlast]
    exact (h t ht).ends.2

theorem length_lt_spaced {x : List Char} {xs : List (List Char)} (h : ∀ t ∈ x :: xs, Single t) (hxs : xs ≠ []) :
    ∀ t ∈ x :: xs, t.length < ([' '].intercalate (x :: xs)).length := by
  have hjoined := (splitTop_joined (splitTop_spaced (by simp) h)).2
  have hsome := List.length_pos_iff.2 hxs
  exact hjoined.length_lt (by rw [List.length_cons]; omega)

theorem spaced_ne_nil {x : List Char} {xs : List (List Char)} (h : ∀ t ∈ x :: xs, Single t) (hxs : xs ≠ []) :
    [' '].intercalate (x :: xs) ≠ [] := fun hnil => by
  have hlt := length_lt_spaced h hxs x (by simp)
  simp [hnil] at hlt

end Text

/-! ## Words -/

namespace Term

/-- A text that is read as a name. -/
structure Word (cs : List Char) : Prop where
  trimmed : Text.trimBlank cs = cs
  nonempty : cs ≠ []
  plain : cs.head? ≠ some '$' ∧ cs.head? ≠ some '!'
  literal : Literal.read? cs = .ok none
  cut : Text.splitTop Text.isBlank cs = .ok [cs]
  bare : Text.enclosed? cs = .ok none
  name : isName cs = true

/-- What is no tuple and no hole is read as a literal or by its terms. -/
theorem readWithin_plain {text : List Char} (htrim : Text.trimBlank text = text) (hne : text ≠ [])
    (hplain : text.head? ≠ some '$' ∧ text.head? ≠ some '!') (whole : String) (d : Nat) :
    readWithin whole (d + 1) text =
      match Literal.read? text with
      | .error e => .fault e
      | .ok (some l) => .literal l
      | .ok none => ofTerms (readWithin whole d) whole text := by
  unfold readWithin
  dsimp only
  rw [htrim]
  split
  · exact absurd rfl hne
  · exact absurd rfl hplain.1
  · exact absurd rfl hplain.2
  · exact absurd rfl hplain.1
  · rfl

/-- Terms with blanks between them are an application, unless they are a literal together. -/
theorem readWithin_spaced {x : List Char} {xs : List (List Char)} (h : ∀ t ∈ x :: xs, Text.Single t) (hxs : xs ≠ [])
    (hplain : x.head? ≠ some '$' ∧ x.head? ≠ some '!')
    (hliteral : Literal.read? ([' '].intercalate (x :: xs)) = .ok none) (whole : String) (d : Nat) :
    readWithin whole (d + 1) ([' '].intercalate (x :: xs)) =
      ofApplication (readWithin whole d) whole ([' '].intercalate (x :: xs)) x xs := by
  have hhead := Text.head?_spaced (h x (by simp)).nonempty xs
  have hfilter : ((x :: xs).filter fun part => !part.isEmpty) = x :: xs :=
    List.filter_eq_self.2 fun t ht => by simpa using (h t ht).nonempty
  rw [readWithin_plain (Text.trimBlank_spaced h) (Text.spaced_ne_nil h hxs) (by rwa [hhead]), hliteral]
  simp only [ofTerms, Text.splitTop_spaced (by simp) h, hfilter]

theorem Word.read {cs : List Char} (h : Word cs) (whole : String) (d : Nat) :
    readWithin whole (d + 1) cs = .symbol (String.ofList cs) := by
  rw [readWithin_plain h.trimmed h.nonempty h.plain, h.literal]
  simp [ofTerms, h.cut, h.nonempty, h.bare, ofName, h.name]

/-- The only term of a text that is read by its terms is a word, unless it is enclosed. -/
theorem word_of_term {text : List Char} (hends : (∀ c ∈ text.head?, Text.isBlank c = false) ∧
      ∀ c ∈ text.getLast?, Text.isBlank c = false) (hne : text ≠ [])
    (hplain : text.head? ≠ some '$' ∧ text.head? ≠ some '!') (hliteral : Literal.read? text = .ok none)
    {parts : List (List Char)} (hparts : Text.splitTop Text.isBlank text = .ok parts) {term : List Char}
    (hterm : (parts.filter fun part => !part.isEmpty) = [term]) (hbare : Text.enclosed? term = .ok none)
    (hname : isName term = true) : Word term := by
  obtain ⟨rfl, rfl⟩ := (Text.splitTop_joined hparts).2.eq_single hends.1 hends.2 hterm
  exact ⟨Text.trimBlank_eq_self hends.1 hends.2, hne, hplain, hliteral, hparts, hbare, hname⟩

theorem Word.closed {cs : List Char} (h : Word cs) (hparens : Text.parens 0 (Text.pieces cs).list = some 0) :
    Text.Closed Text.isBlank cs :=
  ⟨(Text.splitTop_joined h.cut).1, Text.splitFrom_single h.cut, hparens⟩

/-- The head and the arguments of an application are among its terms. -/
theorem arrange_mem {x : List Char} {xs : List (List Char)} {op : List Char} {given : List (Nat × List Char)}
    (h : arrange x xs = (op, given)) : op ∈ x :: xs ∧ ∀ g ∈ given, g.2 ∈ x :: xs := by
  unfold arrange at h
  split at h
  · split at h
    · cases h
      simp
    · split at h <;> cases h <;> simp
  · split at h <;> cases h <;> simp
  · cases h
    refine ⟨by simp, fun g hg => ?_⟩
    obtain ⟨a, ha, rfl⟩ := List.mem_map.1 hg
    exact List.mem_cons_of_mem _ (List.fst_mem_of_mem_zipIdx ha)

end Term

end Dataflow
