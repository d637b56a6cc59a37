import Dataflow.Proofs.ReadBack
import Dataflow.Proofs.Senses

/-!
# Application text

`f x y` should mean the function `f` applied to what `x` and `y` mean, and `x + y` the operator applied
to what stands at its sides. `Resolver.meaning_application` says what such texts mean, and so when they
mean that. Two guesses of the reader go wrong. Of two or three terms the second is taken for an operator
if it has operator characters only, and `()`, `"+"` and `(+)` have. A text that begins and ends with the
same quote is taken for one literal, also where it is `"a" == "b"`.
-/

namespace Dataflow

/-! ## Identifiers -/

theorem Literal.number?_point (t : List Char) : number? ('.' :: t) = none := by
  have hnatural : Decimal.natural? ('.' :: t) = none := by
    simp [Decimal.natural?, show Decimal.isDigit '.' = false by decide]
  have hpoint : point? ('.' :: t) = none := by
    simp [point?, Text.splitOnce, Text.dropStart?, Decimal.natural?]
  simp [number?, hnatural, hpoint]

namespace Text

theorem ranges_apart : ∀ r ∈ blankRanges, ∀ s ∈ alphanumericRanges, r.2 < s.1 ∨ s.2 < r.1 := by decide +kernel

theorem isBlank_of_isAlphanumeric {c : Char} (h : isAlphanumeric c = true) : isBlank c = false := by
  unfold isAlphanumeric at h
  unfold isBlank
  split
  · rename_i hascii
    rw [if_pos hascii] at h
    have hcode : c.toNat = c.val.toNat := rfl
    have hspace : c ≠ ' ' := by
      rintro rfl
      revert h
      decide
    have hcontrol : ¬ (9 ≤ c.toNat ∧ c.toNat ≤ 13) := by
      delta Char.isAlphanum Char.isAlpha Char.isUpper Char.isLower Char.isDigit at h
      simp [UInt32.le_iff_toNat_le] at h
      omega
    simpa [hspace] using hcontrol
  · rename_i hascii
    rw [if_neg hascii] at h
    obtain ⟨s, hs, hlow, hhigh⟩ := inRanges_iff.1 h
    rw [← Bool.not_eq_true]
    intro hblank
    obtain ⟨r, hr, hlow', hhigh'⟩ := inRanges_iff.1 hblank
    rcases ranges_apart r hr s hs with hlt | hlt <;> omega

end Text

namespace Term

/-- The characters of names that are no operators. -/
def isNameChar (c : Char) : Bool := Text.isAlphanumeric c || c = '_' || c = '\'' || c = '.'

/-- A name of letters, digits and marks. It does not begin with a digit or a quote and is not one of the
literals. -/
def isIdentifier (cs : List Char) : Bool :=
  !cs.isEmpty && cs.all isNameChar && !cs.head?.any (fun c => Decimal.isDigit c || c = '\'') &&
    !isOperatorName (String.ofList cs) && cs ∉ ["True".toList, "False".toList]

theorem isNameChar_facts {c : Char} (h : isNameChar c = true) :
    Text.isBlank c = false ∧ c ∉ ['(', '[', ')', ']', '"', '$', '!', '-'] := by
  refine ⟨?_, fun hmem => ?_⟩
  · simp only [isNameChar, Bool.or_eq_true, decide_eq_true_eq] at h
    rcases h with ((h | rfl) | rfl) | rfl
    · exact Text.isBlank_of_isAlphanumeric h
    all_goals decide
  · simp only [List.mem_cons, List.not_mem_nil, or_false] at hmem
    rcases hmem with rfl | rfl | rfl | rfl | rfl | rfl | rfl | rfl <;> revert h <;> decide

/-- Behind a character of a name a single quote opens nothing. -/
theorem piecesFrom_name {before : Char} (hbefore : isNameChar before = true) {t : List Char}
    (ht : ∀ c ∈ t, isNameChar c = true) : Text.piecesFrom (.outside (some before)) t = ⟨t.map .char, false⟩ := by
  induction t generalizing before with
  | nil => rfl
  | cons c t ih =>
    have hc := ht c (by simp)
    have hopens : Text.opensQuote (some before) c = false := by
      obtain ⟨hblank, hmem⟩ := isNameChar_facts hbefore
      have hcomma : before ≠ ',' := by
        rintro rfl
        revert hbefore
        decide
      have hquote := (isNameChar_facts hc).2
      simp only [List.mem_cons, not_or] at hmem hquote
      simp [Text.opensQuote, hblank, hcomma, hmem.1, hquote.2.2.2.2.1]
    rw [Text.piecesFrom, hopens]
    simp [ih hc fun c hc => ht c (List.mem_cons_of_mem _ hc)]

theorem isIdentifier_cons {c : Char} {t : List Char} (h : isIdentifier (c :: t) = true) :
    (∀ d ∈ c :: t, isNameChar d = true) ∧ Decimal.isDigit c = false ∧ c ≠ '\'' ∧
      isOperatorName (String.ofList (c :: t)) = false ∧ c :: t ∉ ["True".toList, "False".toList] := by
  simp only [isIdentifier, Bool.and_eq_true, Bool.not_eq_true', List.all_eq_true, List.head?_cons, Option.any_some,
    Bool.or_eq_false_iff, decide_eq_false_iff_not, decide_eq_true_eq] at h
  obtain ⟨⟨⟨⟨_, hchars⟩, hdigit, hquote⟩, hop⟩, hword⟩ := h
  exact ⟨hchars, hdigit, hquote, hop, hword⟩

theorem identifier_closed {c : Char} {t : List Char} (h : isIdentifier (c :: t) = true) :
    Text.Closed Text.isBlank (c :: t) := by
  obtain ⟨hchars, _, hquote, _⟩ := isIdentifier_cons h
  have hc := hchars c (by simp)
  have hpieces : Text.pieces (c :: t) = ⟨(c :: t).map .char, false⟩ := by
    have hrest := piecesFrom_name hc fun c hc => hchars c (List.mem_cons_of_mem _ hc)
    have hmem := (isNameChar_facts hc).2
    simp only [List.mem_cons, not_or] at hmem
    have hopens : Text.opensQuote none c = false := by simp [Text.opensQuote, hquote, hmem]
    rw [Text.pieces, Text.piecesFrom, hopens, hrest]
    rfl
  refine Text.closed_of_chars hpieces fun d hd => ?_
  obtain ⟨hblank, hmem⟩ := isNameChar_facts (hchars d hd)
  simp only [List.mem_cons, List.not_mem_nil, or_false, not_or] at hmem ⊢
  exact ⟨⟨hmem.1, hmem.2.1, hmem.2.2.1, hmem.2.2.2.1⟩, hblank⟩

theorem identifier_not_literal {c : Char} {t : List Char} (h : isIdentifier (c :: t) = true) :
    Literal.read? (c :: t) = .ok none := by
  obtain ⟨hchars, hdigit, hquote, _, hword⟩ := isIdentifier_cons h
  have hmem := (isNameChar_facts (hchars c (by simp))).2
  simp only [List.mem_cons, List.not_mem_nil, or_false, not_or] at hmem
  have hnumber : Literal.number? (c :: t) = none := by
    -- of the characters of names only the point is also one of numbers and no digit
    by_cases hpoint : c = '.'
    · rw [hpoint, Literal.number?_point]
    · exact Literal.number?_eq_none (c := c) (by simp) (by simp [Literal.isNumeric, hdigit, hpoint, hmem])
  rw [Literal.read?_of_ne (by simpa [hmem] using hword), hnumber, Literal.negative?,
    Literal.unwrap?_eq_none (by simp [hmem]), Literal.quoted?, Literal.unwrap?_eq_none (by simp [hquote]),
    Literal.quoted?, Literal.unwrap?_eq_none (by simp [hmem])]
  rfl

/-- An identifier is read as a name. -/
theorem word_of_identifier {cs : List Char} (h : isIdentifier cs = true) : Word cs ∧ Text.Closed Text.isBlank cs := by
  obtain ⟨c, t, rfl⟩ : ∃ c t, cs = c :: t := by
    cases cs with
    | nil => cases h
    | cons c t => exact ⟨c, t, rfl⟩
  obtain ⟨hchars, hdigit, _⟩ := isIdentifier_cons h
  have hclosed := identifier_closed h
  have hmem := (isNameChar_facts (hchars c (by simp))).2
  simp only [List.mem_cons, List.not_mem_nil, or_false, not_or] at hmem
  have htrim : Text.trimBlank (c :: t) = c :: t :=
    Text.trimBlank_eq_self (fun d hd => (isNameChar_facts (hchars d (List.mem_of_mem_head? hd))).1)
      fun d hd => (isNameChar_facts (hchars d (List.mem_of_mem_getLast? hd))).1
  have hname : isName (c :: t) = true := by
    have hall : (c :: t).all isNameChar = true := List.all_eq_true.2 hchars
    unfold isNameChar at hall
    simp only [isName, hall, List.head?_cons, Option.any_some, hdigit]
    rfl
  exact ⟨⟨htrim, by simp, by simp [hmem], identifier_not_literal h, hclosed.splitTop, by simp [Text.enclosed?, hmem], hname⟩,
    hclosed⟩

theorem identifier_not_quoted {cs rest : List Char} (h : isIdentifier cs = true) : ¬ IsQuoted (cs ++ rest) := by
  cases cs with
  | nil => cases h
  | cons c t =>
    obtain ⟨hchars, _, hquote, _⟩ := isIdentifier_cons h
    have hmem := (isNameChar_facts (hchars c (by simp))).2
    simp only [List.mem_cons, not_or] at hmem
    simp [IsQuoted, hquote, hmem]

theorem identifier_not_infix {cs : List Char} (h : isIdentifier cs = true) : isInfix cs = false := by
  simp only [isIdentifier, Bool.and_eq_true, Bool.not_eq_true'] at h
  rw [isInfix, h.1.2, Bool.and_false]

end Term

/-! ## Operands -/

namespace Literal

/-- A literal is a word, a number, or stands in parentheses or quotes. -/
theorem read?_shape {t : List Char} {l : Literal} (h : read? t = .ok (some l)) :
    t ∈ ["()".toList, "True".toList, "False".toList] ∨ (∃ l, number? t = some l) ∨
      ∃ first inner last, t = first :: inner ++ [last] ∧ (first, last) ∈ [('(', ')'), ('\'', '\''), ('"', '"')] := by
  have hquoted : ∀ quote inside, quoted? quote t = some inside → ∃ inner, t = quote :: inner ++ [quote] := by
    intro quote inside hinside
    obtain ⟨inner, hinner, _⟩ := Option.map_eq_some_iff.1 hinside
    exact ⟨inner, unwrap?_ok hinner⟩
  by_cases hword : t ∈ ["()".toList, "True".toList, "False".toList]
  · exact Or.inl hword
  rw [read?_of_ne hword] at h
  refine Or.inr ?_
  split at h
  · rename_i number hnumber
    rcases Option.or_eq_some_iff.1 hnumber with hnumber | ⟨_, hnegative⟩
    · exact Or.inl ⟨number, hnumber⟩
    · unfold negative? at hnegative
      split at hnegative
      · rename_i inner hinner
        exact Or.inr ⟨'(', inner, ')', unwrap?_ok hinner, by simp⟩
      · cases hnegative
  · refine Or.inr ?_
    split at h
    · cases h
    · rename_i hsingle
      obtain ⟨inner, hinner⟩ := hquoted _ _ hsingle
      exact ⟨_, inner, _, hinner, by simp⟩
    · cases h
    · cases h
    · rename_i hdouble
      obtain ⟨inner, hinner⟩ := hquoted _ _ hdouble
      exact ⟨_, inner, _, hinner, by simp⟩
    · cases h

theorem writtenAs_of_read? {t : List Char} {l : Literal} (h : read? t = .ok (some l))
    (hclosed : Text.Closed Text.isBlank t) : l.WrittenAs t := by
  rcases read?_shape h with hword | ⟨l', hnumber⟩ | ⟨first, inner, last, rfl, hends⟩
  · simp only [List.mem_cons, List.not_mem_nil, or_false] at hword
    rcases hword with rfl | rfl | rfl <;> exact ⟨h, hclosed, by decide, by decide, by decide⟩
  · have hwritten := writtenAs_number hnumber
    exact ⟨h, hclosed, hwritten.trimmed, hwritten.nonempty, hwritten.plain⟩
  · simp only [List.mem_cons, List.not_mem_nil, or_false, Prod.mk.injEq] at hends
    have hblank : Text.isBlank first = false ∧ Text.isBlank last = false := by
      rcases hends with ⟨rfl, rfl⟩ | ⟨rfl, rfl⟩ | ⟨rfl, rfl⟩ <;> decide
    have hplain : first ≠ '$' ∧ first ≠ '!' := by
      rcases hends with ⟨rfl, _⟩ | ⟨rfl, _⟩ | ⟨rfl, _⟩ <;> decide
    exact ⟨h, hclosed, Text.trimBlank_between hblank.1 hblank.2 inner, by simp, by simpa using hplain⟩

theorem isQuoted_shape {t : List Char} (h : IsQuoted t) (htwo : 2 ≤ t.length) :
    ∃ quote inner, t = quote :: inner ++ [quote] ∧ (quote = '\'' ∨ quote = '"') := by
  obtain ⟨quote, hhead, hlast, hquote⟩ : ∃ quote, t.head? = some quote ∧ t.getLast? = some quote ∧
      (quote = '\'' ∨ quote = '"') := by
    rcases h with h | h
    · exact ⟨_, h.1, h.2, Or.inl rfl⟩
    · exact ⟨_, h.1, h.2, Or.inr rfl⟩
  obtain ⟨rest, rfl⟩ : ∃ rest, t = quote :: rest := ⟨t.tail, List.eq_cons_of_mem_head? hhead⟩
  have hrest : rest ≠ [] := by
    rintro rfl
    simp at htwo
  rw [← List.singleton_append, List.getLast?_append_of_ne_nil _ hrest] at hlast
  exact ⟨quote, rest.dropLast, by rw [List.cons_append, List.dropLast_append_getLast? quote hlast], hquote⟩

/-- What begins and ends with the same quote is a literal or a fault. -/
theorem read?_quoted {t : List Char} (h : IsQuoted t) (htwo : 2 ≤ t.length) :
    read? t ≠ .ok none ∧ Text.trimBlank t = t ∧ t.head? ≠ some '$' ∧ t.head? ≠ some '!' := by
  obtain ⟨quote, inner, rfl, hquote⟩ := isQuoted_shape h htwo
  have hblank : Text.isBlank quote = false := by rcases hquote with rfl | rfl <;> decide
  refine ⟨?_, Text.trimBlank_between hblank hblank inner, ?_⟩
  · have hsome : quoted? quote (quote :: inner ++ [quote]) ≠ none := by
      rw [quoted?, unwrap?_enclose]
      simp
    obtain ⟨hnumber, hnegative, hword⟩ := read?_quote hquote (inner ++ [quote])
    rw [List.cons_append] at hsome ⊢
    rw [read?_of_ne hword, hnumber, hnegative]
    dsimp only [Option.or]
    split
    · simp
    · simp
    · simp
    · simp
    · simp
    · rename_i hsingle hdouble
      rcases hquote with rfl | rfl
      · exact absurd hsingle hsome
      · exact absurd hdouble hsome
  · rcases hquote with rfl | rfl <;> simp

end Literal

/-- What stands as one term: an identifier, a literal, or a text in parentheses whose own brackets and quotes
are closed. -/
inductive IsOperand : List Char → Prop where
  | identifier {t : List Char} (h : Term.isIdentifier t = true) : IsOperand t
  | literal {t : List Char} {l : Literal} (h : Literal.read? t = .ok (some l)) (hclosed : Text.Closed Text.isBlank t) :
      IsOperand t
  | group {t : List Char} (hclosed : Text.Closed (fun _ => false) t) : IsOperand ('(' :: t ++ [')'])

theorem IsOperand.isTerm {t : List Char} (h : IsOperand t) : IsTerm t ∧ t.head? ≠ some '$' ∧ t.head? ≠ some '!' := by
  cases h with
  | identifier h =>
    obtain ⟨hword, hclosed⟩ := Term.word_of_identifier h
    exact ⟨⟨hclosed, hword.trimmed, hword.nonempty⟩, hword.plain⟩
  | literal h hclosed =>
    have hwritten := Literal.writtenAs_of_read? h hclosed
    exact ⟨⟨hclosed, hwritten.trimmed, hwritten.nonempty⟩, hwritten.plain⟩
  | group hclosed => exact ⟨⟨hclosed.enclose, Text.trimBlank_between (by decide) (by decide) _, by simp⟩, by simp⟩

/-! ## Applications -/

/-- Every item with its position. -/
def positions {α : Type} (l : List α) : List (Nat × α) := l.zipIdx.map Prod.swap

theorem mem_positions {α : Type} {l : List α} {g : Nat × α} : g ∈ positions l ↔ l[g.1]? = some g.2 := by
  constructor
  · intro hg
    obtain ⟨y, hy, rfl⟩ := List.mem_map.1 hg
    simpa [List.mem_zipIdx_iff_getElem?] using hy
  · intro hg
    exact List.mem_map.2 ⟨(g.2, g.1), by simpa [List.mem_zipIdx_iff_getElem?] using hg, rfl⟩

theorem forall_positions_lt {α : Type} {l : List α} {n : Nat} : (∀ g ∈ positions l, g.1 < n) ↔ l.length ≤ n := by
  constructor
  · intro h
    by_contra hlt
    have hlast : n < l.length := by omega
    exact Nat.lt_irrefl n (h (n, l[n]) (mem_positions.2 (List.getElem?_eq_getElem hlast)))
  · intro h g hg
    have hlt := (List.getElem?_eq_some_iff.1 (mem_positions.1 hg)).1
    omega

theorem positions_map {α β : Type} (f : α → β) (l : List α) :
    positions (l.map f) = (positions l).map fun g => (g.1, f g.2) := by
  simp [positions, List.zipIdx_map, Function.comp_def]

theorem mapM_zipIdx {m : Type → Type} [Monad m] [LawfulMonad m] {α β : Type} (f : α → m β) (k : Nat) (l : List α) :
    (l.zipIdx k).mapM (fun g => (g.2, ·) <$> f g.1) = (fun bs => (bs.zipIdx k).map Prod.swap) <$> l.mapM f := by
  induction l generalizing k with
  | nil => simp
  | cons a l ih => simp [ih]

theorem mapM_positions {m : Type → Type} [Monad m] [LawfulMonad m] {α β : Type} (f : α → m β) (l : List α) :
    (positions l).mapM (fun g => (g.1, ·) <$> f g.2) = positions <$> l.mapM f := by
  rw [positions, List.mapM_map]
  exact mapM_zipIdx f 0 l

namespace Resolver

variable {m : Type → Type} [Monad m]

/-- A head applied to texts, each of which means what it means alone. The head has a parameter for each. -/
def applied (find : Resolver m) (head : OptionT m Morphism) (terms : List String) : OptionT m Morphism := do
  let f ← head
  guard (terms.length ≤ f.arity)
  let args ← terms.mapM find.meaning
  (f.bind (positions args)).toOption.getM

variable [LawfulMonad m] {find : Resolver m}

/-- A head with its arguments in order is an application, if each of them means here what it means alone. -/
theorem sense_application {whole text : String} {read : List Char → Term} {op : String} {args : List String}
    (hpart : ∀ t ∈ op :: args, Term.sense find whole (read t.toList) = find.meaning t) (hargs : args ≠ []) :
    Term.sense find whole (.apply text op (read op.toList) (positions args)
      ((positions args).map fun g => (g.1, read g.2.toList))) = find.applied (find.meaning op) args := by
  have hmapM : ((positions args).map fun g => (g.1, read g.2.toList)).mapM
      (fun g => (g.1, ·) <$> Term.sense find whole g.2) = positions <$> args.mapM find.meaning := by
    rw [List.mapM_map, ← mapM_congr fun t ht => hpart t (List.mem_cons_of_mem op ht)]
    exact mapM_positions (fun t => Term.sense find whole (read t.toList)) args
  rw [Term.sense_apply, hmapM, hpart op (by simp), applied]
  refine bind_congr fun f => ?_
  rw [guard, guard, if_congr forall_positions_lt rfl rfl]
  refine bind_congr fun _ => ?_
  obtain ⟨a, as, rfl⟩ := List.exists_cons_of_ne_nil hargs
  simp [positions]

/-- Terms that are arranged as a head and arguments in order are an application. -/
theorem meaning_arranged {x : String} {xs : List String} (hsingle : ∀ t ∈ x :: xs, Text.Single t.toList) (hxs : xs ≠ [])
    (hplain : x.toList.head? ≠ some '$' ∧ x.toList.head? ≠ some '!')
    (hliteral : Literal.read? (" ".intercalate (x :: xs)).toList = .ok none) {op : String} {args : List String}
    (harrange : Term.arrange x.toList (xs.map String.toList) = (op.toList, positions (args.map String.toList)))
    (hargs : args ≠ []) (hhole : ∀ t ∈ op :: args, t.toList.head? ≠ some '$') :
    find.meaning (" ".intercalate (x :: xs)) = find.applied (find.meaning op) args := by
  have htext : (" ".intercalate (x :: xs)).toList = [' '].intercalate (x.toList :: xs.map String.toList) :=
    String.toList_intercalate ..
  have hterms : ∀ t ∈ x.toList :: xs.map String.toList, Text.Single t := by
    intro t ht
    obtain ⟨s, hs, rfl⟩ := List.mem_map.1 (List.map_cons ▸ ht)
    exact hsingle s hs
  have hsome : xs.map String.toList ≠ [] := by simpa using hxs
  have hhead := Text.head?_spaced (hsingle x (by simp)).nonempty (xs.map String.toList)
  generalize " ".intercalate (x :: xs) = whole at htext hliteral
  -- the head and the arguments are among the terms, so they are shorter than the text
  have hmem : ∀ t ∈ op :: args, t.toList ∈ x.toList :: xs.map String.toList := by
    obtain ⟨hop, hgiven⟩ := Term.arrange_mem harrange
    refine List.forall_mem_cons.2 ⟨hop, fun t ht => ?_⟩
    obtain ⟨i, hi⟩ := List.mem_iff_getElem?.1 (List.mem_map_of_mem (f := String.toList) ht)
    exact hgiven (i, t.toList) (mem_positions.2 hi)
  have hpart : ∀ t ∈ op :: args,
      Term.sense find whole (Term.readWithin whole whole.toList.length t.toList) = find.meaning t := by
    intro t ht
    have hshort := Text.length_lt_spaced hterms hsome _ (hmem t ht)
    rw [← htext] at hshort
    exact (meaning_eq_sense (hhole t ht) (hterms _ (hmem t ht)).trimmed whole hshort).symm
  have hne : ∀ t ∈ op :: args, t.toList ≠ ['$'] := fun t ht heq => hhole t ht (by rw [heq]; rfl)
  have hfilter : ((positions (args.map String.toList)).filter fun g => g.2 ≠ ['$']) =
      positions (args.map String.toList) := by
    refine List.filter_eq_self.2 fun g hg => ?_
    obtain ⟨t, ht, heq⟩ := List.mem_map.1 (List.mem_of_getElem? (mem_positions.1 hg))
    simpa [← heq] using hne t (List.mem_cons_of_mem op ht)
  have hread : Term.readWithin whole (whole.toList.length + 1) whole.toList =
      Term.ofApplication (Term.readWithin whole whole.toList.length) whole whole.toList x.toList (xs.map String.toList) := by
    rw [htext] at hliteral ⊢
    exact Term.readWithin_spaced hterms hsome hplain hliteral _ _
  rw [meaning_eq_sense (by rw [htext, hhead]; exact hplain.1) (by rw [htext, Text.trimBlank_spaced hterms]) whole
    (Nat.lt_succ_self _), hread]
  simp only [Term.ofApplication, harrange, if_neg (hne op (by simp)), hfilter]
  simp only [positions_map, List.map_map, Function.comp_def, String.ofList_toList, List.map_id_fun', id_eq]
  exact sense_application hpart hargs

/-- A text that begins and ends with the same quote is a literal or means nothing. -/
theorem meaning_quoted {text : String} (h : IsQuoted text.toList) (htwo : 2 ≤ text.toList.length) :
    find.meaning text = ((Literal.read? text.toList).toOption.join.map Morphism.literal).getM := by
  obtain ⟨hsome, htrim, hplain⟩ := Literal.read?_quoted h htwo
  have hne : text.toList ≠ [] := List.length_pos_iff.1 (by omega)
  rw [meaning_eq_sense hplain.1 htrim text (Nat.lt_succ_self _), Term.readWithin_plain htrim hne hplain]
  match hread : Literal.read? text.toList with
  | .error e => exact Term.sense_fault e
  | .ok (some l) => exact Term.sense_literal l
  | .ok none => exact absurd hread hsome

theorem meaning_identifier {f t : String} {ts : List String} (hf : Term.isIdentifier f.toList = true)
    (hts : ∀ u ∈ t :: ts, IsOperand u.toList) : find.meaning (" ".intercalate (f :: t :: ts)) =
      if Term.isInfix t.toList = true ∧ ts.length ≤ 1 then find.applied (find.meaning t) (f :: ts)
      else find.applied (find.symbol f) (t :: ts) := by
  obtain ⟨hword, hclosed⟩ := Term.word_of_identifier hf
  have hinfix := Term.identifier_not_infix hf
  have hterm : IsTerm f.toList := ⟨hclosed, hword.trimmed, hword.nonempty⟩
  have hsingle : ∀ u ∈ f :: t :: ts, Text.Single u.toList := by
    intro u hu
    rcases List.mem_cons.1 hu with rfl | hu
    · exact hterm.single
    · exact (hts u hu).isTerm.1.single
  have hhole : ∀ u ∈ f :: t :: ts, u.toList.head? ≠ some '$' := by
    intro u hu
    rcases List.mem_cons.1 hu with rfl | hu
    · exact hword.plain.1
    · exact (hts u hu).isTerm.2.1
  have hliteral : Literal.read? (" ".intercalate (f :: t :: ts)).toList = .ok none := by
    rw [String.toList_intercalate]
    refine read?_spaced hterm (by simp) ?_
    rw [List.map_cons, List.intercalate_cons_cons, List.append_assoc]
    exact Term.identifier_not_quoted hf
  split
  · rename_i hswapped
    refine meaning_arranged hsingle (by simp) hword.plain hliteral ?_ (by simp) fun u hu => hhole u ?_
    · rcases ts with _ | ⟨r, _ | ⟨r', rest⟩⟩
      · simp [Term.arrange, positions, hinfix, hswapped.1]
      · simp [Term.arrange, positions, hswapped.1]
      · exact absurd hswapped.2 (by simp)
    · simp only [List.mem_cons] at hu ⊢
      tauto
  · rename_i happlied
    rw [← meaning_word hword]
    refine meaning_arranged hsingle (by simp) hword.plain hliteral ?_ (by simp) hhole
    rcases ts with _ | ⟨r, _ | ⟨r', rest⟩⟩
    · have hplain : Term.isInfix t.toList = false := by simpa using happlied
      simp [Term.arrange, positions, hinfix, hplain]
    · have hplain : Term.isInfix t.toList = false := by simpa using happlied
      simp [Term.arrange, positions, hplain]
    · rfl

theorem meaning_infix {l op r : String} (hl : IsOperand l.toList) (hr : IsOperand r.toList)
    (hword : Term.Word op.toList) (hop : Term.isInfix op.toList = true) : find.meaning (" ".intercalate [l, op, r]) =
      if IsQuoted (" ".intercalate [l, op, r]).toList then
        ((Literal.read? (" ".intercalate [l, op, r]).toList).toOption.join.map Morphism.literal).getM
      else find.applied (find.symbol op) [l, r] := by
  obtain ⟨hlterm, hlplain⟩ := hl.isTerm
  obtain ⟨hrterm, hrplain⟩ := hr.isTerm
  have hopSingle : Text.Single op.toList := ⟨hword.cut, hword.trimmed, hword.nonempty⟩
  split
  · rename_i hquoted
    exact meaning_quoted hquoted (by simp; omega)
  · rename_i hquoted
    have hliteral : Literal.read? (" ".intercalate [l, op, r]).toList = .ok none := by
      rw [String.toList_intercalate] at hquoted ⊢
      exact read?_spaced hlterm (by simp) hquoted
    rw [← meaning_word hword]
    refine meaning_arranged ?_ (by simp) hlplain hliteral ?_ (by simp) ?_
    · simpa using ⟨hlterm.single, hopSingle, hrterm.single⟩
    · simp [Term.arrange, positions, hop]
    · simpa using ⟨hword.plain.1, hlplain.1, hrplain.1⟩

/-- **What application text means.** An identifier in front of operands is applied to what they mean. Only if
the first of at most two operands has operator characters alone, that one is the head, and the identifier
its first argument. An operator between two operands is applied to what they mean. Only if the whole text
begins and ends with the same quote, it is a literal or means nothing. -/
theorem meaning_application (find : Resolver m) :
    (∀ (f t : String) (ts : List String), Term.isIdentifier f.toList = true → (∀ u ∈ t :: ts, IsOperand u.toList) →
      find.meaning (" ".intercalate (f :: t :: ts)) =
        if Term.isInfix t.toList = true ∧ ts.length ≤ 1 then find.applied (find.meaning t) (f :: ts)
        else find.applied (find.symbol f) (t :: ts)) ∧
    ∀ l op r : String, IsOperand l.toList → IsOperand r.toList → Term.Word op.toList → Term.isInfix op.toList = true →
      find.meaning (" ".intercalate [l, op, r]) =
        if IsQuoted (" ".intercalate [l, op, r]).toList then
          ((Literal.read? (" ".intercalate [l, op, r]).toList).toOption.join.map Morphism.literal).getM
        else find.applied (find.symbol op) [l, r] :=
  ⟨fun _ _ _ hf hts => meaning_identifier hf hts, fun _ _ _ hl hr hword hop => meaning_infix hl hr hword hop⟩

/-- A group and a literal as arguments of a function, and a text with blanks beside an operator. -/
theorem meaning_application_prelude :
    let find : Resolver Id := SymbolTable.prelude.resolver
    find.meaning "div (6 + 1) (-2)" = find.applied (find.symbol "div") ["(6 + 1)", "(-2)"] ∧
      (find.meaning "div (6 + 1) (-2)").run.map Morphism.render = some "div (6 + 1) (-2)" ∧
      find.meaning "\"a b\" == (negate \"c\")" = find.applied (find.symbol "==") ["\"a b\"", "(negate \"c\")"] ∧
      (find.meaning "\"a b\" == (negate \"c\")").run.map Morphism.render = some "\"a b\" == (negate \"c\")" := by
  intro find
  have hgroup : IsOperand "(6 + 1)".toList := .group (t := "6 + 1".toList) ⟨rfl, rfl, rfl⟩
  have hnumber : IsOperand "(-2)".toList := .literal (l := .int (-2)) rfl ⟨rfl, rfl, rfl⟩
  have htext : IsOperand "\"a b\"".toList := .literal (l := .text "a b") rfl ⟨rfl, rfl, rfl⟩
  have hnegate : IsOperand "(negate \"c\")".toList := .group (t := "negate \"c\"".toList) ⟨rfl, rfl, rfl⟩
  have hword : Term.Word "==".toList := ⟨rfl, by decide, by decide, rfl, rfl, rfl, rfl⟩
  have hdiv := (meaning_application find).1 "div" "(6 + 1)" ["(-2)"] (by decide +kernel)
    (List.forall_mem_cons.2 ⟨hgroup, List.forall_mem_singleton.2 hnumber⟩)
  have hequal := (meaning_application find).2 "\"a b\"" "==" "(negate \"c\")" htext hnegate hword (by decide +kernel)
  rw [if_neg (by decide +kernel)] at hdiv hequal
  exact ⟨hdiv, by decide +kernel, hequal, by decide +kernel⟩

/-- The application is a morphism, and its text does not mean it. -/
def Misread (table : SymbolTable) (text head : String) (terms : List String) : Prop :=
  let find : Resolver Id := table.resolver
  ∃ f, (find.applied (find.symbol head) terms).run = some f ∧ (find.meaning text).run ≠ some f

theorem misread_of_render {table : SymbolTable} {text head : String} {terms : List String}
    (h : let find : Resolver Id := table.resolver
      (find.applied (find.symbol head) terms).run.any (fun f =>
        (find.meaning text).run.map Morphism.render ≠ some f.render) = true) : Misread table text head terms := by
  obtain ⟨f, hf, hother⟩ := (Option.any_eq_true _ _).1 h
  refine ⟨f, hf, fun hmeaning => ?_⟩
  rw [hmeaning] at hother
  simp at hother

/-- Applications that are misread: to what has operator characters only, of an operator between two quoted
literals, and of an operator that begins with the mark of tuples. -/
theorem meaning_application_fails :
    (∀ t ∈ ["()", "(+)", "\"+\""], IsOperand t.toList ∧ Misread .prelude (" ".intercalate ["negate", t]) "negate" [t]) ∧
    (∀ x ∈ [("\"a\"", "\"b\""), ("'a'", "'b'")], IsOperand x.1.toList ∧ IsOperand x.2.toList ∧
      Misread .prelude (" ".intercalate [x.1, "==", x.2]) "==" [x.1, x.2]) ∧
    Misread (Morphism.operator "!!" [.int, .int]) "1 !! 2" "!!" ["1", "2"] := by
  have hunit : IsOperand "()".toList := .literal (l := .unit) rfl ⟨rfl, rfl, rfl⟩
  have hplus : IsOperand "(+)".toList := .group (t := "+".toList) ⟨rfl, rfl, rfl⟩
  have htext : ∀ s ∈ ["+", "a", "b"], IsOperand ("\"" ++ s ++ "\"").toList := by
    simp only [List.forall_mem_cons, List.not_mem_nil, false_implies, implies_true, and_true]
    exact ⟨.literal (l := .text "+") rfl ⟨rfl, rfl, rfl⟩, .literal (l := .text "a") rfl ⟨rfl, rfl, rfl⟩,
      .literal (l := .text "b") rfl ⟨rfl, rfl, rfl⟩⟩
  have hchar : IsOperand "'a'".toList ∧ IsOperand "'b'".toList :=
    ⟨.literal (l := .char 'a') rfl ⟨rfl, rfl, rfl⟩, .literal (l := .char 'b') rfl ⟨rfl, rfl, rfl⟩⟩
  refine ⟨?_, ?_, misread_of_render (by decide +kernel)⟩
  · refine List.forall_mem_cons.2 ⟨⟨hunit, misread_of_render (by decide +kernel)⟩, List.forall_mem_cons.2
      ⟨⟨hplus, misread_of_render (by decide +kernel)⟩, List.forall_mem_singleton.2
      ⟨htext "+" (by simp), misread_of_render (by decide +kernel)⟩⟩⟩
  · refine List.forall_mem_cons.2 ⟨⟨htext "a" (by simp), htext "b" (by simp), misread_of_render (by decide +kernel)⟩,
      List.forall_mem_singleton.2 ⟨hchar.1, hchar.2, misread_of_render (by decide +kernel)⟩⟩

end Resolver

end Dataflow
