import Dataflow.Oracle.Basic
import Dataflow.Proofs.Application
import Dataflow.Proofs.Canonical
import Dataflow.Proofs.TypeText

/-!
# Types on nodes and in declarations

The type of a node is read with the symbols of the prelude, the type in a declaration by the shape of its
names. Where the prelude gives a type, both are the same (`Ty.resolve_structural`), and so are the types
that a declaration of a symbol and an answer of a tool give with that text (`Ty.read_declared`).

Declarations are trimmed and answers are squeezed before they are read. Neither changes the tokens of a
type: `Token.Shortened` says what may happen to the gaps of a text, and `Token.Lexes.shortened` that its tokens stay.
-/

namespace Dataflow

/-! ## Names of the prelude by their shape -/

namespace Ty

/-- The types of the prelude go by the shape of their names, and so do its constructors with arguments. -/
theorem prelude_shape {x : String} {t : Ty} (h : SymbolTable.prelude.find? x = some ⟨.type, t⟩) :
    TyExpr.shape x [] = t ∧ ∀ head args, t = .con head [] → TyExpr.shape x args = .con head args := by
  have hall : ∀ entry ∈ SymbolTable.prelude.entries, entry.2.kind = .type →
      (entry.1, entry.2.ty) ∈ [("Int", int), ("Integer", int), ("Char", char), ("Bool", bool), ("Float", float),
        ("Double", float)] ∨ (entry.1, entry.2.ty) ∈ constructors.map fun x => (x, .con x []) := by decide +kernel
  have hmem := hall _ (Assoc.get?_mem h) rfl
  simp only [constructors, List.map_cons, List.map_nil, List.mem_cons, Prod.mk.injEq, List.not_mem_nil,
    or_false] at hmem
  rcases hmem with (⟨rfl, rfl⟩ | ⟨rfl, rfl⟩ | ⟨rfl, rfl⟩ | ⟨rfl, rfl⟩ | ⟨rfl, rfl⟩ | ⟨rfl, rfl⟩) |
    (⟨rfl, rfl⟩ | ⟨rfl, rfl⟩ | ⟨rfl, rfl⟩)
  all_goals refine ⟨rfl, fun head args heq => ?_⟩
  all_goals cases heq
  all_goals rfl

section
variable {σ : Type} {text : String}

/-- A name that the prelude knows means what its shape says. -/
theorem meaning_shape {x : String} {args : List Ty} {t : Ty}
    (h : Returns (Ty.meaning (SymbolTable.prelude.resolver : Resolver (StateM σ)) text x args) t) :
    TyExpr.shape x args = t := by
  rw [meaning_resolver] at h
  split at h
  · rename_i hlower
    obtain rfl := h.of_pure
    exact TyExpr.shape_var (by rw [hlower, Bool.true_or]) args
  · split at h
    · exact absurd h not_returns_throw
    · rename_i ty hfind
      obtain ⟨hbare, happlied⟩ := prelude_shape hfind
      split at h
      · obtain rfl := h.of_pure
        exact hbare
      · obtain rfl := h.of_pure
        exact happlied _ _ rfl
      · exact absurd h not_returns_throw
    · exact absurd h not_returns_throw

mutual

theorem resolve_structural : ∀ {e : TyExpr} {t : Ty},
    Returns (e.resolve (Ty.meaning (SymbolTable.prelude.resolver : Resolver (StateM σ)) text)) t → e.structural = t
  | .con x args, t, h => by
    obtain ⟨ts, hts, h⟩ := h.of_bind
    rw [TyExpr.structural_con, resolveList_structural hts]
    exact meaning_shape h
  | .unit, t, h => by
    obtain rfl := h.of_pure
    rfl
  | .tuple items, t, h => by
    obtain ⟨ts, hts, h⟩ := h.of_bind
    obtain rfl := h.of_pure
    rw [TyExpr.structural_tuple, resolveList_structural hts]
  | .list item, t, h => by
    obtain ⟨t', ht', h⟩ := h.of_bind
    obtain rfl := h.of_pure
    rw [← resolve_structural (e := item) ht']
    rfl
  | .func arg result, t, h => by
    obtain ⟨a, ha, h⟩ := h.of_bind
    obtain ⟨b, hb, h⟩ := h.of_bind
    obtain rfl := h.of_pure
    rw [← resolve_structural (e := arg) ha, ← resolve_structural (e := result) hb]
    rfl

theorem resolveList_structural : ∀ {es : List TyExpr} {ts : List Ty},
    Returns (TyExpr.resolveList (Ty.meaning (SymbolTable.prelude.resolver : Resolver (StateM σ)) text) es) ts →
      es.map TyExpr.structural = ts
  | [], ts, h => by
    obtain rfl := h.of_pure
    rfl
  | e :: es, ts, h => by
    obtain ⟨t, ht, h⟩ := h.of_bind
    obtain ⟨ts', hts', h⟩ := h.of_bind
    obtain rfl := h.of_pure
    rw [List.map_cons, resolve_structural ht, resolveList_structural hts']

end

/-- What is read with the prelude is what the tree of the text means by its shape. -/
theorem read_structural {t : Ty} (h : Returns (Ty.read (SymbolTable.prelude.resolver : Resolver (StateM σ)) text) t) :
    ∃ e, TyExpr.read text = .ok e ∧ e.structural = t := by
  unfold Ty.read at h
  split at h
  · rename_i e he
    exact ⟨e, he, resolve_structural h⟩
  · exact absurd h not_returns_throw

end

end Ty

/-! ## Gaps -/

namespace Token

theorem isBlank_of_inName {c : Char} (h : inName c = true) : Text.isBlank c = false := by
  refine (Term.isNameChar_facts ?_).1
  simp only [inName, Bool.or_eq_true, decide_eq_true_eq] at h
  simp only [Term.isNameChar, Bool.or_eq_true, decide_eq_true_eq]
  rcases h with (h | h) | h
  · have hascii : c.toNat < 128 := by
      have hcode : c.toNat = c.val.toNat := rfl
      delta Char.isAlphanum Char.isAlpha Char.isUpper Char.isLower Char.isDigit at h
      simp [UInt32.le_iff_toNat_le] at h
      omega
    rw [Text.isAlphanumeric, if_pos hascii]
    exact Or.inl (Or.inl (Or.inl h))
  · exact Or.inl (Or.inl (Or.inr h))
  · exact Or.inl (Or.inr h)

theorem isBlank_of_isGap {c : Char} (h : isGap c = true) : Text.isBlank c = true := by
  simp only [isGap, Bool.or_eq_true, decide_eq_true_eq] at h
  rcases h with (((rfl | rfl) | rfl) | rfl) | rfl <;> decide

/-- A gap does not prolong a name. -/
theorem endsName_of_isGap {c : Char} (h : isGap c = true) (cs : List Char) : EndsName (c :: cs) := by
  have hblank := isBlank_of_isGap h
  intro d hd
  cases hd
  by_contra hname
  rw [isBlank_of_inName (Bool.not_eq_false _ ▸ hname)] at hblank
  cases hblank

theorem inName_of_startsName {c : Char} (h : startsName c = true) : inName c = true := by
  simp only [startsName, Bool.or_eq_true, decide_eq_true_eq] at h
  simp only [inName, Char.isAlphanum, Bool.or_eq_true, decide_eq_true_eq]
  tauto

theorem Spelled.not_blank {u : Token} {word : List Char} (h : Spelled u word) : ∀ c ∈ word, Text.isBlank c = false := by
  cases h with
  | name hc hcs =>
    intro d hd
    rcases List.mem_cons.1 hd with rfl | hd
    · exact isBlank_of_inName (inName_of_startsName hc)
    · exact isBlank_of_inName (hcs d hd)
  | arrow | fatArrow | comma | lparen | rparen | lbracket | rbracket =>
    simp only [List.mem_cons, List.not_mem_nil, or_false, forall_eq_or_imp, forall_eq]
    decide

/-- Type text has no white space but its gaps. -/
theorem Lexes.isGap_of_isBlank {cs : List Char} {us : List Token} (h : Lexes cs us) :
    ∀ c ∈ cs, Text.isBlank c = true → isGap c = true := by
  induction h with
  | done => simp
  | gap hgap _ ih =>
    intro d hd hblank
    rcases List.mem_cons.1 hd with rfl | hd
    · exact hgap
    · exact ih d hd hblank
  | @token c cs u n us _ hfirst _ ih =>
    intro d hd hblank
    rw [← List.take_append_drop n (c :: cs), List.mem_append] at hd
    rcases hd with hd | hd
    · rw [(first?_spelled hfirst).1.not_blank d hd] at hblank
      cases hblank
    · exact ih d hd hblank

/-- The second text is the first with some gaps made shorter. None disappears but at the end. -/
inductive Shortened : List Char → List Char → Prop where
  | ends {cs : List Char} (hgaps : ∀ c ∈ cs, isGap c = true) : Shortened cs []
  | char (c : Char) {cs ds : List Char} (more : Shortened cs ds) : Shortened (c :: cs) (c :: ds)
  | gap {c d : Char} {cs ds : List Char} (hc : isGap c = true) (hd : isGap d = true) (more : Shortened cs ds) :
      Shortened (c :: cs) (d :: ds)
  | run {c d : Char} {cs ds : List Char} (hc : isGap c = true) (hd : isGap d = true) (more : Shortened (d :: cs) ds) :
      Shortened (c :: d :: cs) ds

namespace Shortened

/-- Gaps at the end may be left out. -/
theorem append_gaps (cs : List Char) {gaps : List Char} (hgaps : ∀ c ∈ gaps, isGap c = true) :
    Shortened (cs ++ gaps) cs := by
  induction cs with
  | nil => exact .ends hgaps
  | cons c cs ih => exact .char c ih

/-- A run of gaps may become one. -/
theorem append_run {cs ds : List Char} (h : Shortened cs ds) {d : Char} (hd : isGap d = true) :
    ∀ {gaps : List Char} {c : Char}, (∀ b ∈ c :: gaps, isGap b = true) → Shortened (c :: gaps ++ cs) (d :: ds)
  | [], c, hgaps => .gap (hgaps c (by simp)) hd h
  | b :: gaps, c, hgaps =>
    .run (hgaps c (by simp)) (hgaps b (by simp)) (append_run h hd fun a ha => hgaps a (List.mem_cons_of_mem c ha))

theorem isGap_of_nil {cs ds : List Char} (h : Shortened cs ds) (hds : ds = []) : ∀ c ∈ cs, isGap c = true := by
  induction h with
  | ends hgaps => exact hgaps
  | char | gap => cases hds
  | @run c d cs ds hc _ _ ih =>
    intro b hb
    rcases List.mem_cons.1 hb with rfl | hb
    · exact hc
    · exact ih hds b hb

/-- What is no gap stays as it is. -/
theorem of_word {word : List Char} (hword : ∀ c ∈ word, isGap c = false) {rest ds : List Char}
    (h : Shortened (word ++ rest) ds) : ∃ ds', ds = word ++ ds' ∧ Shortened rest ds' := by
  induction word generalizing ds with
  | nil => exact ⟨ds, rfl, h⟩
  | cons c word ih =>
    have hc := hword c (by simp)
    generalize hcs : c :: word ++ rest = cs at h
    cases h with
    | ends hgaps => simp [hgaps c (by simp [← hcs])] at hc
    | char d more =>
      obtain ⟨rfl, rfl⟩ := List.cons.inj hcs
      obtain ⟨ds', rfl, h⟩ := ih (fun d hd => hword d (List.mem_cons_of_mem c hd)) more
      exact ⟨ds', rfl, h⟩
    | gap hgap | run hgap =>
      rw [← (List.cons.inj hcs).1, hc] at hgap
      cases hgap

theorem endsName {cs ds : List Char} (h : Shortened cs ds) (hcs : EndsName cs) : EndsName ds := by
  induction h with
  | ends _ => simp [EndsName]
  | char c _ => exact hcs
  | gap _ hd _ => exact endsName_of_isGap hd _
  | run _ hd _ ih => exact ih (endsName_of_isGap hd _)

end Shortened

/-- A token is found again in front of anything that does not prolong it. -/
theorem first?_append {cs : List Char} {u : Token} {n : Nat} (h : first? cs = some (u, n)) {ds : List Char}
    (hds : EndsName (cs.drop n) → EndsName ds) : first? (cs.take n ++ ds) = some (u, n) := by
  unfold first? at h
  split at h
  case h_8 c cs _ _ _ _ _ _ _ =>
    split at h
    · rename_i hc
      cases h
      have hall : ∀ d ∈ cs.takeWhile inName, inName d = true := List.all_eq_true.1 List.all_takeWhile
      have htake : cs.take (cs.takeWhile inName).length = cs.takeWhile inName :=
        (List.prefix_iff_eq_take.1 (List.takeWhile_prefix inName)).symm
      have hdrop : cs.drop (cs.takeWhile inName).length = cs.dropWhile inName := by
        calc cs.drop (cs.takeWhile inName).length
            = (cs.takeWhile inName ++ cs.dropWhile inName).drop (cs.takeWhile inName).length := by
              rw [List.takeWhile_append_dropWhile]
          _ = cs.dropWhile inName := List.drop_left
      have hends : EndsName (cs.dropWhile inName) := by
        intro d hd
        have hnot := List.head?_dropWhile_not inName cs
        rw [Option.mem_def.1 hd] at hnot
        simpa using hnot
      rw [List.length_cons, List.drop_succ_cons, hdrop] at hds
      rw [List.length_cons, List.take_succ_cons, htake]
      exact first?_name hc hall (hds hends)
    · cases h
  case h_9 => cases h
  all_goals
    cases h
    rfl

/-- **Shorter gaps leave the tokens as they are.** -/
theorem Lexes.shortened {cs : List Char} {us : List Token} (h : Lexes cs us) :
    ∀ {ds : List Char}, Shortened cs ds → Lexes ds us := by
  induction h with
  | done =>
    intro ds hds
    cases hds
    exact .done
  | @gap c cs us hgap _ ih =>
    intro ds hds
    cases hds with
    | ends hgaps => exact ih (.ends fun d hd => hgaps d (List.mem_cons_of_mem c hd))
    | char _ more => exact .gap hgap (ih more)
    | gap _ hd more => exact .gap hd (ih more)
    | run _ _ more => exact ih more
  | @token c cs u n us hgap hfirst _ ih =>
    intro ds hds
    obtain ⟨m, rfl⟩ : ∃ m, n = m + 1 := ⟨n - 1, by have := (first?_ok hfirst).1; omega⟩
    -- the characters of the token are no gaps, so they stand in the second text too
    have hword : ∀ d ∈ (c :: cs).take (m + 1), isGap d = false := by
      intro d hd
      by_contra hblank
      have hnot := (first?_spelled hfirst).1.not_blank d hd
      rw [isBlank_of_isGap (Bool.not_eq_false _ ▸ hblank)] at hnot
      cases hnot
    rw [← List.take_append_drop (m + 1) (c :: cs)] at hds
    obtain ⟨rest, rfl, hrest⟩ := hds.of_word hword
    have hagain := first?_append hfirst hrest.endsName
    rw [List.take_succ_cons, List.cons_append] at hagain ⊢
    refine .token hgap hagain ?_
    have hlen : (cs.take m).length = m := by
      have := (first?_spelled hfirst).2
      simp only [List.length_cons] at this
      rw [List.length_take]
      omega
    rw [List.drop_succ_cons, List.drop_left' hlen]
    exact ih hrest

theorem Lexes.of_gaps {gaps cs : List Char} {us : List Token} (hgaps : ∀ c ∈ gaps, isGap c = true)
    (h : Lexes (gaps ++ cs) us) : Lexes cs us := by
  induction gaps with
  | nil => exact h
  | cons c gaps ih =>
    have hc := hgaps c (by simp)
    cases h with
    | gap _ h => exact ih (fun d hd => hgaps d (List.mem_cons_of_mem c hd)) h
    | token hgap =>
      rw [hc] at hgap
      cases hgap

end Token

/-! ## Trimming and squeezing -/

namespace Text

theorem trimBlank_split (cs : List Char) : ∃ before after, cs = before ++ (trimBlank cs ++ after) ∧
    (∀ c ∈ before, isBlank c = true) ∧ ∀ c ∈ after, isBlank c = true := by
  have hall : ∀ l : List Char, ∀ c ∈ l.takeWhile isBlank, isBlank c = true := fun l =>
    List.all_eq_true.1 List.all_takeWhile
  have hcut := List.takeWhile_append_dropWhile (p := isBlank) (l := cs)
  have hend := List.takeWhile_append_dropWhile (p := isBlank) (l := (cs.dropWhile isBlank).reverse)
  refine ⟨cs.takeWhile isBlank, ((cs.dropWhile isBlank).reverse.takeWhile isBlank).reverse, ?_, hall cs, ?_⟩
  · rw [trimBlank, ← List.reverse_append, hend, List.reverse_reverse, hcut]
  · intro c hc
    exact hall _ c (List.mem_reverse.1 hc)

/-- Of a text that ends with something, trimming takes off blanks behind it only. -/
theorem trimBlank_append {first last : Char} (hfirst : isBlank first = false) (hlast : isBlank last = false)
    (t cs : List Char) : ∃ before after, cs = before ++ after ∧ (∀ c ∈ after, isBlank c = true) ∧
      trimBlank (first :: t ++ [last] ++ cs) = first :: t ++ [last] ++ before := by
  have hcut := List.takeWhile_append_dropWhile (p := isBlank) (l := cs.reverse)
  refine ⟨(cs.reverse.dropWhile isBlank).reverse, (cs.reverse.takeWhile isBlank).reverse, ?_, fun c hc => ?_, ?_⟩
  · rw [← List.reverse_append, hcut, List.reverse_reverse]
  · exact List.all_eq_true.1 List.all_takeWhile c (List.mem_reverse.1 hc)
  · have hstart : (first :: t ++ [last] ++ cs).dropWhile isBlank = first :: t ++ [last] ++ cs := by
      simp [hfirst]
    have hback : (last :: (first :: t).reverse).dropWhile isBlank = last :: (first :: t).reverse := by
      simp [hlast]
    rw [trimBlank, hstart, List.reverse_append, List.reverse_append, List.reverse_singleton, List.singleton_append,
      List.dropWhile_append, hback]
    split
    · rename_i hempty
      simp [List.isEmpty_iff.1 hempty]
    · simp

theorem trimBlank_word {word : List Char} (hne : word ≠ []) (hword : ∀ c ∈ word, isBlank c = false) :
    trimBlank (word ++ [' ']) = word := by
  have hkeep : ∀ l : List Char, l ≠ [] → (∀ c ∈ l, isBlank c = false) → ∀ rest,
      (l ++ rest).dropWhile isBlank = l ++ rest := by
    intro l hl hnot rest
    obtain ⟨c, t, rfl⟩ := List.exists_cons_of_ne_nil hl
    rw [List.cons_append, List.dropWhile_cons_of_neg (by simp [hnot c (by simp)])]
  have hback := hkeep word.reverse (by simpa using hne) (fun c hc => hword c (List.mem_reverse.1 hc)) []
  rw [List.append_nil] at hback
  rw [trimBlank, hkeep word hne hword, List.reverse_append, List.reverse_singleton, List.singleton_append,
    List.dropWhile_cons_of_pos (by decide), hback, List.reverse_reverse]

theorem wordsFrom_append {word : List Char} (hword : ∀ c ∈ word, isBlank c = false) (current rest : List Char) :
    wordsFrom current (word ++ rest) = wordsFrom (word.reverse ++ current) rest := by
  induction word generalizing current with
  | nil => rfl
  | cons c word ih =>
    rw [List.cons_append, wordsFrom, if_neg (by simp [hword c (by simp)]),
      ih (fun d hd => hword d (List.mem_cons_of_mem c hd))]
    simp

/-- The first word of a text. -/
theorem wordsFrom_word {word : List Char} (hne : word ≠ []) (hword : ∀ c ∈ word, isBlank c = false) (rest : List Char) :
    wordsFrom [] (word ++ ' ' :: rest) = word :: wordsFrom [] rest := by
  rw [wordsFrom_append hword, List.append_nil, wordsFrom, if_pos (by decide), if_neg (by simp [hne]),
    List.reverse_reverse]

/-- Words with a blank between them are the text with its gaps made shorter, except that it begins
with no gap. -/
theorem shortened_words {cs : List Char} (hcs : ∀ c ∈ cs, isBlank c = true → Token.isGap c = true) :
    (∀ current, current ≠ [] → ∃ ds, [' '].intercalate (wordsFrom current cs) = current.reverse ++ ds ∧
      Token.Shortened cs ds) ∧
    ∃ gaps rest, cs = gaps ++ rest ∧ (∀ c ∈ gaps, Token.isGap c = true) ∧
      Token.Shortened rest ([' '].intercalate (wordsFrom [] cs)) := by
  induction cs with
  | nil =>
    refine ⟨fun current hne => ⟨[], ?_, .ends (by simp)⟩, [], [], rfl, by simp, .ends (by simp)⟩
    simp [wordsFrom, hne]
  | cons c cs ih =>
    obtain ⟨hword, gaps, rest, hrest, hgaps, hshort⟩ := ih fun d hd => hcs d (List.mem_cons_of_mem c hd)
    by_cases hblank : isBlank c = true
    · have hc := hcs c (by simp) hblank
      have hall : ∀ d ∈ c :: gaps, Token.isGap d = true := by
        intro d hd
        rcases List.mem_cons.1 hd with rfl | hd
        · exact hc
        · exact hgaps d hd
      refine ⟨fun current hne => ?_, c :: gaps, rest, by rw [hrest]; rfl, hall, ?_⟩
      · rw [wordsFrom, if_pos hblank, if_neg (by simp [hne])]
        cases hwords : wordsFrom [] cs with
        | nil =>
          -- only gaps follow
          rw [hwords] at hshort
          refine ⟨[], by simp, .ends fun d hd => ?_⟩
          rw [hrest, ← List.cons_append, List.mem_append] at hd
          exact hd.elim (hall d) (hshort.isGap_of_nil rfl d)
        | cons word words =>
          rw [hwords] at hshort
          refine ⟨' ' :: [' '].intercalate (word :: words), ?_, ?_⟩
          · rw [List.intercalate_cons_cons, List.append_assoc, List.singleton_append]
          · rw [hrest]
            exact hshort.append_run (by decide) hall
      · rw [wordsFrom, if_pos hblank]
        exact hshort
    · refine ⟨fun current _ => ?_, [], c :: cs, rfl, by simp, ?_⟩
      · obtain ⟨ds, hds, hshort⟩ := hword (c :: current) (by simp)
        refine ⟨c :: ds, ?_, .char c hshort⟩
        rw [wordsFrom, if_neg hblank, hds]
        simp
      · obtain ⟨ds, hds, hshort⟩ := hword [c] (by simp)
        rw [wordsFrom, if_neg hblank, hds]
        exact .char c hshort

/-- A text without newlines is one line. -/
theorem lines_single {s : String} (h : '\n' ∉ s.toList) : lines s = [s] := by
  have hsplit : ∀ {cs : List Char}, '\n' ∉ cs → splitAt (· = '\n') cs = [cs] := by
    intro cs hcs
    induction cs with
    | nil => rfl
    | cons c cs ih =>
      simp only [List.mem_cons, not_or] at hcs
      rw [splitAt, if_neg (by simpa using Ne.symm hcs.1), ih hcs.2]
  rw [lines, hsplit h]
  simp

/-- The first two colons are found behind a word that has none. -/
theorem splitOnce_colons {word : List Char} (h : ¬ [':', ':'] <:+: word) (rest : List Char) :
    splitOnce [':', ':'] (word ++ ' ' :: ':' :: ':' :: rest) = some (word ++ [' '], rest) := by
  induction word with
  | nil => rfl
  | cons c word ih =>
    rw [List.infix_cons_iff, not_or] at h
    have hnone : dropStart? [':', ':'] (c :: word ++ ' ' :: ':' :: ':' :: rest) = none := by
      rw [Option.eq_none_iff_forall_not_mem]
      intro after hafter
      refine h.1 ?_
      have heq := dropStart?_eq_some.1 hafter
      cases word with
      | nil => simp at heq
      | cons d word =>
        simp only [List.cons_append, List.cons.injEq] at heq
        simp [heq.1, heq.2.1]
    rw [List.cons_append] at hnone
    rw [List.cons_append, splitOnce, hnone, ih h.2]
    rfl

end Text

theorem Token.Lexes.trimBlank {cs : List Char} {us : List Token} (h : Lexes cs us) : Lexes (Text.trimBlank cs) us := by
  obtain ⟨before, after, hcs, hbefore, hafter⟩ := Text.trimBlank_split cs
  have hgap := h.isGap_of_isBlank
  rw [hcs] at h hgap
  have hrest := h.of_gaps fun c hc => hgap c (by simp [hc]) (hbefore c hc)
  exact hrest.shortened (.append_gaps _ fun c hc => hgap c (by simp [hc]) (hafter c hc))

theorem Token.Lexes.words {cs : List Char} {us : List Token} (h : Lexes cs us) :
    Lexes ([' '].intercalate (Text.wordsFrom [] cs)) us := by
  obtain ⟨gaps, rest, hcs, hgaps, hshort⟩ := (Text.shortened_words h.isGap_of_isBlank).2
  rw [hcs] at h
  exact (h.of_gaps hgaps).shortened hshort

/-! ## Declarations -/

theorem TyExpr.IsSignature.ne_nil {us : List Token} {e : TyExpr} (h : IsSignature us e) : us ≠ [] := by
  cases h with
  | plain he => exact isFunction_ne_nil he
  | context _ _ => simp

/-- A name that a declaration can give a type to. A name that is no operator stands without parentheses, and so
must not make its line a comment or the declaration of a type. -/
structure Declarable (name : String) : Prop where
  nonempty : name ≠ ""
  unbroken : name.toList.any Text.isBlank = false
  colons : ¬ [':', ':'] <:+: name.toList
  bare : isOperatorName name = false → name.toList.head? ≠ some '(' ∧ ¬ ['-', '-'] <+: name.toList ∧ name ≠ "type"

/-- The declaration of a name. An operator stands in parentheses. -/
def declaration (name text : String) : String := Ty.parenthesize (isOperatorName name) name ++ " :: " ++ text

/-- What stands before the two colons. -/
structure Heads (head : List Char) (name : String) : Prop where
  nonempty : head ≠ []
  unbroken : ∀ c ∈ head, Text.isBlank c = false
  colons : ¬ [':', ':'] <:+: head
  named : (Text.unwrap? '(' ')' head).getD head = name.toList
  filled : name ≠ ""
  plain : ¬ ['-', '-'] <+: head ∧ head ≠ ['t', 'y', 'p', 'e']

theorem Declarable.heads {name : String} (h : Declarable name) :
    Heads (Ty.parenthesize (isOperatorName name) name).toList name := by
  have hunbroken : ∀ c ∈ name.toList, Text.isBlank c = false := by simpa using h.unbroken
  cases hop : isOperatorName name with
  | false =>
    obtain ⟨hparen, hcomment, htype⟩ := h.bare hop
    refine ⟨by simpa [Ty.parenthesize] using h.nonempty, hunbroken, h.colons, ?_, h.nonempty, hcomment,
      fun heq => htype ?_⟩
    · simp [Ty.parenthesize, Literal.unwrap?_eq_none hparen]
    · exact String.toList_inj.1 heq
  | true =>
    have hhead : (Ty.parenthesize true name).toList = '(' :: name.toList ++ [')'] := by simp [Ty.parenthesize]
    rw [hhead]
    refine ⟨by simp, fun c hc => ?_, fun hcolons => ?_, ?_, h.nonempty, by simp, by simp⟩
    · simp only [List.cons_append, List.mem_cons, List.mem_append, List.not_mem_nil, or_false] at hc
      rcases hc with rfl | hc | rfl
      · decide
      · exact hunbroken c hc
      · decide
    · rw [List.cons_append, List.infix_cons_iff, List.infix_concat_iff] at hcolons
      rcases hcolons with hfirst | hlast | hinside
      · simp at hfirst
      · obtain ⟨before, hbefore⟩ := hlast
        have hend := congrArg List.getLast? hbefore
        simp at hend
      · exact h.colons hinside
    · rw [Literal.unwrap?_enclose, Option.getD_some]

namespace Heads

variable {head : List Char} {name : String} {us : List Token} {e : TyExpr}

/-- A declaration is read as the name and what its tokens say, whatever gaps there are. -/
theorem readDeclaration (h : Heads head name) {rest : List Char} (hrest : Token.Lexes rest us)
    (he : TyExpr.IsSignature us e) :
    TyExpr.readDeclaration (String.ofList (head ++ ' ' :: ':' :: ':' :: rest)) = .ok (name, e) := by
  have hread : TyExpr.read (String.ofList (Text.trimBlank rest)) = .ok e := by
    refine TyExpr.read_ok.2 ⟨us, ?_, he⟩
    rw [String.toList_ofList]
    exact hrest.trimBlank
  simp only [TyExpr.readDeclaration, String.toList_ofList, Text.splitOnce_colons h.colons,
    Text.trimBlank_word h.nonempty h.unbroken, h.named, hread]
  simp [h.filled]

/-- Nothing else that a line can be begins like a declaration. -/
theorem dropStart? (h : Heads head name) (rest : List Char) :
    Text.dropStart? ['-', '-'] (head ++ ' ' :: rest) = none ∧
      Text.dropStart? ['t', 'y', 'p', 'e', ' '] (head ++ ' ' :: rest) = none := by
  constructor
  · rw [Option.eq_none_iff_forall_not_mem]
    intro after hafter
    have heq := Text.dropStart?_eq_some.1 hafter
    refine h.plain.1 ?_
    match head, h.nonempty with
    | [c], _ => simp at heq
    | c :: d :: head, _ =>
      simp only [List.cons_append, List.cons.injEq] at heq
      simp [heq.1, heq.2.1]
  · rw [Option.eq_none_iff_forall_not_mem]
    intro after hafter
    have heq := Text.dropStart?_eq_some.1 hafter
    -- both texts have the same first word
    have hwords := congrArg (Text.wordsFrom []) heq
    have hkeyword : ∀ c ∈ ['t', 'y', 'p', 'e'], Text.isBlank c = false := by
      simp only [List.mem_cons, List.not_mem_nil, or_false, forall_eq_or_imp, forall_eq]
      decide
    have htype : ['t', 'y', 'p', 'e', ' '] ++ after = ['t', 'y', 'p', 'e'] ++ ' ' :: after := rfl
    rw [htype, Text.wordsFrom_word h.nonempty h.unbroken, Text.wordsFrom_word (by simp) hkeyword] at hwords
    exact h.plain.2 (List.cons.inj hwords).1

/-- A line that declares a name. -/
theorem readLine (h : Heads head name) {rest : List Char} (hrest : Token.Lexes rest us) (he : TyExpr.IsSignature us e) :
    SymbolTable.readLine (String.ofList (head ++ ' ' :: ':' :: ':' :: rest)) =
      .ok (some (name, .declared e.structural)) := by
  obtain ⟨first, t, rfl⟩ := List.exists_cons_of_ne_nil h.nonempty
  have hcolon : Text.isBlank ':' = false := by decide
  obtain ⟨before, after, rfl, hafter, htrim⟩ :=
    Text.trimBlank_append (h.unbroken first (by simp)) hcolon (t ++ [' ', ':']) rest
  have hline : Text.trimBlank (first :: t ++ ' ' :: ':' :: ':' :: (before ++ after)) =
      first :: t ++ ' ' :: ':' :: ':' :: before := by simpa using htrim
  have hbefore : Token.Lexes before us := hrest.shortened <|
    .append_gaps before fun c hc => hrest.isGap_of_isBlank c (by simp [hc]) (hafter c hc)
  obtain ⟨hcomment, htype⟩ := h.dropStart? (':' :: ':' :: before)
  simp only [SymbolTable.readLine, String.toList_ofList, hline, hcomment, htype, h.readDeclaration hbefore he]
  simp

/-- An answer that declares a name. -/
theorem typeSymbol? (h : Heads head name) {text : List Char} (htext : Token.Lexes text us)
    (he : TyExpr.IsSignature us e) :
    Oracle.typeSymbol? name (String.ofList (head ++ ' ' :: ':' :: ':' :: ' ' :: text)) =
      some (.declared e.structural) := by
  have hcolons : ∀ c ∈ [':', ':'], Text.isBlank c = false := by
    simp only [List.mem_cons, List.not_mem_nil, or_false, forall_eq_or_imp, forall_eq]
    decide
  have hwords : Text.wordsFrom [] (head ++ ' ' :: ':' :: ':' :: ' ' :: text) =
      head :: [':', ':'] :: Text.wordsFrom [] text := by
    rw [Text.wordsFrom_word h.nonempty h.unbroken]
    exact congrArg (head :: ·) (Text.wordsFrom_word (by simp) hcolons text)
  have hsqueeze : Text.squeeze (String.ofList (head ++ ' ' :: ':' :: ':' :: ' ' :: text)) =
      String.ofList (head ++ ' ' :: ':' :: ':' :: ' ' :: [' '].intercalate (Text.wordsFrom [] text)) := by
    refine String.toList_inj.1 ?_
    rw [Text.squeeze, String.toList_intercalate, Text.words, List.map_map, String.toList_ofList, String.toList_ofList,
      hwords]
    cases hrest : Text.wordsFrom [] text with
    | nil =>
      -- a type has a token, so there is a word
      have hnone := htext.words
      rw [hrest] at hnone
      cases hnone
      exact absurd rfl he.ne_nil
    | cons word words => simp [List.intercalate_cons_cons]
  rw [Oracle.typeSymbol?, hsqueeze, h.readDeclaration htext.words.space he]
  simp

end Heads

/-- **Types on nodes and in declarations are read alike.** A text that is the type `t` on a node is type text whose
names mean `t` by their shape, and a symbol whose declaration has that text, in a table of symbols or in the
answer of a tool, has the type `t`. -/
theorem Ty.read_declared {σ : Type} {text : String} {t : Ty}
    (h : Returns (Ty.read (SymbolTable.prelude.resolver : Resolver (StateM σ)) text) t) :
    (∃ e, TyExpr.read text = .ok e ∧ e.structural = t) ∧
    ∀ name, Declarable name →
      Oracle.typeSymbol? name (declaration name text) = some (.declared t) ∧
      ('\n' ∉ text.toList → ∀ table : SymbolTable,
        table.load (declaration name text) = (table.insert name (.declared t), .ok 1)) := by
  obtain ⟨e, he, rfl⟩ := read_structural h
  obtain ⟨us, hus, hsignature⟩ := TyExpr.read_ok.1 he
  refine ⟨⟨e, he, rfl⟩, fun name hname => ?_⟩
  have hheads := hname.heads
  have htext : declaration name text =
      String.ofList ((parenthesize (isOperatorName name) name).toList ++ ' ' :: ':' :: ':' :: ' ' :: text.toList) := by
    refine String.toList_inj.1 ?_
    simp [declaration]
  refine ⟨?_, fun hline table => ?_⟩
  · rw [htext]
    exact hheads.typeSymbol? hus hsignature
  · have hsingle : '\n' ∉ (declaration name text).toList := by
      rw [htext, String.toList_ofList]
      simp only [List.mem_append, List.mem_cons, not_or]
      refine ⟨fun hmem => ?_, by decide, by decide, by decide, by decide, hline⟩
      have hblank := hheads.unbroken _ hmem
      revert hblank
      decide
    rw [SymbolTable.load, Text.lines_single hsingle, htext, SymbolTable.loadLines,
      hheads.readLine hus.space hsignature]
    rfl

theorem Ty.exists_returns {text : String} {t : Ty}
    (h : ((Ty.read (SymbolTable.prelude.resolver : Resolver (StateM Unit)) text).run.run ()).1.toOption.any
      (fun u => decide (u = t)) = true) :
    Returns (Ty.read (SymbolTable.prelude.resolver : Resolver (StateM Unit)) text) t := by
  obtain ⟨u, hu, heq⟩ := Except.any_toOption.1 h
  obtain rfl := of_decide_eq_true heq
  exact ⟨(), (), Prod.ext hu rfl⟩

/-- A text with a context, a synonym, a list in brackets, a variable with an argument and uneven gaps, as the type
of an operator in an answer and of a name in a table. -/
theorem Ty.read_declared_loosely : ∃ t : Ty,
    t.pretty = "(Int, List Char) -> List a -> String" ∧
    Returns (Ty.read (SymbolTable.prelude.resolver : Resolver (StateM Unit))
      "Eq a => (Integer,\t[Char])->  List (a Int) -> String ") t ∧
    declaration "<>" "Eq a => (Integer,\t[Char])->  List (a Int) -> String " =
      "(<>) :: Eq a => (Integer,\t[Char])->  List (a Int) -> String " ∧
    Oracle.typeSymbol? "<>" "(<>) :: Eq a => (Integer,\t[Char])->  List (a Int) -> String " = some (.declared t) ∧
    declaration "types'" "Eq a => (Integer,\t[Char])->  List (a Int) -> String " =
      "types' :: Eq a => (Integer,\t[Char])->  List (a Int) -> String " ∧
    SymbolTable.load .empty "types' :: Eq a => (Integer,\t[Char])->  List (a Int) -> String " =
      (⟨[("types'", .declared t)]⟩, .ok 1) := by
  have h : Returns (Ty.read (SymbolTable.prelude.resolver : Resolver (StateM Unit))
      "Eq a => (Integer,\t[Char])->  List (a Int) -> String ")
      (.func (.tuple [.int, .con "List" [.char]]) (.func (.con "List" [.var "a"]) .string)) :=
    Ty.exists_returns (by decide +kernel)
  have hop : declaration "<>" "Eq a => (Integer,\t[Char])->  List (a Int) -> String " =
      "(<>) :: Eq a => (Integer,\t[Char])->  List (a Int) -> String " := by decide +kernel
  have hname : declaration "types'" "Eq a => (Integer,\t[Char])->  List (a Int) -> String " =
      "types' :: Eq a => (Integer,\t[Char])->  List (a Int) -> String " := by decide +kernel
  obtain ⟨-, hdeclared⟩ := Ty.read_declared h
  refine ⟨_, by decide +kernel, h, hop, ?_, hname, ?_⟩
  · have hdeclarable : Declarable "<>" := ⟨by decide, by decide +kernel, by decide, by decide +kernel⟩
    rw [← hop]
    exact (hdeclared "<>" hdeclarable).1
  · have hdeclarable : Declarable "types'" := ⟨by decide, by decide +kernel, by decide, by decide +kernel⟩
    rw [← hname]
    exact (hdeclared "types'" hdeclarable).2 (by decide +kernel) _

end Dataflow
