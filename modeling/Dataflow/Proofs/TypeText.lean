import Dataflow.Proofs.Grammar

/-!
# Type text is read by its grammar

The scanner and the reader of types are compared with rules that are stated without them. A text is
cut at the longest spelling of a token, the tokens are a signature in one way at most, and the reader
accepts exactly the signatures (`TyExpr.read_iff_signature`).

The reader is written with bounds on its nesting and on its loops. Neither is ever reached: what
stands inside brackets or behind an arrow has fewer tokens, and a loop ends where an item fails.
-/

namespace Dataflow

/-! ## The longest token -/

namespace Token

/-- How a token is spelled. -/
inductive Spelled : Token → List Char → Prop where
  | name {c : Char} {cs : List Char} (hc : startsName c = true) (hcs : ∀ d ∈ cs, inName d = true) :
      Spelled (.ident (String.ofList (c :: cs))) (c :: cs)
  | arrow : Spelled .arrow ['-', '>']
  | fatArrow : Spelled .fatArrow ['=', '>']
  | comma : Spelled .comma [',']
  | lparen : Spelled .lparen ['(']
  | rparen : Spelled .rparen [')']
  | lbracket : Spelled .lbracket ['[']
  | rbracket : Spelled .rbracket [']']

/-- The token `u`, spelled `word`, begins the text, and no token with a longer spelling does. -/
structure Longest (cs : List Char) (u : Token) (word rest : List Char) : Prop where
  spelled : Spelled u word
  split : cs = word ++ rest
  longest : ∀ v other, Spelled v other → other <+: cs → other.length ≤ word.length

/-- Characters are cut into tokens at gaps and behind longest spellings. -/
inductive Cut : List Char → List Token → Prop where
  | done : Cut [] []
  | gap {c : Char} {cs : List Char} {us : List Token} (hgap : isGap c = true) (more : Cut cs us) : Cut (c :: cs) us
  | token {cs word rest : List Char} {u : Token} {us : List Token} (h : Longest cs u word rest) (more : Cut rest us) :
      Cut cs (u :: us)

theorem Spelled.not_gap {u : Token} {c : Char} {cs : List Char} (h : Spelled u (c :: cs)) : isGap c = false := by
  cases h with
  | name hc _ =>
    by_contra hgap
    simp only [isGap, Bool.not_eq_false, Bool.or_eq_true, decide_eq_true_eq] at hgap
    rcases hgap with (((rfl | rfl) | rfl) | rfl) | rfl <;> exact absurd hc (by decide)
  | _ => rfl

theorem first?_spelled {cs : List Char} {u : Token} {n : Nat} (h : first? cs = some (u, n)) :
    Spelled u (cs.take n) ∧ n ≤ cs.length := by
  unfold first? at h
  split at h
  case h_8 c cs _ _ _ _ _ _ _ =>
    split at h
    · rename_i hc
      cases h
      have htake : (c :: cs.takeWhile inName) <+: c :: cs := List.cons_prefix_cons.2 ⟨rfl, List.takeWhile_prefix _⟩
      rw [← List.prefix_iff_eq_take.1 htake]
      exact ⟨.name hc fun d hd => List.all_eq_true.1 List.all_takeWhile d hd, htake.length_le⟩
    · cases h
  case h_9 => cases h
  all_goals
    cases h
    exact ⟨by constructor, by simp⟩

/-- The token that is found is at least as long as any that begins the text. -/
theorem Spelled.le_first? {v : Token} {other : List Char} (h : Spelled v other) (rest : List Char) :
    ∃ u n, first? (other ++ rest) = some (u, n) ∧ other.length ≤ n := by
  cases h with
  | @name c cs hc hcs =>
    refine ⟨_, _, first?_startsName hc (cs ++ rest), ?_⟩
    rw [List.takeWhile_append_of_pos hcs]
    simp
  | _ => exact ⟨_, _, rfl, Nat.le_refl _⟩

/-- A name that cannot be prolonged is the one that is found, and a mark is found in any case. -/
theorem Longest.first? {cs word rest : List Char} {u : Token} (h : Longest cs u word rest) :
    first? cs = some (u, word.length) := by
  obtain ⟨hspelled, rfl, hlongest⟩ := h
  cases hspelled with
  | @name c cs hc hcs =>
    have hlonger : Spelled (.ident (String.ofList (c :: (cs ++ rest).takeWhile inName)))
        (c :: (cs ++ rest).takeWhile inName) :=
      .name hc fun d hd => List.all_eq_true.1 List.all_takeWhile d hd
    have hle := hlongest _ _ hlonger (List.cons_prefix_cons.2 ⟨rfl, List.takeWhile_prefix _⟩)
    have htake : (cs ++ rest).takeWhile inName = cs := by
      rw [List.takeWhile_append_of_pos hcs] at hle ⊢
      simp only [List.length_cons, List.length_append] at hle
      have hnil : rest.takeWhile inName = [] := List.length_eq_zero_iff.1 (by omega)
      rw [hnil, List.append_nil]
    rw [List.cons_append, first?_startsName hc, htake]
    rfl
  | _ => rfl

theorem longest_of_first? {cs : List Char} {u : Token} {n : Nat} (h : first? cs = some (u, n)) :
    Longest cs u (cs.take n) (cs.drop n) := by
  obtain ⟨hspelled, hn⟩ := first?_spelled h
  refine ⟨hspelled, (List.take_append_drop n cs).symm, fun v other hother hstarts => ?_⟩
  obtain ⟨rest, rfl⟩ := hstarts
  obtain ⟨u', n', hfirst, hle⟩ := hother.le_first? rest
  rw [h] at hfirst
  cases hfirst
  rw [List.length_take]
  omega

/-- **The scanner takes the longest token every time.** -/
theorem cut_iff_lexes {cs : List Char} {us : List Token} : Cut cs us ↔ Lexes cs us := by
  constructor
  · intro h
    induction h with
    | done => exact .done
    | gap hgap _ ih => exact .gap hgap ih
    | @token cs word rest u us h _ ih =>
      have hfirst := h.first?
      obtain ⟨hspelled, rfl, _⟩ := h
      cases word with
      | nil => cases hspelled
      | cons c word =>
        exact .token hspelled.not_gap hfirst (by simpa using ih)
  · intro h
    induction h with
    | done => exact .done
    | gap hgap _ ih => exact .gap hgap ih
    | token _ hfirst _ ih => exact .token (longest_of_first? hfirst) ih

theorem Cut.unique {cs : List Char} {us us' : List Token} (h : Cut cs us) (h' : Cut cs us') : us = us' := by
  rw [cut_iff_lexes] at h h'
  have htext : (String.ofList cs).toList = cs := String.toList_ofList
  rw [← htext] at h h'
  obtain ⟨ts, hts, rfl⟩ := scan_ok.2 h
  obtain ⟨ts', hts', rfl⟩ := scan_ok.2 h'
  rw [hts] at hts'
  cases hts'
  rfl

end Token

/-! ## Rules on fewer tokens -/

namespace Rule

variable {α β : Type} {ts : List Lexeme}

/-- What a rule gives depends on its parts only where they are used. -/
theorem check_congr {r s : Rule α} (h : r ts = s ts) (f : α → Except ReadError β) : check r f ts = check s f ts := by
  unfold check
  rw [h]

theorem map_congr {r s : Rule α} (h : r ts = s ts) (f : α → β) : map r f ts = map s f ts :=
  check_congr h _

theorem label_congr {r s : Rule α} (h : r ts = s ts) (name : String) : label r name ts = label s name ts := by
  unfold label
  rw [h]

theorem orElse_congr {r s r' s' : Rule α} (hr : r ts = r' ts) (hs : s ts = s' ts) :
    orElse r s ts = orElse r' s' ts := by
  unfold orElse
  rw [hr, hs]

theorem optional_congr {r s : Rule α} (h : r ts = s ts) : optional r ts = optional s ts := by
  unfold optional
  rw [h]

theorem both_congr {r r' : Rule α} {s s' : Rule β} (hr : r ts = r' ts)
    (hs : ∀ a mid, r' ts = (.ok a, mid) → s mid = s' mid) : both r s ts = both r' s' ts := by
  unfold both
  rw [hr]
  split
  · rename_i a mid hok
    exact map_congr (hs a mid hok) _
  · rfl

theorem left_congr {r r' : Rule α} {s s' : Rule β} (hr : r ts = r' ts)
    (hs : ∀ a mid, r' ts = (.ok a, mid) → s mid = s' mid) : left r s ts = left r' s' ts :=
  map_congr (both_congr hr hs) _

theorem right_congr {r r' : Rule α} {s s' : Rule β} (hr : r ts = r' ts)
    (hs : ∀ a mid, r' ts = (.ok a, mid) → s mid = s' mid) : right r s ts = right r' s' ts :=
  map_congr (both_congr hr hs) _

theorem atMost_congr {item item' : Rule α} (hitem : Consumes item') {n : Nat}
    (h : ∀ ts, ts.length ≤ n → item ts = item' ts) :
    ∀ (k : Nat) {ts : List Lexeme}, ts.length ≤ n → atMost item k ts = atMost item' k ts
  | 0, _, _ => rfl
  | k + 1, ts, hts => by
    simp only [atMost, h ts hts]
    split
    · rfl
    · rename_i a mid hok
      have hlt := hitem ts a mid hok
      rw [atMost_congr hitem h k (by omega)]

theorem many_congr {item item' : Rule α} (hitem : Consumes item') {n : Nat}
    (h : ∀ ts, ts.length ≤ n → item ts = item' ts) (hts : ts.length ≤ n) : many item ts = many item' ts := by
  unfold many
  rw [atMost_congr hitem h _ hts]

/-- A loop over the rule goes on until it fails. -/
def Halts (item : Rule α) : Prop :=
  ∀ ts, ∃ as rest, many item ts = (.ok as, rest) ∧ Repeats item ts as rest

theorem Consumes.halts {item : Rule α} (h : Consumes item) : Halts item := fun ts =>
  ⟨_, _, rfl, atMost_repeats h (Nat.le_refl ts.length)⟩

end Rule

namespace TyExpr

/-- The types with arrows, read with `inner` inside brackets and behind arrows. -/
def level (inner : Rule TyExpr) : Rule TyExpr :=
  Rule.map (.both (application inner) (.optional (.right (.mark .arrow) inner))) fun x =>
    x.2.elim x.1 (.func x.1)

theorem function_succ (depth : Nat) : function (depth + 1) = level (function depth) := by
  rw [function]
  refine congrArg (Rule.map _) (funext fun x => ?_)
  obtain ⟨arg, result⟩ := x
  cases result <;> rfl

/-- Levels of nesting, and a rule below them all. -/
def nested (bottom : Rule TyExpr) : (depth : Nat) → Rule TyExpr
  | 0 => bottom
  | depth + 1 => level (nested bottom depth)

/-- Signatures, read with a rule for types. -/
def signatureOf (function : Rule TyExpr) : Rule TyExpr :=
  .right (.optional (.left (application function) (.mark .fatArrow))) function

section
variable {f g : Rule TyExpr} {F : List Token → TyExpr → Prop} {n : Nat}

theorem sepBy1_congr (hs : Sound f F) (hne : ∀ us e, F us e → us ≠ []) (h : ∀ ts, ts.length ≤ n → g ts = f ts)
    {ts : List Lexeme} (hts : ts.length ≤ n) :
    Rule.sepBy1 g (.mark .comma) ts = Rule.sepBy1 f (.mark .comma) ts := by
  refine Rule.map_congr (Rule.both_congr (h ts hts) fun e mid he => ?_) _
  have hlt := hs.consumes hne ts e mid he
  refine Rule.many_congr (comma_consumes hs) (fun ts' hts' => ?_) (Nat.le_of_lt (Nat.lt_of_lt_of_le hlt hts))
  refine Rule.right_congr rfl fun _ mid' hmark => h mid' ?_
  obtain ⟨_, t, rfl, _⟩ := Rule.mark_ok.1 hmark
  simp only [List.length_cons] at hts'
  omega

/-- An atom reads inside its brackets, where there are fewer tokens. -/
theorem atom_congr (hs : Sound f F) (hne : ∀ us e, F us e → us ≠ []) {ts : List Lexeme}
    (h : ∀ ts', ts'.length < ts.length → g ts' = f ts') : atom g ts = atom f ts := by
  have hopen : ∀ {u v : Token} {mid : List Lexeme}, Rule.mark u ts = (.ok v, mid) → mid.length < ts.length := by
    intro u v mid hmark
    obtain ⟨_, t, rfl, _⟩ := Rule.mark_ok.1 hmark
    simp
  refine Rule.orElse_congr (Rule.orElse_congr rfl ?_) ?_
  · refine Rule.map_congr (Rule.left_congr (Rule.right_congr rfl fun _ mid hmark => ?_) fun _ _ _ => rfl) _
    exact sepBy1_congr hs hne (fun ts' hts' => h ts' (Nat.lt_of_le_of_lt hts' (hopen hmark))) (Nat.le_refl _)
  · refine Rule.map_congr (Rule.left_congr (Rule.right_congr rfl fun _ mid hmark => ?_) fun _ _ _ => rfl) _
    exact h mid (hopen hmark)

theorem application_congr (hs : Sound f F) (hne : ∀ us e, F us e → us ≠ []) {ts : List Lexeme}
    (h : ∀ ts', ts'.length < ts.length → g ts' = f ts') : application g ts = application f ts := by
  have hatom : ∀ ts', ts'.length ≤ ts.length → atom g ts' = atom f ts' := fun ts' hts' =>
    atom_congr hs hne fun ts'' hts'' => h ts'' (by omega)
  refine Rule.check_congr (Rule.both_congr (Rule.label_congr (hatom ts (Nat.le_refl _)) _) fun e mid he => ?_) _
  have hlt := atom_consumes hs ts e mid (Rule.label_ok.1 he)
  exact Rule.many_congr (atom_consumes hs) hatom (Nat.le_of_lt hlt)

/-- **A level of nesting asks for the next one only on fewer tokens.** -/
theorem level_congr (hs : Sound f F) (hne : ∀ us e, F us e → us ≠ []) {ts : List Lexeme}
    (h : ∀ ts', ts'.length < ts.length → g ts' = f ts') : level g ts = level f ts := by
  refine Rule.map_congr (Rule.both_congr (application_congr hs hne h) fun e mid he => ?_) _
  refine Rule.optional_congr (Rule.right_congr rfl fun _ mid' hmark => h mid' ?_)
  obtain ⟨used, rfl, _⟩ := application_sound hs _ _ _ he
  obtain ⟨_, t, rfl, _⟩ := Rule.mark_ok.1 hmark
  simp only [List.length_append, List.length_cons]
  omega

theorem signatureOf_congr (hs : Sound f F) (hne : ∀ us e, F us e → us ≠ []) {ts : List Lexeme}
    (h : ∀ ts', ts'.length ≤ ts.length → g ts' = f ts') : signatureOf g ts = signatureOf f ts := by
  have happ := application_congr hs hne fun ts' hts' => h ts' (Nat.le_of_lt hts')
  refine Rule.right_congr (Rule.optional_congr (Rule.left_congr happ fun _ _ _ => rfl)) fun c mid hcontext => h mid ?_
  -- the context, if there is one, is in front of what is left
  rcases Rule.optional_ok.1 hcontext with ⟨_, _, hleft⟩ | ⟨_, rfl, _⟩
  · obtain ⟨_, _, hc, hmark⟩ := Rule.left_ok.1 hleft
    obtain ⟨used, rfl, _⟩ := application_sound hs _ _ _ hc
    obtain ⟨_, t, rfl, _⟩ := Rule.mark_ok.1 hmark
    simp only [List.length_append, List.length_cons]
    omega
  · exact Nat.le_refl _

end

theorem isFunction_ne_nil {us : List Token} {e : TyExpr} (h : IsFunction us e) : us ≠ [] := h.opens.ne_nil

/-- Deeper than there are tokens, nothing is read. -/
theorem nested_eq (bottom : Rule TyExpr) : ∀ (depth depth' : Nat) (ts : List Lexeme), ts.length < depth →
    ts.length < depth' → nested bottom depth ts = function depth' ts
  | depth + 1, depth' + 1, ts, hdepth, hdepth' => by
    rw [function_succ]
    refine level_congr (function_sound depth') (fun _ _ => isFunction_ne_nil) fun ts' hts' => ?_
    exact nested_eq bottom depth depth' ts' (by omega) (by omega)

theorem signature_nested (bottom : Rule TyExpr) {depth : Nat} {ts : List Lexeme} (hdepth : ts.length < depth) :
    signatureOf (nested bottom depth) ts = signature (ts.length + 1) ts :=
  signatureOf_congr (function_sound _) (fun _ _ => isFunction_ne_nil) fun ts' hts' =>
    nested_eq bottom depth _ ts' (by omega) (by omega)

/-! ## Signatures -/

/-- A list of tokens is a signature in one way. -/
theorem IsSignature.unique {us : List Token} {e e' : TyExpr} (h : IsSignature us e) (h' : IsSignature us e') :
    e = e' := by
  have htokens : (us.map fun u => (⟨u, Place.origin.span 0⟩ : Lexeme)).map Lexeme.token = us := by
    simp [Function.comp_def]
  rw [← htokens] at h h'
  have hok := ofTokens_ok.2 h
  rw [ofTokens_ok.2 h'] at hok
  cases hok
  rfl

/-- **Type text is read by its grammar.** A text is accepted, with a tree, exactly if its longest tokens
are a signature with that tree. Texts have one list of tokens at most and lists of tokens one tree.
Reading comes to an end on all tokens: no nesting is deeper than there are tokens, whatever would be
read there, and all loops run until an item fails. -/
theorem read_iff_signature :
    (∀ text e, read text = .ok e ↔ ∃ us, Token.Cut text.toList us ∧ IsSignature us e) ∧
    (∀ cs us us', Token.Cut cs us → Token.Cut cs us' → us = us') ∧
    (∀ us e e', IsSignature us e → IsSignature us e' → e = e') ∧
    (∀ (bottom : Rule TyExpr) (depth : Nat) (ts : List Lexeme), ts.length < depth →
      signatureOf (nested bottom depth) ts = signature (ts.length + 1) ts) ∧
    ∀ depth, (atom (function depth)).Halts ∧ (Rule.right (.mark .comma) (function depth)).Halts := by
  refine ⟨fun text e => ?_, fun cs us us' h h' => ?_, fun _ _ _ => IsSignature.unique,
    fun bottom depth ts => signature_nested bottom, fun depth => ⟨?_, ?_⟩⟩
  · simp only [read_ok, Token.cut_iff_lexes]
  · exact h.unique h'
  · exact (atom_consumes (function_sound depth)).halts
  · exact (comma_consumes (function_sound depth)).halts

end TyExpr

end Dataflow
