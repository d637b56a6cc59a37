import Dataflow.Token
import Mathlib.Tactic.Common

/-!
# The tokens of a text

`Token.Lexes cs us` says that the characters `cs` are the tokens `us` with gaps between them, each
token as long as it can be. The scanner finds exactly these tokens (`Token.scan_ok`).
-/

namespace Dataflow.Token

/-- Characters are cut into tokens, the longest one first. -/
inductive Lexes : List Char → List Token → Prop where
  | done : Lexes [] []
  | gap {c : Char} {cs : List Char} {us : List Token} (hgap : isGap c = true) (rest : Lexes cs us) : Lexes (c :: cs) us
  | token {c : Char} {cs : List Char} {u : Token} {n : Nat} {us : List Token} (hgap : isGap c = false)
      (hfirst : first? (c :: cs) = some (u, n)) (rest : Lexes ((c :: cs).drop n) us) : Lexes (c :: cs) (u :: us)

/-! ## Names -/

/-- A name as it may stand in type text. -/
def IsName (x : String) : Prop :=
  ∃ c cs, x.toList = c :: cs ∧ startsName c = true ∧ ∀ d ∈ cs, inName d = true

/-- A name before these characters is not longer than it seems. -/
def EndsName (cs : List Char) : Prop := ∀ c ∈ cs.head?, inName c = false

/-- A name goes on as long as its characters do. -/
theorem first?_startsName {c : Char} (hc : startsName c = true) (cs : List Char) :
    first? (c :: cs) =
      some (.ident (String.ofList (c :: cs.takeWhile inName)), (cs.takeWhile inName).length + 1) := by
  unfold first?
  split
  case h_8 h =>
    cases h
    simp [hc]
  case h_9 h => cases h
  all_goals
    rename_i h
    cases h
    exact absurd hc (by decide)

theorem first?_name {c : Char} {cs rest : List Char} (hc : startsName c = true) (hcs : ∀ d ∈ cs, inName d = true)
    (hrest : EndsName rest) : first? (c :: (cs ++ rest)) = some (.ident (String.ofList (c :: cs)), cs.length + 1) := by
  have htake : (cs ++ rest).takeWhile inName = cs := by
    rw [List.takeWhile_append_of_pos hcs]
    cases rest with
    | nil => simp
    | cons d rest => simp [hrest d rfl]
  rw [first?_startsName hc, htake]

/-- The first token takes at least one character, and a name is a name. -/
theorem first?_ok {cs : List Char} {u : Token} {n : Nat} (h : first? cs = some (u, n)) :
    0 < n ∧ ∀ x, u = .ident x → IsName x := by
  unfold first? at h
  split at h
  case h_8 c cs _ _ _ _ _ _ _ =>
    split at h
    · rename_i hc
      cases h
      refine ⟨by simp, fun x hx => ?_⟩
      cases hx
      exact ⟨c, cs.takeWhile inName, by simp, hc, fun d hd => List.all_eq_true.1 List.all_takeWhile d hd⟩
    · cases h
  case h_9 => cases h
  all_goals
    cases h
    exact ⟨by decide, by simp⟩

theorem Lexes.isName {cs : List Char} {us : List Token} (h : Lexes cs us) {x : String} (hx : .ident x ∈ us) :
    IsName x := by
  induction h with
  | done => cases hx
  | gap _ _ ih => exact ih hx
  | token _ hfirst _ ih =>
    rcases List.mem_cons.1 hx with hx | hx
    · exact (first?_ok hfirst).2 x hx.symm
    · exact ih hx

/-! ## Texts put together -/

theorem Lexes.name {x : String} (hx : IsName x) {rest : List Char} {us : List Token} (hrest : EndsName rest)
    (h : Lexes rest us) : Lexes (x.toList ++ rest) (.ident x :: us) := by
  obtain ⟨c, cs, hlist, hc, hcs⟩ := hx
  have hgap : isGap c = false := by
    by_contra hgap
    simp only [isGap, Bool.not_eq_false, Bool.or_eq_true, decide_eq_true_eq] at hgap
    rcases hgap with (((rfl | rfl) | rfl) | rfl) | rfl <;> exact absurd hc (by decide)
  have hx : x = String.ofList (c :: cs) := by rw [← hlist, String.ofList_toList]
  rw [hlist, List.cons_append, hx]
  exact .token hgap (first?_name hc hcs hrest) (by simpa using h)

theorem Lexes.lparen {rest : List Char} {us : List Token} (h : Lexes rest us) : Lexes ('(' :: rest) (.lparen :: us) :=
  .token (by decide) rfl h

theorem Lexes.rparen {rest : List Char} {us : List Token} (h : Lexes rest us) : Lexes (')' :: rest) (.rparen :: us) :=
  .token (by decide) rfl h

theorem Lexes.lbracket {rest : List Char} {us : List Token} (h : Lexes rest us) : Lexes ('[' :: rest) (.lbracket :: us) :=
  .token (by decide) rfl h

theorem Lexes.rbracket {rest : List Char} {us : List Token} (h : Lexes rest us) : Lexes (']' :: rest) (.rbracket :: us) :=
  .token (by decide) rfl h

theorem Lexes.comma {rest : List Char} {us : List Token} (h : Lexes rest us) : Lexes (',' :: rest) (.comma :: us) :=
  .token (by decide) rfl h

theorem Lexes.arrow {rest : List Char} {us : List Token} (h : Lexes rest us) :
    Lexes ('-' :: '>' :: rest) (.arrow :: us) :=
  .token (by decide) rfl h

theorem Lexes.space {rest : List Char} {us : List Token} (h : Lexes rest us) : Lexes (' ' :: rest) us :=
  .gap (by decide) h

/-! ## The scanner -/

theorem scanFrom_skip (text : String) (place : Place) :
    ∀ (skip : Nat) (cs : List Char), scanFrom text place skip cs = scanFrom text place 0 (cs.drop skip)
  | 0, _ => rfl
  | _ + 1, [] => rfl
  | skip + 1, _ :: cs => scanFrom_skip text place skip cs

theorem scanFrom_token {text : String} {place : Place} {c : Char} {cs : List Char} {u : Token} {n : Nat}
    (hgap : isGap c = false) (hfirst : first? (c :: cs) = some (u, n)) :
    scanFrom text place 0 (c :: cs) =
      match scanFrom text (place.advance n) 0 ((c :: cs).drop n) with
      | .ok rest => .ok (⟨u, place.span n⟩ :: rest)
      | .error e => .error e := by
  obtain ⟨m, rfl⟩ : ∃ m, n = m + 1 := ⟨n - 1, by have := (first?_ok hfirst).1; omega⟩
  rw [List.drop_succ_cons]
  cases hrest : scanFrom text (place.advance (m + 1)) 0 (cs.drop m) <;>
    simp only [scanFrom, hgap, Bool.false_eq_true, if_false, hfirst, Nat.add_sub_cancel, scanFrom_skip text _ m cs, hrest]

theorem scanFrom_of_lexes (text : String) {cs : List Char} {us : List Token} (h : Lexes cs us) :
    ∀ place, ∃ ts, scanFrom text place 0 cs = .ok ts ∧ ts.map Lexeme.token = us := by
  induction h with
  | done => exact fun _ => ⟨[], rfl, rfl⟩
  | @gap c cs us hgap _ ih =>
    intro place
    obtain ⟨ts, hts, htokens⟩ := ih (place.pastBlank c)
    exact ⟨ts, by simp [scanFrom, hgap, hts], htokens⟩
  | @token c cs u n us hgap hfirst _ ih =>
    intro place
    obtain ⟨ts, hts, htokens⟩ := ih (place.advance n)
    exact ⟨⟨u, place.span n⟩ :: ts, by rw [scanFrom_token hgap hfirst, hts], by simp [htokens]⟩

theorem lexes_of_scanFrom (text : String) :
    ∀ (k : Nat) {cs : List Char} {place : Place} {ts : List Lexeme}, cs.length ≤ k →
      scanFrom text place 0 cs = .ok ts → Lexes cs (ts.map Lexeme.token)
  | _, [], place, ts, _, h => by
    cases h
    exact .done
  | k + 1, c :: cs, place, ts, hk, h => by
    simp only [List.length_cons] at hk
    cases hgap : isGap c with
    | true =>
      simp only [scanFrom, hgap, if_true] at h
      exact .gap hgap (lexes_of_scanFrom text k (by omega) h)
    | false =>
      cases hfirst : first? (c :: cs) with
      | none => simp [scanFrom, hgap, hfirst] at h
      | some p =>
        obtain ⟨u, n⟩ := p
        rw [scanFrom_token hgap hfirst] at h
        split at h
        · rename_i rest hrest
          cases h
          have hpos := (first?_ok hfirst).1
          refine .token hgap hfirst (lexes_of_scanFrom text k ?_ hrest)
          simp only [List.length_drop, List.length_cons]
          omega
        · cases h

/-- **The scanner finds the tokens of a text.** -/
theorem scan_ok {text : String} {us : List Token} :
    (∃ ts, scan text = .ok ts ∧ ts.map Lexeme.token = us) ↔ Lexes text.toList us := by
  constructor
  · rintro ⟨ts, hts, rfl⟩
    exact lexes_of_scanFrom text _ (Nat.le_refl _) hts
  · intro h
    exact scanFrom_of_lexes text h .origin

end Dataflow.Token
