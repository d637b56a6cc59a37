import Dataflow.Proofs.Tokens
import Dataflow.Ty.Expr

/-!
# The grammar of type text

`Signature us e` says that the tokens `us` are a signature with the tree `e`, by the rules of the
grammar and without a reader. The reader decides it: it accepts exactly the token lists that are
signatures, and gives their trees (`TyExpr.ofTokens_ok`). Reading is greedy, and this loses nothing,
because what can follow a type never begins another atom.

The first part says of every combinator when it accepts; nothing after it opens one again.
-/

namespace Dataflow

/-! ## When rules accept -/

namespace Rule

variable {α β : Type} {ts rest : List Lexeme}

/-- The rule reads nothing from these tokens. -/
def Fails (r : Rule α) (ts : List Lexeme) : Prop := ∀ a rest, r ts ≠ (.ok a, rest)

theorem fails_of_error {r : Rule α} {e : ReadError} (h : r ts = (.error e, rest)) : Fails r ts := by
  intro a rest' h'
  rw [h] at h'
  cases h'

theorem token_ok {expected : String} {accept : Token → Option α} {a : α} :
    token expected accept ts = (.ok a, rest) ↔ ∃ t, ts = t :: rest ∧ accept t.token = some a := by
  cases ts with
  | nil => simp [token]
  | cons t ts =>
    cases h : accept t.token with
    | none =>
      simp only [token, h, Prod.mk.injEq, reduceCtorEq, false_and, false_iff, not_exists, not_and]
      rintro t' heq h'
      cases heq
      rw [h] at h'
      cases h'
    | some b =>
      simp only [token, h, Prod.mk.injEq, Except.ok.injEq]
      constructor
      · rintro ⟨rfl, rfl⟩
        exact ⟨t, rfl, h⟩
      · rintro ⟨t', heq, h'⟩
        cases heq
        rw [h] at h'
        exact ⟨Option.some.inj h', rfl⟩

theorem mark_ok {what : Token} {u : Token} :
    mark what ts = (.ok u, rest) ↔ u = what ∧ ∃ t, ts = t :: rest ∧ t.token = what := by
  simp only [mark, token_ok, Option.ite_none_right_eq_some, Option.some.injEq]
  constructor
  · rintro ⟨t, rfl, rfl, rfl⟩
    exact ⟨rfl, t, rfl, rfl⟩
  · rintro ⟨rfl, t, rfl, ht⟩
    exact ⟨t, rfl, ht, ht⟩

theorem ident_ok {x : String} : ident ts = (.ok x, rest) ↔ ∃ t, ts = t :: rest ∧ t.token = .ident x := by
  simp only [ident, token_ok]
  refine exists_congr fun t => and_congr_right fun _ => ?_
  cases t.token <;> simp

theorem check_ok {r : Rule α} {f : α → Except ReadError β} {b : β} :
    check r f ts = (.ok b, rest) ↔ ∃ a, r ts = (.ok a, rest) ∧ f a = .ok b := by
  unfold check
  split
  · rename_i a rest' h
    rw [h]
    simp [and_comm]
  · rename_i e rest' h
    rw [h]
    simp

theorem map_ok {r : Rule α} {f : α → β} {b : β} :
    map r f ts = (.ok b, rest) ↔ ∃ a, r ts = (.ok a, rest) ∧ f a = b := by
  simp [map, check_ok]

theorem label_ok {r : Rule α} {name : String} {a : α} : label r name ts = (.ok a, rest) ↔ r ts = (.ok a, rest) := by
  unfold label
  split
  · rename_i a' rest' h
    rw [h]
  · rename_i e rest' h
    rw [h]
    simp

theorem both_ok {r : Rule α} {s : Rule β} {x : α × β} :
    both r s ts = (.ok x, rest) ↔ ∃ mid, r ts = (.ok x.1, mid) ∧ s mid = (.ok x.2, rest) := by
  obtain ⟨a, b⟩ := x
  unfold both
  split
  · rename_i a' mid h
    simp only [map_ok, h, Prod.mk.injEq, Except.ok.injEq]
    constructor
    · rintro ⟨b', hb, rfl, rfl⟩
      exact ⟨mid, ⟨rfl, rfl⟩, hb⟩
    · rintro ⟨_, ⟨rfl, rfl⟩, hb⟩
      exact ⟨b, hb, rfl, rfl⟩
  · rename_i e mid h
    rw [h]
    simp

theorem left_ok {r : Rule α} {s : Rule β} {a : α} :
    left r s ts = (.ok a, rest) ↔ ∃ mid b, r ts = (.ok a, mid) ∧ s mid = (.ok b, rest) := by
  simp only [left, map_ok, both_ok]
  constructor
  · rintro ⟨⟨a', b⟩, ⟨mid, ha, hb⟩, rfl⟩
    exact ⟨mid, b, ha, hb⟩
  · rintro ⟨mid, b, ha, hb⟩
    exact ⟨(a, b), ⟨mid, ha, hb⟩, rfl⟩

theorem right_ok {r : Rule α} {s : Rule β} {b : β} :
    right r s ts = (.ok b, rest) ↔ ∃ mid a, r ts = (.ok a, mid) ∧ s mid = (.ok b, rest) := by
  simp only [right, map_ok, both_ok]
  constructor
  · rintro ⟨⟨a, b'⟩, ⟨mid, ha, hb⟩, rfl⟩
    exact ⟨mid, a, ha, hb⟩
  · rintro ⟨mid, a, ha, hb⟩
    exact ⟨(a, b), ⟨mid, ha, hb⟩, rfl⟩

theorem orElse_ok {r s : Rule α} {a : α} :
    orElse r s ts = (.ok a, rest) ↔ r ts = (.ok a, rest) ∨ Fails r ts ∧ s ts = (.ok a, rest) := by
  unfold orElse
  split
  · rename_i a' rest' h
    have hnot : ¬ Fails r ts := fun hf => hf a' rest' h
    simp [h, hnot]
  · rename_i e rest' h
    simp [h, fails_of_error h]

theorem optional_ok {r : Rule α} {o : Option α} :
    optional r ts = (.ok o, rest) ↔
      (∃ a, o = some a ∧ r ts = (.ok a, rest)) ∨ (o = none ∧ rest = ts ∧ Fails r ts) := by
  unfold optional
  split
  · rename_i a rest' h
    have hnot : ¬ Fails r ts := fun hf => hf a rest' h
    simp only [Prod.mk.injEq, Except.ok.injEq, h, hnot, and_false, or_false]
    constructor
    · rintro ⟨rfl, rfl⟩
      exact ⟨a, rfl, rfl, rfl⟩
    · rintro ⟨_, rfl, rfl, rfl⟩
      exact ⟨rfl, rfl⟩
  · rename_i e rest' h
    simp [h, fails_of_error h, eq_comm]

theorem Fails.map {r : Rule α} (h : Fails r ts) (f : α → β) : Fails (map r f) ts := by
  intro b rest hok
  obtain ⟨a, ha, _⟩ := map_ok.1 hok
  exact h a rest ha

theorem Fails.both {r : Rule α} (h : Fails r ts) (s : Rule β) : Fails (both r s) ts := by
  intro x rest hok
  obtain ⟨mid, ha, _⟩ := both_ok.1 hok
  exact h x.1 mid ha

theorem Fails.orElse {r s : Rule α} (hr : Fails r ts) (hs : Fails s ts) : Fails (orElse r s) ts := by
  intro a rest hok
  rcases orElse_ok.1 hok with hok | ⟨_, hok⟩
  · exact hr a rest hok
  · exact hs a rest hok

/-- Items one after the other, as many as there are. -/
inductive Repeats (item : Rule α) : List Lexeme → List α → List Lexeme → Prop where
  | stop {ts : List Lexeme} (h : Fails item ts) : Repeats item ts [] ts
  | step {ts mid rest : List Lexeme} {a : α} {as : List α} (h : item ts = (.ok a, mid))
      (more : Repeats item mid as rest) : Repeats item ts (a :: as) rest

/-- A rule that takes a token whenever it accepts. -/
def Consumes (r : Rule α) : Prop := ∀ ts a rest, r ts = (.ok a, rest) → rest.length < ts.length

theorem atMost_repeats {item : Rule α} (hitem : Consumes item) :
    ∀ {n : Nat} {ts : List Lexeme}, ts.length ≤ n → Repeats item ts (atMost item n ts).1 (atMost item n ts).2
  | 0, ts, h => by
    refine .stop fun a rest hok => ?_
    have := hitem ts a rest hok
    omega
  | n + 1, ts, h => by
    simp only [atMost]
    split
    · rename_i hfail
      exact .stop (fails_of_error hfail)
    · rename_i a mid hok
      have hlt := hitem ts a mid hok
      exact .step hok (atMost_repeats hitem (by omega))

theorem Repeats.unique {item : Rule α} {as bs : List α} {rest' : List Lexeme} (h : Repeats item ts as rest)
    (h' : Repeats item ts bs rest') : as = bs ∧ rest = rest' := by
  induction h generalizing bs with
  | stop hfail =>
    cases h' with
    | stop _ => exact ⟨rfl, rfl⟩
    | step hok _ => exact absurd hok (hfail _ _)
  | step hok _ ih =>
    cases h' with
    | stop hfail => exact absurd hok (hfail _ _)
    | step hok' more =>
      rw [hok] at hok'
      cases hok'
      obtain ⟨rfl, rfl⟩ := ih more
      exact ⟨rfl, rfl⟩

/-- The bound on the number of items never cuts them short. -/
theorem many_ok {item : Rule α} (hitem : Consumes item) {as : List α} :
    many item ts = (.ok as, rest) ↔ Repeats item ts as rest := by
  have hall := atMost_repeats hitem (Nat.le_refl ts.length)
  simp only [many, Prod.mk.injEq, Except.ok.injEq]
  constructor
  · rintro ⟨rfl, rfl⟩
    exact hall
  · exact fun h => hall.unique h

end Rule

/-! ## The grammar -/

namespace TyExpr

section
variable (F : List Token → TyExpr → Prop)

/-- Types with commas between them. -/
inductive Items : List Token → List TyExpr → Prop where
  | one {us : List Token} {e : TyExpr} (h : F us e) : Items us [e]
  | more {us vs : List Token} {e : TyExpr} {es : List TyExpr} (h : F us e) (rest : Items vs es) :
      Items (us ++ .comma :: vs) (e :: es)

/-- What stands as one argument; `F` are the types inside brackets. -/
inductive IsAtom : List Token → TyExpr → Prop where
  | name (x : String) : IsAtom [.ident x] (.con x [])
  | unit : IsAtom [.lparen, .rparen] .unit
  | parens {us : List Token} {e : TyExpr} (h : F us e) : IsAtom (.lparen :: (us ++ [.rparen])) e
  | tuple {us : List Token} {es : List TyExpr} (h : Items F us es) (hmany : 2 ≤ es.length) :
      IsAtom (.lparen :: (us ++ [.rparen])) (.tuple es)
  | list {us : List Token} {e : TyExpr} (h : F us e) : IsAtom (.lbracket :: (us ++ [.rbracket])) (.list e)

inductive Atoms : List Token → List TyExpr → Prop where
  | nil : Atoms [] []
  | cons {us vs : List Token} {e : TyExpr} {es : List TyExpr} (h : IsAtom F us e) (rest : Atoms vs es) :
      Atoms (us ++ vs) (e :: es)

/-- An atom by itself, or an atom that denotes a bare name, with one argument or more. -/
inductive IsApplication : List Token → TyExpr → Prop where
  | atom {us : List Token} {e : TyExpr} (h : IsAtom F us e) : IsApplication us e
  | applied {us vs : List Token} {x : String} {args : List TyExpr} (hhead : IsAtom F us (.con x []))
      (hargs : Atoms F vs args) (hsome : args ≠ []) : IsApplication (us ++ vs) (.con x args)

end

inductive IsFunction : List Token → TyExpr → Prop where
  | plain {us : List Token} {e : TyExpr} (h : IsApplication IsFunction us e) : IsFunction us e
  | arrow {us vs : List Token} {a b : TyExpr} (harg : IsApplication IsFunction us a) (hresult : IsFunction vs b) :
      IsFunction (us ++ .arrow :: vs) (.func a b)

/-- A type, perhaps behind a class context. -/
inductive IsSignature : List Token → TyExpr → Prop where
  | plain {us : List Token} {e : TyExpr} (h : IsFunction us e) : IsSignature us e
  | context {us vs : List Token} {c e : TyExpr} (hcontext : IsApplication IsFunction us c) (h : IsFunction vs e) :
      IsSignature (us ++ .fatArrow :: vs) e

/-- A group is its only part, or the tuple of its parts. -/
theorem Items.isAtom {F : List Token → TyExpr → Prop} {us : List Token} {es : List TyExpr} (h : Items F us es) :
    IsAtom F (.lparen :: (us ++ [.rparen])) (group es) := by
  cases h with
  | one he => exact .parens he
  | more he rest =>
    cases rest with
    | one he' => exact .tuple (.more he (.one he')) (by simp)
    | more he' rest => exact .tuple (.more he (.more he' rest)) (by simp)

/-- Arguments need a bare name in front of them. -/
theorem apply_ok {head e : TyExpr} {args : List TyExpr} :
    apply (head, args) = .ok e ↔
      args = [] ∧ e = head ∨ args ≠ [] ∧ ∃ x, head = .con x [] ∧ e = .con x args := by
  cases args with
  | nil => simp [apply, eq_comm]
  | cons arg args =>
    cases head with
    | con x given => cases given <;> simp [apply, eq_comm]
    | _ => simp [apply]

/-! ## Where types begin and end -/

/-- An atom can begin with the token. -/
def opensAtom : Token → Bool
  | .ident _ | .lparen | .lbracket => true
  | _ => false

/-- No atom begins here. -/
def NoAtom (ts : List Lexeme) : Prop := ∀ t ∈ ts.head?, opensAtom t.token = false

/-- No type goes on here. -/
def Ends (ts : List Lexeme) : Prop := ∀ t ∈ ts.head?, opensAtom t.token = false ∧ t.token ≠ .arrow

theorem Ends.noAtom {ts : List Lexeme} (h : Ends ts) : NoAtom ts := fun t ht => (h t ht).1

/-- The tokens begin an atom. -/
def Opens (us : List Token) : Prop := ∃ u vs, us = u :: vs ∧ opensAtom u = true

theorem Opens.append {us : List Token} (h : Opens us) (vs : List Token) : Opens (us ++ vs) := by
  obtain ⟨u, ws, rfl, hu⟩ := h
  exact ⟨u, ws ++ vs, rfl, hu⟩

theorem Opens.ne_nil {us : List Token} (h : Opens us) : us ≠ [] := by
  obtain ⟨u, ws, rfl, _⟩ := h
  simp

theorem IsAtom.opens {F : List Token → TyExpr → Prop} {us : List Token} {e : TyExpr} (h : IsAtom F us e) :
    Opens us := by
  cases h with
  | name x => exact ⟨_, _, rfl, rfl⟩
  | unit => exact ⟨_, _, rfl, rfl⟩
  | parens _ => exact ⟨_, _, rfl, rfl⟩
  | tuple _ _ => exact ⟨_, _, rfl, rfl⟩
  | list _ => exact ⟨_, _, rfl, rfl⟩

theorem Items.opens {F : List Token → TyExpr → Prop} (hF : ∀ us e, F us e → Opens us) {us : List Token}
    {es : List TyExpr} (h : Items F us es) : Opens us := by
  cases h with
  | one he => exact hF _ _ he
  | more he _ => exact (hF _ _ he).append _

theorem IsApplication.opens {F : List Token → TyExpr → Prop} {us : List Token} {e : TyExpr}
    (h : IsApplication F us e) : Opens us := by
  cases h with
  | atom h => exact h.opens
  | applied hhead _ _ => exact hhead.opens.append _

theorem IsFunction.opens {us : List Token} {e : TyExpr} (h : IsFunction us e) : Opens us := by
  cases h with
  | plain h => exact h.opens
  | arrow harg _ => exact harg.opens.append _

/-! ## What the reader accepts is in the grammar -/

/-- The rule reads only what `F` admits. -/
def Sound {α : Type} (r : Rule α) (F : List Token → α → Prop) : Prop :=
  ∀ ts a rest, r ts = (.ok a, rest) → ∃ used, ts = used ++ rest ∧ F (used.map Lexeme.token) a

theorem Sound.consumes {r : Rule TyExpr} {F : List Token → TyExpr → Prop} (h : Sound r F)
    (hF : ∀ us e, F us e → us ≠ []) : r.Consumes := by
  intro ts e rest hok
  obtain ⟨used, rfl, hused⟩ := h ts e rest hok
  have hne : used ≠ [] := by
    rintro rfl
    exact hF _ _ hused rfl
  have hpos := List.length_pos_iff.2 hne
  simp only [List.length_append]
  omega

section
variable {f : Rule TyExpr} {F : List Token → TyExpr → Prop}

theorem comma_consumes (hf : Sound f F) : (Rule.right (.mark .comma) f).Consumes := by
  intro ts e rest hok
  obtain ⟨mid, _, hmark, he⟩ := Rule.right_ok.1 hok
  obtain ⟨_, t, rfl, _⟩ := Rule.mark_ok.1 hmark
  obtain ⟨used, rfl, _⟩ := hf mid e rest he
  simp only [List.length_cons, List.length_append]
  omega

/-- Items behind a first one. -/
theorem items_of_repeats (hf : Sound f F) {ts rest : List Lexeme} {es : List TyExpr}
    (h : Rule.Repeats (.right (.mark .comma) f) ts es rest) {us : List Token} {e : TyExpr} (he : F us e) :
    ∃ used, ts = used ++ rest ∧ Items F (us ++ used.map Lexeme.token) (e :: es) := by
  induction h generalizing us e with
  | stop _ => exact ⟨[], rfl, by simpa using .one he⟩
  | step hok _ ih =>
    obtain ⟨mid, _, hmark, hitem⟩ := Rule.right_ok.1 hok
    obtain ⟨_, t, rfl, ht⟩ := Rule.mark_ok.1 hmark
    obtain ⟨used, rfl, hused⟩ := hf _ _ _ hitem
    obtain ⟨more, rfl, hmore⟩ := ih hused
    refine ⟨t :: (used ++ more), by simp, ?_⟩
    simpa [ht] using Items.more he hmore

theorem sepBy1_sound (hf : Sound f F) : Sound (.sepBy1 f (.mark .comma)) (Items F) := by
  intro ts es rest hok
  obtain ⟨⟨e, es⟩, hboth, rfl⟩ := Rule.map_ok.1 hok
  obtain ⟨mid, he, hes⟩ := Rule.both_ok.1 hboth
  obtain ⟨used, rfl, hused⟩ := hf _ _ _ he
  obtain ⟨more, rfl, hmore⟩ := items_of_repeats hf ((Rule.many_ok (comma_consumes hf)).1 hes) hused
  exact ⟨used ++ more, by simp, by simpa using hmore⟩

theorem atom_sound (hf : Sound f F) : Sound (atom f) (IsAtom F) := by
  intro ts e rest hok
  -- the four forms of an atom, in the order in which they are tried
  rcases Rule.orElse_ok.1 hok with hok | ⟨_, hok⟩
  · rcases Rule.orElse_ok.1 hok with hok | ⟨_, hok⟩
    · rcases Rule.orElse_ok.1 hok with hok | ⟨_, hok⟩
      · obtain ⟨x, hx, rfl⟩ := Rule.map_ok.1 hok
        obtain ⟨t, rfl, ht⟩ := Rule.ident_ok.1 hx
        exact ⟨[t], rfl, by simpa [ht] using .name x⟩
      · obtain ⟨_, hboth, rfl⟩ := Rule.map_ok.1 hok
        obtain ⟨mid, hopen, hclose⟩ := Rule.both_ok.1 hboth
        obtain ⟨_, l, rfl, hl⟩ := Rule.mark_ok.1 hopen
        obtain ⟨_, r, rfl, hr⟩ := Rule.mark_ok.1 hclose
        exact ⟨[l, r], rfl, by simpa [hl, hr] using IsAtom.unit (F := F)⟩
    · obtain ⟨es, hin, rfl⟩ := Rule.map_ok.1 hok
      obtain ⟨mid, _, hinner, hclose⟩ := Rule.left_ok.1 hin
      obtain ⟨_, _, hopen, hes⟩ := Rule.right_ok.1 hinner
      obtain ⟨_, l, rfl, hl⟩ := Rule.mark_ok.1 hopen
      obtain ⟨_, r, rfl, hr⟩ := Rule.mark_ok.1 hclose
      obtain ⟨used, rfl, hused⟩ := sepBy1_sound hf _ _ _ hes
      exact ⟨l :: (used ++ [r]), by simp, by simpa [hl, hr] using hused.isAtom⟩
  · obtain ⟨item, hin, rfl⟩ := Rule.map_ok.1 hok
    obtain ⟨mid, _, hinner, hclose⟩ := Rule.left_ok.1 hin
    obtain ⟨_, _, hopen, hitem⟩ := Rule.right_ok.1 hinner
    obtain ⟨_, l, rfl, hl⟩ := Rule.mark_ok.1 hopen
    obtain ⟨_, r, rfl, hr⟩ := Rule.mark_ok.1 hclose
    obtain ⟨used, rfl, hused⟩ := hf _ _ _ hitem
    exact ⟨l :: (used ++ [r]), by simp, by simpa [hl, hr] using .list hused⟩

theorem atom_consumes (hf : Sound f F) : (atom f).Consumes :=
  (atom_sound hf).consumes fun _ _ h => h.opens.ne_nil

theorem atoms_of_repeats (hf : Sound f F) {ts rest : List Lexeme} {es : List TyExpr}
    (h : Rule.Repeats (atom f) ts es rest) : ∃ used, ts = used ++ rest ∧ Atoms F (used.map Lexeme.token) es := by
  induction h with
  | stop _ => exact ⟨[], rfl, .nil⟩
  | step hok _ ih =>
    obtain ⟨used, rfl, hused⟩ := atom_sound hf _ _ _ hok
    obtain ⟨more, rfl, hmore⟩ := ih
    exact ⟨used ++ more, by simp, by simpa using .cons hused hmore⟩

theorem application_sound (hf : Sound f F) : Sound (application f) (IsApplication F) := by
  intro ts e rest hok
  obtain ⟨⟨head, args⟩, hboth, happly⟩ := Rule.check_ok.1 hok
  obtain ⟨mid, hhead, hargs⟩ := Rule.both_ok.1 hboth
  obtain ⟨used, rfl, hused⟩ := atom_sound hf _ _ _ (Rule.label_ok.1 hhead)
  obtain ⟨more, rfl, hmore⟩ := atoms_of_repeats hf ((Rule.many_ok (atom_consumes hf)).1 hargs)
  refine ⟨used ++ more, by simp, ?_⟩
  rcases apply_ok.1 happly with ⟨rfl, rfl⟩ | ⟨hsome, x, rfl, rfl⟩
  · have hnil : more.map Lexeme.token = [] := by
      generalize more.map Lexeme.token = us at hmore
      cases hmore
      rfl
    simpa [hnil] using IsApplication.atom hused
  · simpa using IsApplication.applied hused hmore hsome

end

theorem function_sound : ∀ depth, Sound (function depth) IsFunction
  | 0 => by
    intro ts e rest hok
    cases hok
  | depth + 1 => by
    intro ts e rest hok
    have hf := function_sound depth
    obtain ⟨⟨arg, result⟩, hboth, he⟩ := Rule.map_ok.1 hok
    obtain ⟨mid, harg, hresult⟩ := Rule.both_ok.1 hboth
    obtain ⟨used, rfl, hused⟩ := application_sound hf _ _ _ harg
    rcases Rule.optional_ok.1 hresult with ⟨b, hb, hright⟩ | ⟨hb, rfl, _⟩
    · obtain ⟨_, _, hmark, hb'⟩ := Rule.right_ok.1 hright
      obtain ⟨_, t, rfl, ht⟩ := Rule.mark_ok.1 hmark
      obtain ⟨more, rfl, hmore⟩ := hf _ _ _ hb'
      obtain rfl : result = some b := hb
      subst he
      exact ⟨used ++ t :: more, by simp, by simpa [ht] using .arrow hused hmore⟩
    · obtain rfl : result = none := hb
      subst he
      exact ⟨used, rfl, .plain hused⟩

theorem signature_sound (depth : Nat) : Sound (signature depth) IsSignature := by
  intro ts e rest hok
  have hf := function_sound depth
  obtain ⟨mid, o, hcontext, he⟩ := Rule.right_ok.1 hok
  obtain ⟨used, rfl, hused⟩ := hf _ _ _ he
  rcases Rule.optional_ok.1 hcontext with ⟨c, _, hleft⟩ | ⟨_, rfl, _⟩
  · obtain ⟨_, _, hc, hmark⟩ := Rule.left_ok.1 hleft
    obtain ⟨_, t, rfl, ht⟩ := Rule.mark_ok.1 hmark
    obtain ⟨front, rfl, hfront⟩ := application_sound hf _ _ _ hc
    exact ⟨front ++ t :: used, by simp, by simpa [ht] using .context hfront hused⟩
  · exact ⟨used, rfl, .plain hused⟩

/-! ## What is in the grammar is accepted -/

/-- The rule reads what `F` admits, up to `n` tokens of it, where no type goes on behind it. -/
def Complete (r : Rule TyExpr) (F : List Token → TyExpr → Prop) (n : Nat) : Prop :=
  ∀ used e rest, used.length ≤ n → F (used.map Lexeme.token) e → Ends rest → r (used ++ rest) = (.ok e, rest)

theorem mark_cons {what : Token} {t : Lexeme} {rest : List Lexeme} (h : t.token = what) :
    Rule.mark what (t :: rest) = (.ok what, rest) :=
  Rule.mark_ok.2 ⟨rfl, t, rfl, h⟩

theorem mark_fails {what : Token} {ts : List Lexeme} (h : ∀ t ∈ ts.head?, t.token ≠ what) :
    Rule.Fails (.mark what) ts := by
  intro u rest hok
  obtain ⟨_, t, rfl, ht⟩ := Rule.mark_ok.1 hok
  exact h t rfl ht

theorem ident_fails {ts : List Lexeme} (h : ∀ t ∈ ts.head?, ∀ x, t.token ≠ .ident x) : Rule.Fails .ident ts := by
  intro x rest hok
  obtain ⟨t, rfl, ht⟩ := Rule.ident_ok.1 hok
  exact h t rfl x ht

section
variable {f : Rule TyExpr} {F : List Token → TyExpr → Prop} {n : Nat}

theorem atom_fails {ts : List Lexeme} (h : NoAtom ts) : Rule.Fails (atom f) ts := by
  have hno : ∀ u, opensAtom u = true → ∀ t ∈ ts.head?, t.token ≠ u := by
    rintro u hu t ht rfl
    rw [h t ht] at hu
    cases hu
  have hparen := mark_fails (hno .lparen rfl)
  have hbracket := mark_fails (hno .lbracket rfl)
  have hname := ident_fails fun t ht x => hno (.ident x) rfl t ht
  refine .orElse (.orElse (.orElse (hname.map _) ((hparen.both _).map _)) ?_) ?_
  · exact (((((hparen.both _).map _).both _).map _).map _)
  · exact (((((hbracket.both _).map _).both _).map _).map _)

/-- Items end at a bracket that closes. -/
theorem items_complete (hf : Complete f F n) (rest : List Lexeme)
    (hrest : ∀ t ∈ rest.head?, t.token = .rparen) {us : List Token} {es : List TyExpr} (h : Items F us es) :
    ∀ used : List Lexeme, used.map Lexeme.token = us → used.length ≤ n →
      ∃ e es' mid, es = e :: es' ∧ f (used ++ rest) = (.ok e, mid) ∧
        Rule.Repeats (.right (.mark .comma) f) mid es' rest := by
  have hends : Ends rest := fun t ht => by rw [hrest t ht]; exact ⟨rfl, by simp⟩
  have hstop : Rule.Fails (Rule.right (.mark .comma) f) rest :=
    ((mark_fails fun t ht => by rw [hrest t ht]; simp).both _).map _
  induction h with
  | one he =>
    rintro used rfl hlen
    exact ⟨_, [], rest, rfl, hf used _ rest hlen he hends, .stop hstop⟩
  | more he _ ih =>
    intro used hused hlen
    obtain ⟨front, back, rfl, rfl, hback⟩ := List.map_eq_append_iff.1 hused
    obtain ⟨t, back, rfl, ht, rfl⟩ := List.map_eq_cons_iff.1 hback
    simp only [List.length_append, List.length_cons] at hlen
    obtain ⟨e', es', mid, rfl, hitem, hmore⟩ := ih back rfl (by omega)
    have hcomma : Ends (t :: (back ++ rest)) := by
      intro t' ht'
      cases ht'
      rw [ht]
      exact ⟨rfl, by simp⟩
    refine ⟨_, _, t :: (back ++ rest), rfl, ?_, .step (Rule.right_ok.2 ⟨_, _, mark_cons ht, hitem⟩) hmore⟩
    simpa using hf front _ _ (by omega) he hcomma

/-- Tokens between brackets. -/
theorem split_brackets {used : List Lexeme} {us : List Token} {u v : Token}
    (h : used.map Lexeme.token = u :: (us ++ [v])) :
    ∃ l inner r, used = l :: (inner ++ [r]) ∧ l.token = u ∧ inner.map Lexeme.token = us ∧ r.token = v := by
  obtain ⟨l, _, rfl, hl, happend⟩ := List.map_eq_cons_iff.1 h
  obtain ⟨inner, close, rfl, hinner, hclose⟩ := List.map_eq_append_iff.1 happend
  obtain ⟨r, _, rfl, hr, hnil⟩ := List.map_eq_cons_iff.1 hclose
  obtain rfl := List.map_eq_nil_iff.1 hnil
  exact ⟨l, inner, r, rfl, hl, hinner, hr⟩

/-- A group is read whatever stands behind it. -/
theorem group_complete (hs : Sound f F) (hf : Complete f F n) (hF : ∀ us e, F us e → Opens us) {inner : List Lexeme}
    {es : List TyExpr} (hlen : inner.length ≤ n) (hes : Items F (inner.map Lexeme.token) es) {l r : Lexeme}
    (hl : l.token = .lparen) (hr : r.token = .rparen) (rest : List Lexeme) :
    atom f (l :: (inner ++ r :: rest)) = (.ok (group es), rest) := by
  -- what stands inside begins an atom, so the parenthesis does not close at once
  obtain ⟨u, us', hopens, hu⟩ := hes.opens hF
  obtain ⟨first, inner', rfl, hfirst, _⟩ := List.map_eq_cons_iff.1 hopens
  have hname : Rule.Fails .ident (l :: (first :: inner' ++ r :: rest)) := ident_fails (by simp [hl])
  have hunit : Rule.Fails (Rule.both (.mark .lparen) (.mark .rparen)) (l :: (first :: inner' ++ r :: rest)) := by
    intro x rest' hok
    obtain ⟨mid, hopen, hclose⟩ := Rule.both_ok.1 hok
    obtain ⟨_, t, heq, _⟩ := Rule.mark_ok.1 hopen
    cases heq
    obtain ⟨_, t, heq, ht⟩ := Rule.mark_ok.1 hclose
    cases heq
    rw [← hfirst, ht] at hu
    cases hu
  obtain ⟨e, es, mid, rfl, he, hmore⟩ := items_complete hf (r :: rest) (by simp [hr]) hes _ rfl hlen
  have hitems : Rule.sepBy1 f (.mark .comma) (first :: inner' ++ r :: rest) = (.ok (e :: es), r :: rest) :=
    Rule.map_ok.2 ⟨(e, es), Rule.both_ok.2 ⟨mid, he, (Rule.many_ok (comma_consumes hs)).2 hmore⟩, rfl⟩
  refine Rule.orElse_ok.2 (.inl (Rule.orElse_ok.2 (.inr ⟨(hname.map _).orElse (hunit.map _), ?_⟩)))
  refine Rule.map_ok.2 ⟨e :: es, Rule.left_ok.2 ⟨r :: rest, .rparen, ?_, mark_cons hr⟩, rfl⟩
  exact Rule.right_ok.2 ⟨_, .lparen, mark_cons hl, hitems⟩

/-- An atom is read whatever stands behind it. -/
theorem atom_complete (hs : Sound f F) (hf : Complete f F n) (hF : ∀ us e, F us e → Opens us) {used : List Lexeme}
    {e : TyExpr} (hlen : used.length ≤ n + 1) (h : IsAtom F (used.map Lexeme.token) e) (rest : List Lexeme) :
    atom f (used ++ rest) = (.ok e, rest) := by
  generalize hused : used.map Lexeme.token = us at h
  cases h with
  | name x =>
    obtain ⟨t, _, rfl, ht, hnil⟩ := List.map_eq_cons_iff.1 hused
    obtain rfl := List.map_eq_nil_iff.1 hnil
    refine Rule.orElse_ok.2 (.inl (Rule.orElse_ok.2 (.inl (Rule.orElse_ok.2 (.inl ?_)))))
    exact Rule.map_ok.2 ⟨x, Rule.ident_ok.2 ⟨t, rfl, ht⟩, rfl⟩
  | unit =>
    have hempty : used.map Lexeme.token = .lparen :: ([] ++ [.rparen]) := hused
    obtain ⟨l, _, r, rfl, hl, hnil, hr⟩ := split_brackets hempty
    obtain rfl := List.map_eq_nil_iff.1 hnil
    have hname : Rule.Fails .ident (l :: r :: rest) := ident_fails (by simp [hl])
    refine Rule.orElse_ok.2 (.inl (Rule.orElse_ok.2 (.inl (Rule.orElse_ok.2 (.inr ⟨hname.map _, ?_⟩)))))
    exact Rule.map_ok.2 ⟨(.lparen, .rparen), Rule.both_ok.2 ⟨r :: rest, mark_cons hl, mark_cons hr⟩, rfl⟩
  | parens he =>
    obtain ⟨l, inner, r, rfl, hl, rfl, hr⟩ := split_brackets hused
    simp only [List.length_append, List.length_cons, List.length_nil] at hlen
    simpa [group] using group_complete hs hf hF (by omega) (.one he) hl hr rest
  | @tuple us es hes hmany =>
    obtain ⟨l, inner, r, rfl, hl, rfl, hr⟩ := split_brackets hused
    simp only [List.length_append, List.length_cons, List.length_nil] at hlen
    have hgroup : group es = .tuple es := by
      match es, hmany with
      | _ :: _ :: _, _ => rfl
    rw [← hgroup]
    simpa using group_complete hs hf hF (by omega) hes hl hr rest
  | @list us e he =>
    obtain ⟨l, inner, r, rfl, hl, rfl, hr⟩ := split_brackets hused
    simp only [List.length_append, List.length_cons, List.length_nil] at hlen
    simp only [List.cons_append, List.append_assoc, List.nil_append]
    have hname : Rule.Fails .ident (l :: (inner ++ r :: rest)) := ident_fails (by simp [hl])
    have hparen : Rule.Fails (.mark .lparen) (l :: (inner ++ r :: rest)) := mark_fails (by simp [hl])
    have hitem : f (inner ++ r :: rest) = (.ok e, r :: rest) :=
      hf inner e (r :: rest) (by omega) he (by simp [Ends, hr, opensAtom])
    refine Rule.orElse_ok.2 (.inr ⟨?_, ?_⟩)
    · refine ((hname.map _).orElse ((hparen.both _).map _)).orElse ?_
      exact (((((hparen.both _).map _).both _).map _).map _)
    · refine Rule.map_ok.2 ⟨e, Rule.left_ok.2 ⟨r :: rest, .rbracket, ?_, mark_cons hr⟩, rfl⟩
      exact Rule.right_ok.2 ⟨_, .lbracket, mark_cons hl, hitem⟩

/-- Atoms are read up to the first token that begins none. -/
theorem atoms_complete (hs : Sound f F) (hf : Complete f F n) (hF : ∀ us e, F us e → Opens us) {rest : List Lexeme}
    (hrest : NoAtom rest) {us : List Token} {es : List TyExpr} (h : Atoms F us es) :
    ∀ used : List Lexeme, used.map Lexeme.token = us → used.length ≤ n + 1 →
      Rule.Repeats (atom f) (used ++ rest) es rest := by
  induction h with
  | nil =>
    intro used hused _
    obtain rfl := List.map_eq_nil_iff.1 hused
    exact .stop (atom_fails hrest)
  | cons he _ ih =>
    intro used hused hlen
    obtain ⟨front, back, rfl, rfl, hback⟩ := List.map_eq_append_iff.1 hused
    simp only [List.length_append] at hlen
    rw [List.append_assoc]
    exact .step (atom_complete hs hf hF (by omega) he _) (ih back hback (by omega))

theorem application_complete (hs : Sound f F) (hf : Complete f F n) (hF : ∀ us e, F us e → Opens us)
    {used : List Lexeme} {e : TyExpr} (hlen : used.length ≤ n + 1) (h : IsApplication F (used.map Lexeme.token) e)
    {rest : List Lexeme} (hrest : NoAtom rest) : application f (used ++ rest) = (.ok e, rest) := by
  -- both forms are a head with arguments, of which there may be none
  have hread : ∀ (front back : List Lexeme) (head : TyExpr) (args : List TyExpr), used = front ++ back →
      IsAtom F (front.map Lexeme.token) head → Atoms F (back.map Lexeme.token) args →
      apply (head, args) = .ok e → application f (used ++ rest) = (.ok e, rest) := by
    rintro front back head args rfl hhead hargs happly
    simp only [List.length_append] at hlen
    have hmore := atoms_complete hs hf hF hrest hargs back rfl (by omega)
    refine Rule.check_ok.2 ⟨(head, args), Rule.both_ok.2 ⟨back ++ rest, ?_, ?_⟩, happly⟩
    · rw [List.append_assoc]
      exact Rule.label_ok.2 (atom_complete hs hf hF (by omega) hhead _)
    · exact (Rule.many_ok (atom_consumes hs)).2 hmore
  generalize hused : used.map Lexeme.token = us at h
  cases h with
  | atom h =>
    subst hused
    exact hread used [] e [] (by simp) h .nil (apply_ok.2 (.inl ⟨rfl, rfl⟩))
  | @applied us vs x args hhead hargs hsome =>
    obtain ⟨front, back, heq, rfl, rfl⟩ := List.map_eq_append_iff.1 hused
    exact hread front back (.con x []) args heq hhead hargs (apply_ok.2 (.inr ⟨hsome, x, rfl, rfl⟩))

end

theorem function_complete : ∀ depth, Complete (function depth) IsFunction depth
  | 0 => by
    intro used e rest hlen h _
    obtain rfl := List.length_eq_zero_iff.1 (Nat.le_zero.1 hlen)
    exact absurd rfl h.opens.ne_nil
  | depth + 1 => by
    intro used e rest hlen h hrest
    have hs := function_sound depth
    have hf := function_complete depth
    have hF : ∀ us e, IsFunction us e → Opens us := fun _ _ h => h.opens
    generalize hused : used.map Lexeme.token = us at h
    cases h with
    | plain happ =>
      subst hused
      have hnone : Rule.Fails (Rule.right (.mark .arrow) (function depth)) rest :=
        ((mark_fails fun t ht => (hrest t ht).2).both _).map _
      refine Rule.map_ok.2 ⟨(e, none), Rule.both_ok.2 ⟨rest, ?_, Rule.optional_ok.2 (.inr ⟨rfl, rfl, hnone⟩)⟩, rfl⟩
      exact application_complete hs hf hF hlen happ hrest.noAtom
    | @arrow us vs a b happ hresult =>
      obtain ⟨front, back, rfl, rfl, hback⟩ := List.map_eq_append_iff.1 hused
      obtain ⟨t, back, rfl, ht, rfl⟩ := List.map_eq_cons_iff.1 hback
      simp only [List.length_append, List.length_cons] at hlen
      have harrow : NoAtom (t :: (back ++ rest)) := by simp [NoAtom, ht, opensAtom]
      have hresult' : Rule.right (.mark .arrow) (function depth) (t :: (back ++ rest)) = (.ok b, rest) :=
        Rule.right_ok.2 ⟨_, .arrow, mark_cons ht, hf back b rest (by omega) hresult hrest⟩
      refine Rule.map_ok.2 ⟨(a, some b), Rule.both_ok.2 ⟨t :: (back ++ rest), ?_, ?_⟩, rfl⟩
      · rw [List.append_assoc]
        exact application_complete hs hf hF (by omega) happ harrow
      · exact Rule.optional_ok.2 (.inl ⟨b, rfl, hresult'⟩)

/-- There is no class context where no double arrow follows an application. -/
theorem context_fails {f : Rule TyExpr} {ts rest : List Lexeme} {c : TyExpr} (h : application f ts = (.ok c, rest))
    (hrest : ∀ t ∈ rest.head?, t.token ≠ .fatArrow) : Rule.Fails (Rule.left (application f) (.mark .fatArrow)) ts := by
  intro c' rest' hok
  obtain ⟨mid, u, hc, hmark⟩ := Rule.left_ok.1 hok
  rw [h] at hc
  cases hc
  exact mark_fails hrest u rest' hmark

theorem signature_complete {depth : Nat} {used : List Lexeme} {e : TyExpr} (hlen : used.length ≤ depth)
    (h : IsSignature (used.map Lexeme.token) e) : signature depth used = (.ok e, []) := by
  have hs := function_sound depth
  have hf := function_complete depth
  have hF : ∀ us e, IsFunction us e → Opens us := fun _ _ h => h.opens
  have hend : Ends [] := by simp [Ends]
  generalize hused : used.map Lexeme.token = us at h
  cases h with
  | plain h =>
    subst hused
    refine Rule.right_ok.2 ⟨used, none, Rule.optional_ok.2 (.inr ⟨rfl, rfl, ?_⟩), ?_⟩
    · generalize hused : used.map Lexeme.token = us at h
      cases h with
      | plain happ =>
        subst hused
        have happ := application_complete hs hf hF (by omega) happ hend.noAtom
        rw [List.append_nil] at happ
        exact context_fails happ (by simp)
      | @arrow us vs a b happ _ =>
        obtain ⟨front, back, rfl, rfl, hback⟩ := List.map_eq_append_iff.1 hused
        obtain ⟨t, back, rfl, ht, rfl⟩ := List.map_eq_cons_iff.1 hback
        simp only [List.length_append, List.length_cons] at hlen
        have hnoatom : NoAtom (t :: back) := by simp [NoAtom, ht, opensAtom]
        exact context_fails (application_complete hs hf hF (by omega) happ hnoatom) (by simp [ht])
    · simpa using hf used e [] hlen h hend
  | @context us vs c e hcontext h =>
    obtain ⟨front, back, rfl, rfl, hback⟩ := List.map_eq_append_iff.1 hused
    obtain ⟨t, back, rfl, ht, rfl⟩ := List.map_eq_cons_iff.1 hback
    simp only [List.length_append, List.length_cons] at hlen
    have hnoatom : NoAtom (t :: back) := by simp [NoAtom, ht, opensAtom]
    refine Rule.right_ok.2 ⟨back, some c, Rule.optional_ok.2 (.inl ⟨c, rfl, ?_⟩), ?_⟩
    · exact Rule.left_ok.2 ⟨t :: back, .fatArrow, application_complete hs hf hF (by omega) hcontext hnoatom,
        mark_cons ht⟩
    · simpa using hf back e [] (by omega) h hend

/-- **The reader accepts exactly the signatures.** -/
theorem ofTokens_ok {ts : List Lexeme} {e : TyExpr} : ofTokens ts = .ok e ↔ IsSignature (ts.map Lexeme.token) e := by
  constructor
  · intro h
    unfold ofTokens at h
    split at h
    · cases h
    · rename_i e' hsignature
      cases h
      obtain ⟨used, rfl, hused⟩ := signature_sound _ _ _ _ hsignature
      simpa using hused
    · cases h
  · intro h
    unfold ofTokens
    rw [signature_complete (Nat.le_succ ts.length) h]

theorem read_ok {text : String} {e : TyExpr} :
    read text = .ok e ↔ ∃ us, Token.Lexes text.toList us ∧ IsSignature us e := by
  constructor
  · intro h
    unfold read at h
    split at h
    · cases h
    · rename_i ts hts
      split at h
      · rename_i e' he
        cases h
        exact ⟨_, Token.scan_ok.1 ⟨ts, hts, rfl⟩, ofTokens_ok.1 he⟩
      · cases h
  · rintro ⟨us, hus, he⟩
    obtain ⟨ts, hts, rfl⟩ := Token.scan_ok.2 hus
    unfold read
    rw [hts]
    simp only [ofTokens_ok.2 he]

end TyExpr

end Dataflow
