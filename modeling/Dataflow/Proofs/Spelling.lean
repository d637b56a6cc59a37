import Dataflow.Proofs.Consistent
import Dataflow.Proofs.Grammar
import Dataflow.Proofs.Variables

/-!
# Types are read back from their spelling

A type that is read with the symbols of the prelude is `Ty.Written`: its names are names, its tuples
have at least two components. The canonical spelling of such a type is again type text, and reading
it gives the type back (`Ty.read_pretty`), whatever spelling it was first read from.
-/

namespace Dataflow

/-! ## Trees that come out of reading -/

namespace TyExpr

mutual

/-- The names are names, and a tuple has at least two components. -/
def WellFormed : TyExpr → Prop
  | .con x args => Token.IsName x ∧ WellFormedList args
  | .unit => True
  | .tuple items => 2 ≤ items.length ∧ WellFormedList items
  | .list item => WellFormed item
  | .func arg result => WellFormed arg ∧ WellFormed result
termination_by structural e => e

def WellFormedList : List TyExpr → Prop
  | [] => True
  | e :: es => WellFormed e ∧ WellFormedList es
termination_by structural es => es

end

/-- All names among the tokens are names. -/
def Named (us : List Token) : Prop := ∀ x, .ident x ∈ us → Token.IsName x

theorem named_append {us vs : List Token} : Named (us ++ vs) ↔ Named us ∧ Named vs := by
  simp only [Named, List.mem_append, or_imp, forall_and]

theorem named_cons {u : Token} {us : List Token} (hu : ∀ x, u ≠ .ident x) : Named (u :: us) ↔ Named us := by
  simp only [Named, List.mem_cons]
  exact forall_congr' fun x => by simp [(hu x).symm]

section
variable {F : List Token → TyExpr → Prop} {n : Nat}
  (hF : ∀ us e, us.length ≤ n → Named us → F us e → WellFormed e)
include hF

theorem Items.wellFormed {us : List Token} {es : List TyExpr} (h : Items F us es) (hlen : us.length ≤ n)
    (hnamed : Named us) : WellFormedList es := by
  induction h with
  | one he => exact ⟨hF _ _ hlen hnamed he, trivial⟩
  | @more us vs e es he _ ih =>
    rw [named_append, named_cons (by simp)] at hnamed
    simp only [List.length_append, List.length_cons] at hlen
    exact ⟨hF _ _ (by omega) hnamed.1 he, ih (by omega) hnamed.2⟩

theorem IsAtom.wellFormed {us : List Token} {e : TyExpr} (h : IsAtom F us e) (hlen : us.length ≤ n + 1)
    (hnamed : Named us) : WellFormed e := by
  cases h with
  | name x => exact ⟨hnamed x (by simp), trivial⟩
  | unit => trivial
  | parens he =>
    rw [named_cons (by simp), named_append] at hnamed
    simp only [List.length_cons, List.length_append, List.length_nil] at hlen
    exact hF _ _ (by omega) hnamed.1 he
  | tuple h hmany =>
    rw [named_cons (by simp), named_append] at hnamed
    simp only [List.length_cons, List.length_append, List.length_nil] at hlen
    exact ⟨hmany, h.wellFormed hF (by omega) hnamed.1⟩
  | list he =>
    rw [named_cons (by simp), named_append] at hnamed
    simp only [List.length_cons, List.length_append, List.length_nil] at hlen
    have hitem := hF _ _ (by omega) hnamed.1 he
    exact hitem

theorem Atoms.wellFormed {us : List Token} {es : List TyExpr} (h : Atoms F us es) (hlen : us.length ≤ n + 1)
    (hnamed : Named us) : WellFormedList es := by
  induction h with
  | nil => trivial
  | cons he _ ih =>
    rw [named_append] at hnamed
    simp only [List.length_append] at hlen
    exact ⟨he.wellFormed hF (by omega) hnamed.1, ih (by omega) hnamed.2⟩

theorem IsApplication.wellFormed {us : List Token} {e : TyExpr} (h : IsApplication F us e) (hlen : us.length ≤ n + 1)
    (hnamed : Named us) : WellFormed e := by
  cases h with
  | atom h => exact h.wellFormed hF hlen hnamed
  | applied hhead hargs _ =>
    rw [named_append] at hnamed
    simp only [List.length_append] at hlen
    have hhead := hhead.wellFormed hF (by omega) hnamed.1
    exact ⟨hhead.1, hargs.wellFormed hF (by omega) hnamed.2⟩

end

theorem IsFunction.wellFormed : ∀ (n : Nat) (us : List Token) (e : TyExpr), us.length ≤ n → Named us →
    IsFunction us e → WellFormed e
  | 0, us, e, hlen, _, h => by
    obtain rfl := List.length_eq_zero_iff.1 (Nat.le_zero.1 hlen)
    exact absurd rfl h.opens.ne_nil
  | n + 1, us, e, hlen, hnamed, h => by
    have hF := IsFunction.wellFormed n
    cases h with
    | plain h => exact h.wellFormed hF hlen hnamed
    | arrow harg hresult =>
      rw [named_append, named_cons (by simp)] at hnamed
      simp only [List.length_append, List.length_cons] at hlen
      exact ⟨harg.wellFormed hF (by omega) hnamed.1, hF _ _ (by omega) hnamed.2 hresult⟩

theorem read_wellFormed {text : String} {e : TyExpr} (h : read text = .ok e) : e.WellFormed := by
  obtain ⟨us, hus, he⟩ := read_ok.1 h
  have hnamed : Named us := fun x hx => hus.isName hx
  cases he with
  | plain he => exact IsFunction.wellFormed _ _ _ (Nat.le_refl _) hnamed he
  | context _ he =>
    rw [named_append, named_cons (by simp)] at hnamed
    exact IsFunction.wellFormed _ _ _ (Nat.le_refl _) hnamed.2 he

end TyExpr

/-! ## Types that are read with the prelude -/

namespace Ty

/-- The constructors of the prelude. -/
def constructors : List String := ["String", "List", "IO"]

mutual

/-- A type that the symbols of the prelude can write. -/
def Written : Ty → Prop
  | .atom a => a ≠ .source ∧ a ≠ .target
  | .tuple ts => 2 ≤ ts.length ∧ WrittenList ts
  | .con x args => x ∈ constructors ∧ WrittenList args
  | .var x => TyExpr.startsLower x = true ∧ Token.IsName x
  | .func a b => Written a ∧ Written b
termination_by structural t => t

def WrittenList : List Ty → Prop
  | [] => True
  | t :: ts => Written t ∧ WrittenList ts
termination_by structural ts => ts

end

theorem prelude_type {x : String} {t : Ty} (h : SymbolTable.prelude.find? x = some ⟨.type, t⟩) :
    t.Written ∧ ∀ head, t = .con head [] → head ∈ constructors := by
  have hall : ∀ entry ∈ SymbolTable.prelude.entries, entry.2.kind = .type →
      entry.2.ty ∈ [int, char, bool, float] ∨ entry.2.ty ∈ constructors.map (.con · []) := by decide +kernel
  have hmem := hall _ (Assoc.get?_mem h) rfl
  simp only [constructors, List.map_cons, List.map_nil, List.mem_cons, List.not_mem_nil, or_false] at hmem
  rcases hmem with (rfl | rfl | rfl | rfl) | (rfl | rfl | rfl) <;> simp [Written, WrittenList, constructors]

/-- A table always has its answer ready. -/
theorem meaning_resolver {m : Type → Type} [Monad m] [LawfulMonad m] (table : SymbolTable) (text x : String)
    (args : List Ty) :
    Ty.meaning (table.resolver : Resolver m) text x args =
      if TyExpr.startsLower x then pure (.var x)
      else
        match table.find? x with
        | none => throw (.unresolvedType x text)
        | some ⟨.type, ty⟩ =>
          match args, ty with
          | [], ty => pure ty
          | args, .con head [] => pure (.con head args)
          | _, _ => throw (.read (ReadError.within { message := "type `" ++ x ++ "` takes no arguments" } text))
        | some ⟨kind, _⟩ => throw (.wrongKind x kind) := by
  unfold Ty.meaning
  rw [SymbolTable.resolver, liftM_pure]
  split
  · rfl
  · exact pure_bind _ _

section
variable {σ : Type} {text : String}

theorem meaning_written {x : String} {args : List Ty} {t : Ty} (hx : Token.IsName x) (hargs : WrittenList args)
    (h : Returns (Ty.meaning (SymbolTable.prelude.resolver : Resolver (StateM σ)) text x args) t) : t.Written := by
  rw [meaning_resolver] at h
  split at h
  · rename_i hlower
    obtain rfl := h.of_pure
    exact ⟨hlower, hx⟩
  · split at h
    · exact absurd h not_returns_throw
    · rename_i ty hfind
      obtain ⟨hty, hhead⟩ := prelude_type hfind
      split at h
      · obtain rfl := h.of_pure
        exact hty
      · obtain rfl := h.of_pure
        exact ⟨hhead _ rfl, hargs⟩
      · exact absurd h not_returns_throw
    · exact absurd h not_returns_throw

mutual

theorem resolve_written : ∀ {e : TyExpr} {t : Ty}, e.WellFormed →
    Returns (e.resolve (Ty.meaning (SymbolTable.prelude.resolver : Resolver (StateM σ)) text)) t → t.Written
  | .con x args, t, hwf, h => by
    obtain ⟨ts, hts, h⟩ := h.of_bind
    exact meaning_written hwf.1 (resolveList_written hwf.2 hts).1 h
  | .unit, t, _, h => by
    obtain rfl := h.of_pure
    simp [Written]
  | .tuple items, t, hwf, h => by
    obtain ⟨ts, hts, h⟩ := h.of_bind
    obtain rfl := h.of_pure
    obtain ⟨hall, hlen⟩ := resolveList_written hwf.2 hts
    have htwo := hwf.1
    rw [hlen] at htwo
    match ts, htwo, hall with
    | t :: t' :: ts, htwo, hall => exact ⟨htwo, hall⟩
  | .list item, t, hwf, h => by
    obtain ⟨t', ht', h⟩ := h.of_bind
    obtain rfl := h.of_pure
    exact ⟨by simp [constructors], resolve_written (e := item) hwf ht', trivial⟩
  | .func arg result, t, hwf, h => by
    obtain ⟨a, ha, h⟩ := h.of_bind
    obtain ⟨b, hb, h⟩ := h.of_bind
    obtain rfl := h.of_pure
    exact ⟨resolve_written hwf.1 ha, resolve_written hwf.2 hb⟩

theorem resolveList_written : ∀ {es : List TyExpr} {ts : List Ty}, TyExpr.WellFormedList es →
    Returns (TyExpr.resolveList (Ty.meaning (SymbolTable.prelude.resolver : Resolver (StateM σ)) text) es) ts →
      WrittenList ts ∧ es.length = ts.length
  | [], ts, _, h => by
    obtain rfl := h.of_pure
    exact ⟨trivial, rfl⟩
  | e :: es, ts, hwf, h => by
    obtain ⟨t, ht, h⟩ := h.of_bind
    obtain ⟨ts', hts', h⟩ := h.of_bind
    obtain rfl := h.of_pure
    obtain ⟨hall, hlen⟩ := resolveList_written hwf.2 hts'
    exact ⟨⟨resolve_written hwf.1 ht, hall⟩, by simp [hlen]⟩

end

/-- What is read with the prelude is written. -/
theorem read_written {t : Ty} (h : Returns (Ty.read (SymbolTable.prelude.resolver : Resolver (StateM σ)) text) t) :
    t.Written := by
  unfold Ty.read at h
  split at h
  · rename_i e he
    exact resolve_written (TyExpr.read_wellFormed he) h
  · exact absurd h not_returns_throw

end

/-! ## The tree of a spelling -/

mutual

/-- The type as a tree of names. -/
def spelled : Ty → TyExpr
  | .atom .unit => .unit
  | .atom a => .con a.name []
  | .tuple ts => .tuple (spelledList ts)
  | .con x args => .con x (spelledList args)
  | .var x => .con x []
  | .func a b => .func (spelled a) (spelled b)
termination_by structural t => t

def spelledList : List Ty → List TyExpr
  | [] => []
  | t :: ts => spelled t :: spelledList ts
termination_by structural ts => ts

end

section
variable {m : Type → Type} [Monad m] [LawfulMonad m] (text : String)

/-- A constructor of the prelude means itself. -/
theorem meaning_constructor {x : String} (hx : x ∈ constructors) (args : List Ty) :
    Ty.meaning (SymbolTable.prelude.resolver : Resolver m) text x args = pure (.con x args) := by
  have hfind : TyExpr.startsLower x = false ∧ SymbolTable.prelude.find? x = some ⟨.type, .con x []⟩ := by
    have hall : ∀ x ∈ constructors,
        TyExpr.startsLower x = false ∧ SymbolTable.prelude.find? x = some ⟨.type, .con x []⟩ := by decide +kernel
    exact hall x hx
  rw [meaning_resolver, hfind.2]
  cases args <;> simp [hfind.1]

theorem meaning_atom {a : Atom} (ha : a ≠ .source ∧ a ≠ .target ∧ a ≠ .unit) :
    Ty.meaning (SymbolTable.prelude.resolver : Resolver m) text a.name [] = pure (.atom a) := by
  have hfind : TyExpr.startsLower a.name = false ∧ SymbolTable.prelude.find? a.name = some ⟨.type, .atom a⟩ := by
    cases a <;> first | decide +kernel | simp at ha
  rw [meaning_resolver, hfind.2]
  simp [hfind.1]

mutual

/-- The names of a type that is written mean it. -/
theorem resolve_spelled : ∀ {t : Ty}, t.Written →
    t.spelled.resolve (Ty.meaning (SymbolTable.prelude.resolver : Resolver m) text) = pure t
  | .atom a, h => by
    by_cases hunit : a = .unit
    · subst hunit
      rfl
    · have hname : spelled (.atom a) = .con a.name [] := by cases a <;> first | rfl | exact absurd rfl hunit
      simp [hname, TyExpr.resolve, TyExpr.resolveList, meaning_atom text ⟨h.1, h.2, hunit⟩]
  | .tuple ts, h => by
    have htuple : ofComponents ts = .tuple ts := by
      match ts, h.1 with
      | t :: t' :: ts, _ => rfl
    simp [spelled, TyExpr.resolve, resolveList_spelled h.2, htuple]
  | .con x args, h => by
    simp [spelled, TyExpr.resolve, resolveList_spelled h.2, meaning_constructor text h.1]
  | .var x, h => by
    simp [spelled, TyExpr.resolve, TyExpr.resolveList, meaning_resolver, h.1]
  | .func a b, h => by
    simp [spelled, TyExpr.resolve, resolve_spelled h.1, resolve_spelled h.2]

theorem resolveList_spelled : ∀ {ts : List Ty}, WrittenList ts →
    TyExpr.resolveList (Ty.meaning (SymbolTable.prelude.resolver : Resolver m) text) (spelledList ts) = pure ts
  | [], _ => rfl
  | _ :: _, h => by
    simp [spelledList, TyExpr.resolveList, resolve_spelled h.1, resolveList_spelled h.2]

end

end

/-! ## The tokens of a spelling -/

open TyExpr

mutual

/-- The names are names, a tuple has at least two components, and no atom stands for a type that is not
known yet. Such types can be spelled, whatever their names mean. -/
def Legible : Ty → Prop
  | .atom a => a ≠ .source ∧ a ≠ .target
  | .tuple ts => 2 ≤ ts.length ∧ LegibleList ts
  | .con x args => Token.IsName x ∧ LegibleList args
  | .var x => Token.IsName x
  | .func a b => Legible a ∧ Legible b
termination_by structural t => t

def LegibleList : List Ty → Prop
  | [] => True
  | t :: ts => Legible t ∧ LegibleList ts
termination_by structural ts => ts

end

/-- The characters are the tokens of some text with the tree `a`, whatever follows that does not
prolong a name. -/
def Spells {α : Type} (F : List Token → α → Prop) (cs : List Char) (a : α) : Prop :=
  ∃ us, F us a ∧ ∀ rest vs, Token.EndsName rest → Token.Lexes rest vs → Token.Lexes (cs ++ rest) (us ++ vs)

theorem Spells.mono {α : Type} {F G : List Token → α → Prop} (hFG : ∀ us a, F us a → G us a) {cs : List Char} {a : α}
    (h : Spells F cs a) : Spells G cs a := by
  obtain ⟨us, hus, hlex⟩ := h
  exact ⟨us, hFG us a hus, hlex⟩

theorem Spells.name {F : List Token → TyExpr → Prop} {x : String} (hx : Token.IsName x) :
    Spells (IsAtom F) x.toList (.con x []) :=
  ⟨[.ident x], .name x, fun _ _ hrest h => h.name hx hrest⟩

/-- Parentheses make an atom of any type. -/
theorem Spells.parens {cs : List Char} {e : TyExpr} (h : Spells IsFunction cs e) :
    Spells (IsAtom IsFunction) ('(' :: (cs ++ [')'])) e := by
  obtain ⟨us, hus, hlex⟩ := h
  refine ⟨.lparen :: (us ++ [.rparen]), .parens hus, fun rest vs _ h => ?_⟩
  simpa using (hlex _ _ (by simp [Token.EndsName, Token.inName]) h.rparen).lparen

theorem Spells.tuple {cs : List Char} {es : List TyExpr} (h : Spells (Items IsFunction) cs es) (hmany : 2 ≤ es.length) :
    Spells (IsAtom IsFunction) ('(' :: (cs ++ [')'])) (.tuple es) := by
  obtain ⟨us, hus, hlex⟩ := h
  refine ⟨_, .tuple hus hmany, fun rest vs _ h => ?_⟩
  simpa using (hlex _ _ (by simp [Token.EndsName, Token.inName]) h.rparen).lparen

theorem Spells.lastItem {cs : List Char} {e : TyExpr} (h : Spells IsFunction cs e) : Spells (Items IsFunction) cs [e] := by
  obtain ⟨us, hus, hlex⟩ := h
  exact ⟨us, .one hus, hlex⟩

theorem Spells.item {cs ds : List Char} {e : TyExpr} {es : List TyExpr} (h : Spells IsFunction cs e)
    (hrest : Spells (Items IsFunction) ds es) : Spells (Items IsFunction) (cs ++ ',' :: ' ' :: ds) (e :: es) := by
  obtain ⟨us, hus, hlex⟩ := h
  obtain ⟨vs, hvs, hlex'⟩ := hrest
  refine ⟨us ++ .comma :: vs, .more hus hvs, fun rest ws hrest h => ?_⟩
  have hmore := (hlex' rest ws hrest h).space.comma
  simpa using hlex _ _ (by simp [Token.EndsName, Token.inName]) hmore

theorem Spells.arrow {cs ds : List Char} {e d : TyExpr} (harg : Spells (IsApplication IsFunction) cs e)
    (hresult : Spells IsFunction ds d) : Spells IsFunction (cs ++ ' ' :: '-' :: '>' :: ' ' :: ds) (.func e d) := by
  obtain ⟨us, hus, hlex⟩ := harg
  obtain ⟨vs, hvs, hlex'⟩ := hresult
  refine ⟨us ++ .arrow :: vs, .arrow hus hvs, fun rest ws hrest h => ?_⟩
  have hresult := (hlex' rest ws hrest h).space.arrow.space
  simpa using hlex _ _ (by simp [Token.EndsName, Token.inName]) hresult

/-! Arguments stand behind a name, each with a blank in front. -/

/-- Words with a blank between them. -/
theorem intercalate_blank (s : String) (l : List String) :
    (" ".intercalate (s :: l)).toList = s.toList ++ l.flatMap fun x => ' ' :: x.toList := by
  rw [String.toList_intercalate]
  induction l generalizing s with
  | nil => simp
  | cons x l ih => simpa [List.intercalate_cons_cons] using ih x

theorem endsName_blanks (l : List String) {rest : List Char} (hrest : Token.EndsName rest) :
    Token.EndsName ((l.flatMap fun x => ' ' :: x.toList) ++ rest) := by
  cases l with
  | nil => exact hrest
  | cons x l => simp [Token.EndsName, Token.inName]

theorem Spells.atom {s : String} {l : List String} {e : TyExpr} {es : List TyExpr}
    (h : Spells (IsAtom IsFunction) s.toList e)
    (hrest : Spells (Atoms IsFunction) (l.flatMap fun x => ' ' :: x.toList) es) :
    Spells (Atoms IsFunction) ((s :: l).flatMap fun x => ' ' :: x.toList) (e :: es) := by
  obtain ⟨us, hus, hlex⟩ := h
  obtain ⟨vs, hvs, hlex'⟩ := hrest
  refine ⟨us ++ vs, .cons hus hvs, fun rest ws hrest h => ?_⟩
  simpa using (hlex _ _ (endsName_blanks _ hrest) (hlex' rest ws hrest h)).space

theorem Spells.applied {x : String} (hx : Token.IsName x) {l : List String} {es : List TyExpr}
    (h : Spells (Atoms IsFunction) (l.flatMap fun x => ' ' :: x.toList) es) (hne : es ≠ []) :
    Spells (IsApplication IsFunction) (" ".intercalate (x :: l)).toList (.con x es) := by
  obtain ⟨us, hus, hlex⟩ := h
  refine ⟨.ident x :: us, .applied (.name x) hus hne, fun rest vs hrest h => ?_⟩
  rw [intercalate_blank, List.append_assoc]
  exact (hlex rest vs hrest h).name hx (endsName_blanks _ hrest)

/-- What the spelling of a type is: an atom, unless it has arguments or arrows. -/
def Shape (t : Ty) : List Token → TyExpr → Prop :=
  if t.isFunction then IsFunction else if t.isCompound then IsApplication IsFunction else IsAtom IsFunction

section
variable {t : Ty} {s : String} {e : TyExpr}

theorem Spells.function (h : Spells t.Shape s.toList e) : Spells IsFunction s.toList e := by
  refine h.mono fun us e hus => ?_
  unfold Shape at hus
  split at hus
  · exact hus
  · split at hus
    · exact .plain hus
    · exact .plain (.atom hus)

/-- The argument of a function type is in parentheses if it is a function type itself. -/
theorem Spells.domain (h : Spells t.Shape s.toList e) :
    Spells (IsApplication IsFunction) (parenthesize t.isFunction s).toList e := by
  cases hfun : t.isFunction with
  | true =>
    have hparens := h.function.parens.mono fun _ _ => IsApplication.atom
    simpa [parenthesize] using hparens
  | false =>
    refine Spells.mono (fun us e hus => ?_) h
    simp only [Shape, hfun, Bool.false_eq_true, if_false] at hus
    split at hus
    · exact hus
    · exact IsApplication.atom hus

/-- The argument of a constructor is in parentheses if it is more than an atom. -/
theorem Spells.argument (h : Spells t.Shape s.toList e) :
    Spells (IsAtom IsFunction) (parenthesize t.isCompound s).toList e := by
  cases hcompound : t.isCompound with
  | true => simpa [parenthesize] using h.function.parens
  | false =>
    have hfun : t.isFunction = false := by cases t <;> first | rfl | cases hcompound
    refine Spells.mono (fun us e hus => ?_) h
    simpa [Shape, hfun, hcompound] using hus

end

theorem isName_constructor {x : String} (hx : x ∈ constructors) : Token.IsName x := by
  simp only [constructors, List.mem_cons, List.not_mem_nil, or_false] at hx
  rcases hx with rfl | rfl | rfl <;> exact ⟨_, _, rfl, by decide, List.all_eq_true.1 (by decide)⟩

theorem isName_atom {a : Atom} (ha : a ≠ .source ∧ a ≠ .target) (hunit : a ≠ .unit) : Token.IsName a.name := by
  cases a <;> first | exact absurd rfl ha.1 | exact absurd rfl ha.2 | exact absurd rfl hunit |
    exact ⟨_, _, rfl, by decide, List.all_eq_true.1 (by decide)⟩

mutual

theorem Written.legible : ∀ {t : Ty}, t.Written → t.Legible
  | .atom _, h => h
  | .tuple _, h => ⟨h.1, WrittenList.legible h.2⟩
  | .con _ _, h => ⟨isName_constructor h.1, WrittenList.legible h.2⟩
  | .var _, h => h.2
  | .func _ _, h => ⟨Written.legible h.1, Written.legible h.2⟩

theorem WrittenList.legible : ∀ {ts : List Ty}, WrittenList ts → LegibleList ts
  | [], _ => trivial
  | _ :: _, h => ⟨Written.legible h.1, WrittenList.legible h.2⟩

end

mutual

theorem spells_pretty : ∀ {t : Ty}, t.Legible → Spells t.Shape t.pretty.toList t.spelled
  | .atom a, h => by
    by_cases hunit : a = .unit
    · subst hunit
      exact ⟨[.lparen, .rparen], .unit, fun _ _ _ h => h.rparen.lparen⟩
    · have hname : spelled (.atom a) = .con a.name [] := by cases a <;> first | rfl | exact absurd rfl hunit
      rw [hname]
      exact Spells.name (isName_atom h hunit)
  | .tuple ts, h => by
    have hne : ts ≠ [] := by
      rintro rfl
      exact absurd h.1 (by simp)
    have hmany : 2 ≤ (spelledList ts).length := by
      match ts, h.1 with
      | _ :: _ :: _, _ => simp [spelledList]
    have htext : (pretty (.tuple ts)).toList = '(' :: ((", ".intercalate (prettyList ts)).toList ++ [')']) := by
      simp [pretty]
    rw [htext]
    exact (spells_items h.2 hne).tuple hmany
  | .con x [], h => by
    have htext : (pretty (.con x [])).toList = x.toList := by simp [pretty, prettyArgs]
    rw [htext]
    exact Spells.name h.1
  | .con x (t :: ts), h => by
    have hargs : Spells (Atoms IsFunction) ((prettyArgs (t :: ts)).flatMap fun x => ' ' :: x.toList) (spelledList (t :: ts)) :=
      spells_args h.2
    exact Spells.applied h.1 hargs (by simp [spelledList])
  | .var x, h => Spells.name h
  | .func a b, h => by
    have htext : (pretty (.func a b)).toList =
        (parenthesize a.isFunction a.pretty).toList ++ ' ' :: '-' :: '>' :: ' ' :: b.pretty.toList := by simp [pretty]
    rw [htext]
    exact (spells_pretty h.1).domain.arrow (spells_pretty h.2).function

theorem spells_items : ∀ {ts : List Ty}, LegibleList ts → ts ≠ [] →
    Spells (Items IsFunction) (", ".intercalate (prettyList ts)).toList (spelledList ts)
  | [t], h, _ => by
    have htext : ", ".intercalate (prettyList [t]) = t.pretty := by simp [prettyList]
    rw [htext]
    exact (spells_pretty h.1).function.lastItem
  | t :: t' :: ts, h, _ => by
    have htext : (", ".intercalate (prettyList (t :: t' :: ts))).toList =
        t.pretty.toList ++ ',' :: ' ' :: (", ".intercalate (prettyList (t' :: ts))).toList := by
      simp [prettyList, String.toList_intercalate]
    rw [htext]
    exact (spells_pretty h.1).function.item (spells_items h.2 (by simp))

theorem spells_args : ∀ {ts : List Ty}, LegibleList ts →
    Spells (Atoms IsFunction) ((prettyArgs ts).flatMap fun x => ' ' :: x.toList) (spelledList ts)
  | [], _ => ⟨[], .nil, fun _ _ _ h => h⟩
  | _ :: _, h => (spells_pretty h.1).argument.atom (spells_args h.2)

end

/-- The canonical spelling of a type is type text, and its tree is the type with the names left open. -/
theorem read_legible {t : Ty} (h : t.Legible) : TyExpr.read t.pretty = .ok t.spelled := by
  obtain ⟨us, hus, hlex⟩ := (spells_pretty h).function
  have hall := hlex [] [] (by simp [Token.EndsName]) .done
  rw [List.append_nil, List.append_nil] at hall
  exact TyExpr.read_ok.2 ⟨us, hall, .plain hus⟩

/-- **A type that is written is read back from its spelling.** -/
theorem read_pretty {m : Type → Type} [Monad m] [LawfulMonad m] {t : Ty} (h : t.Written) :
    Ty.read (SymbolTable.prelude.resolver : Resolver m) t.pretty = pure t := by
  unfold Ty.read
  rw [read_legible h.legible]
  exact resolve_spelled t.pretty h

end Ty

end Dataflow
