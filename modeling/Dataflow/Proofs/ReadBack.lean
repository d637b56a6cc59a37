import Dataflow.Proofs.Formed
import Dataflow.Proofs.Literals

/-!
# Morphisms that read back

A morphism that was read and whose text can be told apart from other texts (`Morphism.Legible`) is
read from its own text again (`Morphism.read_render`). The argument follows the text: every part of it
is read as the part of the morphism that it is the text of (`Reads`).
-/

namespace Dataflow

/-! ## Answers that do not change -/

section
variable {σ ε α β : Type}

/-- A resolver that always gives the same answer for a name. -/
def Stable (find : Resolver (StateM σ)) : Prop :=
  ∀ name s s', ((find name).run s).1 = ((find name).run s').1

/-- A computation that gives a value whatever the state is. -/
def Gives (x : ExceptT ε (StateM σ) α) (a : α) : Prop := ∀ s, (x.run.run s).1 = .ok a

theorem gives_pure (a : α) : Gives (pure a : ExceptT ε (StateM σ) α) a := fun _ => rfl

theorem Gives.bind {x : ExceptT ε (StateM σ) α} {f : α → ExceptT ε (StateM σ) β} {a : α} {b : β} (hx : Gives x a)
    (hf : Gives (f a) b) : Gives (x >>= f) b := by
  intro s
  have hstep := hx s
  have hnext := hf ((x.run.run s).2)
  simp only [ExceptT.run_bind, StateT.run_bind]
  rcases h : x.run.run s with ⟨r, s'⟩
  rw [h] at hstep hnext
  dsimp only at hstep hnext
  subst hstep
  exact hnext

theorem Stable.gives_lookup {find : Resolver (StateM σ)} (hfind : Stable find) {whole name : String} {f : Morphism}
    (h : Returns (Term.lookup find whole name) f) (whole' : String) : Gives (Term.lookup find whole' name) f := by
  obtain ⟨symbol, ⟨s₀, s₁, hsymbol⟩, h⟩ := h.of_bind
  have hgives : Gives (liftM (find name) : ExceptT TypingError (StateM σ) (Option Symbol)) symbol := by
    intro s
    have hfirst : (Except.ok ((find name).run s₀).1 : Except TypingError _) = .ok symbol := congrArg Prod.fst hsymbol
    rw [hfind name s₀ s] at hfirst
    exact hfirst
  refine hgives.bind ?_
  split at h
  · exact absurd h not_returns_throw
  · obtain rfl := h.of_pure
    exact gives_pure _
  · obtain rfl := h.of_pure
    exact gives_pure _
  · exact absurd h not_returns_throw

end

/-! ## Texts and what they are read as -/

section
variable {σ : Type} {find : Resolver (StateM σ)} {sep sep' : Char → Bool} {t : List Char} {m : Morphism}

/-- A text that is read as a morphism, as a whole or as a part of another text. -/
structure Reads (find : Resolver (StateM σ)) (sep : Char → Bool) (t : List Char) (m : Morphism) : Prop where
  closed : Text.Closed sep t
  trimmed : Text.trimBlank t = t
  nonempty : t ≠ []
  reads : ∀ whole depth, t.length < depth → Gives ((Term.readWithin whole depth t).elaborate find whole) m

namespace Reads

theorem weaken (h : Reads find sep t m) (hsep : ∀ c, sep' c = true → sep c = true) : Reads find sep' t m :=
  { h with closed := h.closed.weaken hsep }

/-- It is enough to look at one level of reading. -/
theorem of_succ (hclosed : Text.Closed sep t) (htrim : Text.trimBlank t = t) (hne : t ≠ [])
    (h : ∀ whole d, t.length ≤ d → Gives ((Term.readWithin whole (d + 1) t).elaborate find whole) m) :
    Reads find sep t m := by
  refine ⟨hclosed, htrim, hne, fun whole depth hdepth => ?_⟩
  cases depth with
  | zero => exact absurd hdepth (Nat.not_lt_zero _)
  | succ d => exact h whole d (Nat.le_of_lt_succ hdepth)

/-- A blank in front does not matter. -/
theorem reads_blank (h : Reads find sep t m) (whole : String) {depth : Nat} (hdepth : t.length < depth) :
    Gives ((Term.readWithin whole depth (' ' :: t)).elaborate find whole) m := by
  have hreads := h.reads whole depth hdepth
  cases depth with
  | zero => exact absurd hdepth (Nat.not_lt_zero _)
  | succ d =>
    unfold Term.readWithin at hreads ⊢
    rwa [Text.trimBlank_blank (by decide)]

/-- Parentheses do not matter, unless they make a literal. -/
theorem enclose (h : Reads find sep t m) (hnumber : Literal.number? t = none) : Reads find sep' ('(' :: t ++ [')']) m := by
  have htrim : Text.trimBlank ('(' :: t ++ [')']) = '(' :: t ++ [')'] := Text.trimBlank_between (by decide) (by decide) t
  refine .of_succ h.closed.enclose htrim (by simp) fun whole d hdepth => ?_
  have hliteral : Literal.read? ('(' :: t ++ [')']) = .ok none := by
    rw [Literal.read?_enclosed h.nonempty h.trimmed, hnumber]
    rfl
  have hclosed : Text.Closed Text.isBlank ('(' :: t ++ [')']) := h.closed.enclose
  have hfilter : ([('(' :: t ++ [')'])].filter fun part => !part.isEmpty) = ['(' :: t ++ [')']] := by simp
  rw [Term.readWithin_plain htrim (by simp) (by simp), hliteral]
  simp only [Term.ofTerms, hclosed.splitTop, hfilter, h.closed.enclosed?]
  exact h.reads whole d (by simp at hdepth; omega)

end Reads

theorem Term.Word.reads {name : String} (h : Term.Word name.toList)
    (hparens : Text.parens 0 (Text.pieces name.toList).list = some 0)
    (hlookup : ∀ whole, Gives (Term.lookup find whole name) m) : Reads find Text.isBlank name.toList m := by
  refine .of_succ (h.closed hparens) h.trimmed h.nonempty fun whole d _ => ?_
  rw [h.read, String.ofList_toList]
  exact hlookup whole

theorem Literal.WrittenAs.reads {l : Literal} (h : l.WrittenAs t) : Reads find Text.isBlank t (.literal l) := by
  refine .of_succ h.closed h.trimmed h.nonempty fun whole d _ => ?_
  rw [Term.readWithin_plain h.trimmed h.nonempty h.plain, h.read]
  exact gives_pure _

theorem reads_hole : Reads find Text.isBlank ['$'] (.slot none) :=
  .of_succ (Text.closed_of_plain (by decide)) (by decide) (by simp) fun _ _ _ => gives_pure _

theorem gives_elaborateList {whole : String} {ts : List Term} {fs : List Morphism}
    (h : List.Forall₂ (fun t f => Gives (Term.elaborate find whole t) f) ts fs) :
    Gives (Term.elaborateList find whole ts) fs := by
  induction h with
  | nil => exact gives_pure _
  | cons hfirst _ ih => exact hfirst.bind (ih.bind (gives_pure _))

theorem gives_elaborateArgs {whole : String} {ts : List (Nat × Term)} {fs : List (Nat × Morphism)}
    (h : List.Forall₂ (fun t f => t.1 = f.1 ∧ Gives (Term.elaborate find whole t.2) f.2) ts fs) :
    Gives (Term.elaborateArgs find whole ts) fs := by
  induction h with
  | nil => exact gives_pure _
  | @cons t f ts fs hfirst _ ih =>
    obtain ⟨i, t⟩ := t
    obtain ⟨j, f⟩ := f
    obtain ⟨rfl, hfirst⟩ := hfirst
    exact hfirst.bind (ih.bind (gives_pure _))

/-- A tuple is read by its parts. -/
theorem reads_tuple {texts : List (List Char)} {parts : List Morphism} (hne : texts ≠ [])
    (h : List.Forall₂ (Reads find Text.isComma) texts parts) (hparts : Morphism.ofParts parts = .ok m)
    (hsep : sep '!' = false) : Reads find sep ('!' :: '(' :: [',', ' '].intercalate texts ++ [')']) m := by
  obtain ⟨t, ts, rfl⟩ := List.exists_cons_of_ne_nil hne
  rw [Text.intercalate_blank]
  -- all parts but the first have a blank in front
  have hreads : List.Forall₂ (fun t f => Text.Closed Text.isComma t ∧ ∀ whole depth, t.length < depth →
      Gives ((Term.readWithin whole depth t).elaborate find whole) f) (t :: ts.map (' ' :: ·)) parts := by
    obtain _ | ⟨hfirst, hrest⟩ := h
    refine .cons ⟨hfirst.closed, hfirst.reads⟩ (List.forall₂_map_left_iff.2 (hrest.imp fun u f hu => ⟨?_, ?_⟩))
    · exact hu.closed.blank (by decide)
    · exact fun whole depth hdepth => hu.reads_blank whole (by simp at hdepth; omega)
  have hsome : t :: ts.map (' ' :: ·) ≠ [] := by simp
  generalize t :: ts.map (' ' :: ·) = pieces at hreads hsome ⊢
  have hclosed : ∀ u ∈ pieces, Text.Closed Text.isComma u := fun u hu => by
    obtain ⟨k, hk, rfl⟩ := List.mem_iff_getElem.1 hu
    exact (hreads.get hk (hreads.length_eq ▸ hk)).1
  obtain ⟨hcut, hinner⟩ := Text.splitTop_separated (c := ',') (Or.inr rfl) (by decide) hsome hclosed
  have hshort := (Text.splitTop_joined hcut).2.length_le
  generalize [','].intercalate pieces = inner at hcut hinner hshort ⊢
  have htrim : Text.trimBlank ('!' :: '(' :: inner ++ [')']) = '!' :: '(' :: inner ++ [')'] :=
    Text.trimBlank_between (by decide) (by decide) ('(' :: inner)
  have hrest : Text.trimBlank ('(' :: inner ++ [')']) = '(' :: inner ++ [')'] :=
    Text.trimBlank_between (by decide) (by decide) inner
  refine .of_succ (Text.Closed.mark hinner.enclose hsep) htrim (by simp) fun whole d hdepth => ?_
  have hread : Term.readWithin whole (d + 1) ('!' :: '(' :: inner ++ [')']) =
      .tuple (String.ofList ('!' :: '(' :: inner ++ [')'])) (pieces.map (Term.readWithin whole d)) := by
    unfold Term.readWithin
    dsimp only
    rw [htrim]
    simp only [List.cons_append] at hrest ⊢
    rw [Term.ofTuple, hrest, ← List.cons_append, hinner.enclosed?]
    simp only [hcut]
  rw [hread, Term.elaborate]
  have hlist : Gives (Term.elaborateList find whole (pieces.map (Term.readWithin whole d))) parts := by
    refine gives_elaborateList (List.forall₂_map_left_iff.2 (List.forall₂_iff_get.2 ⟨hreads.length_eq, fun k hk hk' => ?_⟩))
    have hlength := hshort _ (List.get_mem pieces ⟨k, hk⟩)
    exact (hreads.get hk hk').2 whole d (by simp at hdepth; omega)
  refine hlist.bind ?_
  rw [hparts]
  exact gives_pure _

/-! ## Applications -/

/-- Terms of which no first one looks like an operator are a head and its arguments in order. -/
theorem arrange_applied {x : List Char} (last : Nat) (text : Nat → List Char) (hhead : last = 0 → Term.isInfix x = false)
    (hfirst : last ≤ 1 → Term.isInfix (text 0) = false) :
    Term.arrange x ((List.range (last + 1)).map text) = (x, (List.range (last + 1)).map fun i => (i, text i)) := by
  match last with
  | 0 => simp [Term.arrange, hhead, hfirst]
  | 1 => simp [Term.arrange, hfirst, List.range_succ]
  | n + 2 =>
    have hzip : ((List.range (n + 2 + 1)).map text).zipIdx.map (fun a => (a.2, a.1)) =
        (List.range (n + 2 + 1)).map fun i => (i, text i) := by
      refine List.ext_getElem (by simp) fun i _ _ => ?_
      simp
    unfold Term.arrange
    split
    · rename_i heq
      exact absurd (congrArg List.length heq) (by simp)
    · rename_i heq
      exact absurd (congrArg List.length heq) (by simp)
    · rw [← hzip]

/-- The text begins and ends with the same quote. -/
def IsQuoted (t : List Char) : Prop :=
  t.head? = some '\'' ∧ t.getLast? = some '\'' ∨ t.head? = some '"' ∧ t.getLast? = some '"'

instance (t : List Char) : Decidable (IsQuoted t) :=
  inferInstanceAs (Decidable (_ ∨ _))

/-- An application is no literal, unless it begins and ends with the same quote. -/
theorem read?_application {x rest : List Char} (hx : Text.Closed sep x) (hne : x ≠ [])
    (hquoted : ¬ IsQuoted (x ++ ' ' :: rest)) : Literal.read? (x ++ ' ' :: rest) = .ok none := by
  have hword : x ++ ' ' :: rest ∉ ["()".toList, "True".toList, "False".toList] := by
    intro hmem
    have hblank : ' ' ∈ x ++ ' ' :: rest := by simp
    simp only [List.mem_cons, List.not_mem_nil, or_false] at hmem
    rcases hmem with h | h | h <;> rw [h] at hblank <;> revert hblank <;> decide
  have hnumber : Literal.number? (x ++ ' ' :: rest) = none := Literal.number?_eq_none (c := ' ') (by simp) (by decide)
  have hnegative : Literal.negative? (x ++ ' ' :: rest) = none := by
    rw [Literal.negative?]
    split
    · rename_i inner hinner
      -- the parenthesis at the start is closed before the first blank
      obtain ⟨x', rfl, hcut⟩ : ∃ x', x = '(' :: x' ∧ x' ++ ' ' :: rest = inner ++ [')'] := by
        obtain ⟨c, x', rfl⟩ := List.exists_cons_of_ne_nil hne
        obtain ⟨rfl, hcut⟩ := List.cons.inj (Literal.unwrap?_ok hinner)
        exact ⟨x', rfl, hcut⟩
      have hparen : ')' ∈ inner := by
        have hmem : ')' ∈ x' := by simpa using hx.mem_of_head rfl
        have hinit : inner = x' ++ (' ' :: rest).dropLast := by
          rw [← List.dropLast_append_of_ne_nil (by simp), hcut, List.dropLast_concat]
        rw [hinit]
        exact List.mem_append_left _ hmem
      rw [Literal.number?_eq_none (Text.mem_trimBlank (by decide) hparen) (by decide)]
      rfl
    · rfl
  have hquote : ∀ quote, quote = '\'' ∨ quote = '"' → Literal.quoted? quote (x ++ ' ' :: rest) = none := by
    intro quote hmem
    have hunwrap : Text.unwrap? quote quote (x ++ ' ' :: rest) = none := by
      rw [Option.eq_none_iff_forall_not_mem]
      intro inner hinner
      have hends : (x ++ ' ' :: rest).head? = some quote ∧ (x ++ ' ' :: rest).getLast? = some quote := by
        rw [Literal.unwrap?_ok hinner]
        exact ⟨rfl, List.getLast?_concat ..⟩
      rcases hmem with rfl | rfl
      · exact hquoted (Or.inl hends)
      · exact hquoted (Or.inr hends)
    rw [Literal.quoted?, hunwrap]
    rfl
  rw [Literal.read?_of_ne hword, hnumber, hnegative, hquote _ (Or.inl rfl), hquote _ (Or.inr rfl)]
  rfl

/-- A text that stands as one term. -/
structure IsTerm (t : List Char) : Prop where
  closed : Text.Closed Text.isBlank t
  trimmed : Text.trimBlank t = t
  nonempty : t ≠ []

theorem Reads.isTerm (h : Reads find Text.isBlank t m) : IsTerm t := ⟨h.closed, h.trimmed, h.nonempty⟩

theorem IsTerm.single (h : IsTerm t) : Text.Single t := ⟨h.closed.splitTop, h.trimmed, h.nonempty⟩

/-- Terms with blanks between them are no literal, unless they begin and end with the same quote. -/
theorem read?_spaced {x : List Char} {xs : List (List Char)} (hx : IsTerm x) (hxs : xs ≠ [])
    (hquoted : ¬ IsQuoted ([' '].intercalate (x :: xs))) : Literal.read? ([' '].intercalate (x :: xs)) = .ok none := by
  obtain ⟨y, ys, rfl⟩ := List.exists_cons_of_ne_nil hxs
  rw [List.intercalate_cons_cons, List.append_assoc, List.singleton_append] at hquoted ⊢
  exact read?_application hx.closed hx.nonempty hquoted

/-- An application is read by its terms, if they are arranged as head and arguments. -/
theorem reads_application {x : List Char} {xs : List (List Char)} (hterms : ∀ t ∈ x :: xs, IsTerm t) (hxs : xs ≠ [])
    (hplain : x.head? ≠ some '$' ∧ x.head? ≠ some '!') (hquoted : ¬ IsQuoted ([' '].intercalate (x :: xs)))
    {op : List Char} {given : List (Nat × List Char)} (harrange : Term.arrange x xs = (op, given)) (hop : op ≠ ['$'])
    {base : Morphism} (hbase : Reads find sep op base) (hgiven : ∀ g ∈ given, g.1 < base.arity)
    {bindings : List (Nat × Morphism)} (hargs : List.Forall₂ (fun g b => g.1 = b.1 ∧ Reads find Text.isBlank g.2 b.2)
      (given.filter fun g => g.2 ≠ ['$']) bindings)
    (hne : bindings ≠ []) (hbind : base.bind bindings = .ok m) :
    Reads find (fun _ => false) ([' '].intercalate (x :: xs)) m := by
  have hsingle : ∀ t ∈ x :: xs, Text.Single t := fun t ht => (hterms t ht).single
  have hclosed := (Text.splitTop_separated (c := ' ') (Or.inl (by decide)) (by decide) (by simp)
    fun t ht => (hterms t ht).closed).2
  have hliteral := read?_spaced (hterms x (by simp)) hxs hquoted
  have hmem := Term.arrange_mem harrange
  refine .of_succ hclosed (Text.trimBlank_spaced hsingle) (Text.spaced_ne_nil hsingle hxs) fun whole d hdepth => ?_
  have hwithin : ∀ t ∈ x :: xs, t.length < d := fun t ht => by
    have hlt := Text.length_lt_spaced hsingle hxs t ht
    omega
  rw [Term.readWithin_spaced hsingle hxs hplain hliteral]
  simp only [Term.ofApplication, harrange, if_neg hop, Term.elaborate]
  refine (hbase.reads whole d (hwithin op hmem.1)).bind ?_
  have hsurplus : Term.surplus? whole (String.ofList op) base.arity
      (given.map fun g => (g.1, String.ofList g.2)) = none := by
    simpa [Term.surplus?] using hgiven
  have hmeans : Gives (Term.elaborateArgs find whole
      ((given.filter fun g => g.2 ≠ ['$']).map fun g => (g.1, Term.readWithin whole d g.2))) bindings := by
    refine gives_elaborateArgs (List.forall₂_map_left_iff.2 (List.forall₂_iff_get.2 ⟨hargs.length_eq, fun k hk hk' => ?_⟩))
    obtain ⟨hindex, hreads⟩ := hargs.get hk hk'
    have hterm := hmem.2 _ (List.mem_filter.1 (List.get_mem _ ⟨k, hk⟩)).1
    exact ⟨hindex, hreads.reads whole d (hwithin _ hterm)⟩
  simp only [hsurplus]
  refine hmeans.bind ?_
  rw [if_neg (by simpa using hne), hbind]
  exact gives_pure _

end

/-! ## Morphisms that can be told apart -/

namespace Morphism

def isTuple : Morphism → Bool
  | .tuple _ _ _ => true
  | _ => false

/-- The position of the last argument. -/
def lastArg (bindings : List (Nat × Morphism)) : Nat := (bindings.getLast?.map Prod.fst).getD 0

/-- The terms that a partial application is written with. -/
def terms (base : Morphism) (bindings : List (Nat × Morphism)) : List String :=
  let arg := fun i => (Assoc.get? i bindings).map shielded
  match base.infixName?, arg 0, arg 1 with
  | some op, some l, some r => [l, op, r]
  | some op, some l, none => [l, op]
  | some op, none, some r => [op, r]
  | _, _, _ => base.shielded :: (List.range (lastArg bindings + 1)).map fun i => (arg i).getD "$"

/-- The head and the arguments of a partial application are found again where they are written. -/
structure Placed (base : Morphism) (bindings : List (Nat × Morphism)) : Prop where
  /-- The head is a name. -/
  named : base.name?.isSome = true
  /-- No argument is the identity, which is written like a hole. -/
  noHole : ∀ x ∈ bindings, x.2.slot? = none
  /-- In front of an operator stands no tuple, whose mark would be taken for that of the whole. -/
  noTuple : base.infixName?.isSome = true → ∀ l ∈ Assoc.get? 0 bindings, l.isTuple = false
  /-- The first argument is not taken for the operator. -/
  noOperator : lastArg bindings = 0 ∨ (lastArg bindings = 1 ∧ base.infixName? = none) →
    ∀ f ∈ Assoc.get? 0 bindings, Term.isInfix f.shielded.toList = false
  /-- An operator that does not take two arguments is not written like a section. -/
  noSection : base.infixName? = none → base.isOperator = true → lastArg bindings ≠ 0
  /-- The text is not taken for a literal. -/
  noQuotes : ¬ IsQuoted (" ".intercalate (terms base bindings)).toList

instance (base : Morphism) (bindings : List (Nat × Morphism)) : Decidable (Placed base bindings) :=
  decidable_of_iff (base.name?.isSome = true ∧ (∀ x ∈ bindings, x.2.slot? = none) ∧
      (base.infixName?.isSome = true → ∀ l ∈ Assoc.get? 0 bindings, l.isTuple = false) ∧
      (lastArg bindings = 0 ∨ (lastArg bindings = 1 ∧ base.infixName? = none) →
        ∀ f ∈ Assoc.get? 0 bindings, Term.isInfix f.shielded.toList = false) ∧
      (base.infixName? = none → base.isOperator = true → lastArg bindings ≠ 0) ∧
      ¬ IsQuoted (" ".intercalate (terms base bindings)).toList)
    ⟨fun ⟨h₁, h₂, h₃, h₄, h₅, h₆⟩ => ⟨h₁, h₂, h₃, h₄, h₅, h₆⟩, fun h => ⟨h.1, h.2, h.3, h.4, h.5, h.6⟩⟩

mutual

/-- A morphism whose text is not taken for that of another one. -/
def Legible : Morphism → Prop
  | .named name _ _ => isOperatorName name = true → Text.parens 0 (Text.pieces name.toList).list = some 0
  | .slot _ => True
  | .literal l => l.Legible
  | .tuple parts _ _ => LegibleParts parts
  | .bound base bindings _ _ => Legible base ∧ LegibleArgs bindings ∧ Placed base bindings
termination_by structural f => f

/-- The parts of a tuple have no comma outside brackets and quotes. -/
def LegibleParts : List Morphism → Prop
  | [] => True
  | f :: fs => Legible f ∧ Text.splitTop Text.isComma f.render.toList = .ok [f.render.toList] ∧ LegibleParts fs
termination_by structural fs => fs

def LegibleArgs : List (Nat × Morphism) → Prop
  | [] => True
  | (_, f) :: rest => Legible f ∧ LegibleArgs rest
termination_by structural fs => fs

end

/-! ## Terms of a partial application -/

theorem get?_renderArgs (i : Nat) (bindings : List (Nat × Morphism)) :
    Assoc.get? i (renderArgs bindings) = (Assoc.get? i bindings).map shielded := by
  induction bindings with
  | nil => rfl
  | cons b rest ih =>
    obtain ⟨j, f⟩ := b
    simp only [renderArgs, Assoc.get?_cons, ih]
    split <;> rfl

theorem getLast?_renderArgs (bindings : List (Nat × Morphism)) :
    ((renderArgs bindings).getLast?.map Prod.fst).getD 0 = lastArg bindings := by
  have hmap : renderArgs bindings = bindings.map fun b => (b.1, b.2.shielded) := by
    induction bindings with
    | nil => rfl
    | cons b rest ih => simp only [renderArgs, List.map_cons, ih, shielded]
  rw [hmap, lastArg, List.getLast?_map, Option.map_map]
  rfl

/-- A partial application of a name is written by its terms, a section in parentheses. -/
theorem render_bound {base : Morphism} {bindings : List (Nat × Morphism)} {params : List Ty} {result : Ty}
    (hbetween : base.infixName?.isSome = true → (∃ f i, i < 2 ∧ bindings = [(i, f)]) ∨ ∃ f g, bindings = [(0, f), (1, g)]) :
    (bound base bindings params result).render =
      Ty.parenthesize (bound base bindings params result).isAtomic (" ".intercalate (terms base bindings)) := by
  rw [render, isAtomic, terms]
  simp only [get?_renderArgs]
  cases hname : base.infixName? with
  | none => simp [Ty.parenthesize, applied, get?_renderArgs, getLast?_renderArgs, shielded]
  | some op =>
    rcases hbetween (by rw [hname]; rfl) with ⟨f, i, hi, rfl⟩ | ⟨f, g, rfl⟩
    · obtain rfl | rfl : i = 0 ∨ i = 1 := by omega
      · simp [Assoc.get?, infixForm, Ty.parenthesize, String.append_assoc]
      · simp [Assoc.get?, infixForm, Ty.parenthesize, String.append_assoc]
    · simp [Assoc.get?, infixForm, Ty.parenthesize, String.append_assoc]

/-- The positions behind the first one are greater. -/
theorem position_lt {x : Nat × Morphism} {rest : List (Nat × Morphism)} (h : Assoc.Ascending (x :: rest)) :
    ∀ y ∈ rest, x.1 < y.1 := fun y hy => by
  simpa [Nat.compare_eq_lt] using (List.pairwise_cons.1 h).1 y.1 (List.mem_map_of_mem hy)

theorem get?_of_positions_gt {bindings : List (Nat × Morphism)} {i : Nat} (h : ∀ x ∈ bindings, i < x.1) :
    Assoc.get? i bindings = none := by
  rw [Option.eq_none_iff_forall_not_mem]
  intro f hf
  exact Nat.lt_irrefl i (h _ (Assoc.get?_mem hf))

/-- A position is the first one that is bound, or it is open. -/
theorem first_or_open {bindings : List (Nat × Morphism)} {lo : Nat} (hasc : Assoc.Ascending bindings)
    (hkeys : ∀ x ∈ bindings, lo ≤ x.1) : (∃ f rest, bindings = (lo, f) :: rest) ∨ ∀ x ∈ bindings, lo < x.1 := by
  cases bindings with
  | nil => exact Or.inr (by simp)
  | cons y rest =>
    rcases Nat.eq_or_lt_of_le (hkeys y (by simp)) with heq | hlt
    · exact Or.inl ⟨y.2, rest, by rw [heq]⟩
    · exact Or.inr (List.forall_mem_cons.2 ⟨hlt, fun x hx => Nat.lt_trans hlt (position_lt hasc x hx)⟩)

/-- Arguments at ascending positions, with holes for the open ones before the last, are found again. -/
theorem filter_given (text : Morphism → List Char) : ∀ (n lo : Nat) {bindings : List (Nat × Morphism)},
    Assoc.Ascending bindings → (∀ x ∈ bindings, lo ≤ x.1 ∧ x.1 < lo + n) → (∀ x ∈ bindings, text x.2 ≠ ['$']) →
      (((List.range' lo n).map fun i => (i, ((Assoc.get? i bindings).map text).getD ['$'])).filter fun g => g.2 ≠ ['$']) =
        bindings.map fun x => (x.1, text x.2)
  | 0, lo, bindings, _, hkeys, _ => by
    cases bindings with
    | nil => rfl
    | cons x rest =>
      have hx := hkeys x (by simp)
      omega
  | n + 1, lo, bindings, hasc, hkeys, hne => by
    rw [List.range'_succ, List.map_cons]
    rcases first_or_open hasc fun x hx => (hkeys x hx).1 with ⟨f, rest, rfl⟩ | hlater
    · have hlater := position_lt hasc
      have hsame : (List.range' (lo + 1) n).map (fun i => (i, ((Assoc.get? i ((lo, f) :: rest)).map text).getD ['$'])) =
          (List.range' (lo + 1) n).map fun i => (i, ((Assoc.get? i rest).map text).getD ['$']) := by
        refine List.map_congr_left fun i hi => ?_
        rw [Assoc.get?_cons, if_neg]
        rw [List.mem_range'_1] at hi
        omega
      have hhead : text f ≠ ['$'] := hne (lo, f) (by simp)
      have hrest := filter_given text n (lo + 1) (List.pairwise_cons.1 hasc).2 (fun x hx => ?_)
        fun x hx => hne x (by simp [hx])
      · rw [hsame, Assoc.get?_cons, if_pos rfl, List.filter_cons_of_pos (by simpa using hhead), hrest]
        rfl
      · have hkey := hkeys x (by simp [hx])
        have hgt := hlater x hx
        dsimp only at hgt
        omega
    · rw [get?_of_positions_gt hlater, List.filter_cons_of_neg (by simp)]
      refine filter_given text n (lo + 1) hasc (fun x hx => ?_) hne
      have hkey := hkeys x hx
      have hgt := hlater x hx
      omega

end Morphism

/-! ## Reading back -/

section
variable {σ : Type} {find : Resolver (StateM σ)}

/-- A word that is always resolved to the same function or value. -/
def Known (find : Resolver (StateM σ)) (name : String) (params : List Ty) (result : Ty) : Prop :=
  Term.Word name.toList ∧ ∀ whole, Gives (Term.lookup find whole name) (.named name params result)

theorem Term.Word.not_number {cs : List Char} (h : Term.Word cs) : Literal.number? cs = none := by
  rw [Option.eq_none_iff_forall_not_mem]
  intro l hl
  have hread := h.literal
  rw [Literal.read?_number hl] at hread
  cases hread

/-- A word that is no operator has no parentheses. -/
theorem Term.Word.parens {cs : List Char} (h : Term.Word cs) (hop : isOperatorName (String.ofList cs) = false) :
    Text.parens 0 (Text.pieces cs).list = some 0 := by
  have hname := h.name
  rw [isName, hop, Bool.or_false, Bool.and_eq_true, List.all_eq_true] at hname
  refine Text.depth_of_not_mem 0 fun c hc => ?_
  rw [Text.pieceChars_pieces (Text.splitTop_joined h.cut).1] at hc
  have hchar := hname.1 c hc
  refine ⟨?_, ?_, rfl⟩
  · simp only [decide_eq_false_iff_not]
    rintro rfl
    revert hchar
    decide
  · simp only [decide_eq_false_iff_not]
    rintro rfl
    revert hchar
    decide

namespace Morphism

theorem reads_named {name : String} {params : List Ty} {result : Ty} (h : Known find name params result)
    (hlegible : (named name params result).Legible) :
    Reads find Text.isBlank (named name params result).render.toList (.named name params result) := by
  unfold render Ty.parenthesize
  split
  · rename_i hop
    have hword := h.1.reads (hlegible hop) h.2
    have henclosed : Reads find Text.isBlank ('(' :: name.toList ++ [')']) (.named name params result) :=
      hword.enclose h.1.not_number
    simpa using henclosed
  · rename_i hop
    refine h.1.reads (h.1.parens ?_) h.2
    simpa using hop

/-- An operator between two operands has one argument or two. -/
theorem Formed.infix_bindings {known : String → List Ty → Ty → Prop} {base : Morphism}
    {bindings : List (Nat × Morphism)} {params : List Ty} {result : Ty}
    (h : (bound base bindings params result).Formed known) (hbetween : base.infixName?.isSome = true) :
    (∃ f i, i < 2 ∧ bindings = [(i, f)]) ∨ ∃ f g, bindings = [(0, f), (1, g)] := by
  obtain ⟨_, _, _, _, hasc, hne, hlt⟩ := h
  have harity : base.arity = 2 := by
    unfold infixName? at hbetween
    split at hbetween
    · split at hbetween
      · rename_i hparams
        simp only [Bool.and_eq_true, decide_eq_true_eq] at hparams
        exact hparams.2
      · cases hbetween
    · cases hbetween
  rw [harity] at hlt
  match bindings, hne with
  | [(i, f)], _ => exact Or.inl ⟨f, i, hlt (i, f) (by simp), rfl⟩
  | (i, f) :: (j, g) :: rest, _ =>
    have hj : j < 2 := hlt (j, g) (by simp)
    have hij : i < j := position_lt hasc (j, g) (by simp)
    obtain rfl : i = 0 := by omega
    obtain rfl : j = 1 := by omega
    cases rest with
    | nil => exact Or.inr ⟨f, g, rfl⟩
    | cons x rest =>
      have hx : x.1 < 2 := hlt x (by simp)
      have hgt : 1 < x.1 := position_lt (List.pairwise_cons.1 hasc).2 x (by simp)
      omega

theorem shielded_bound {known : String → List Ty → Ty → Prop} {base : Morphism} {bindings : List (Nat × Morphism)}
    {params : List Ty} {result : Ty} (h : (bound base bindings params result).Formed known) :
    (bound base bindings params result).shielded.toList =
      '(' :: (" ".intercalate (terms base bindings)).toList ++ [')'] := by
  rw [shielded, shield, render_bound h.infix_bindings]
  cases (bound base bindings params result).isAtomic <;> simp [Ty.parenthesize]

/-- What an argument does not begin with. -/
theorem shielded_head {f : Morphism} (hf : f.Formed (Known find)) (hlegible : f.Legible) :
    (f.slot? = none → f.shielded.toList.head? ≠ some '$') ∧ (f.isTuple = false → f.shielded.toList.head? ≠ some '!') := by
  cases f with
  | named name params result =>
    have hplain := hf.1.plain
    have hshielded : (named name params result).shielded = Ty.parenthesize (isOperatorName name) name := rfl
    rw [hshielded]
    cases isOperatorName name with
    | true => simp [Ty.parenthesize]
    | false => exact ⟨fun _ => hplain.1, fun _ => hplain.2⟩
  | slot index =>
    obtain rfl : index = none := hf
    refine ⟨fun h => ?_, fun _ => by decide⟩
    cases h
  | literal l =>
    have hplain := (Literal.render_writtenAs hlegible).plain
    have hshielded : (literal l).shielded = Ty.parenthesize (!!l.isNegative) l.render := rfl
    rw [hshielded]
    cases l.isNegative with
    | true => simp [Ty.parenthesize]
    | false => exact ⟨fun _ => hplain.1, fun _ => hplain.2⟩
  | tuple parts params result =>
    have hshielded : (tuple parts params result).shielded = "!(" ++ ", ".intercalate (renderList parts) ++ ")" := by
      simp [shielded, shield, isAtomic, Ty.parenthesize, render]
    refine ⟨fun _ => ?_, fun h => ?_⟩
    · rw [hshielded]
      simp
    · cases h
  | bound base bindings params result =>
    rw [shielded_bound hf]
    simp

/-- An argument that can be told apart from a hole and from a tuple. -/
structure IsArg (find : Resolver (StateM σ)) (f : Morphism) : Prop where
  reads : Reads find Text.isBlank f.shielded.toList f
  noHole : f.shielded.toList.head? ≠ some '$'
  noTuple : f.isTuple = false → f.shielded.toList.head? ≠ some '!'

theorem IsArg.ne_hole {f : Morphism} (h : IsArg find f) : f.shielded.toList ≠ ['$'] := fun heq =>
  h.noHole (by rw [heq]; rfl)

section
variable {name : String} {ps : List Ty} {r : Ty} {bindings : List (Nat × Morphism)} {m : Morphism}

/-- A partial application whose terms are arranged as its head and its arguments. -/
theorem reads_placed {x op : List Char} {xs : List (List Char)} {sep : Char → Bool}
    (hterms : (terms (named name ps r) bindings).map String.toList = x :: xs) (hplaced : Placed (named name ps r) bindings)
    (hall : ∀ t ∈ x :: xs, IsTerm t) (hxs : xs ≠ []) (hplain : x.head? ≠ some '$' ∧ x.head? ≠ some '!')
    {given : List (Nat × List Char)} (harrange : Term.arrange x xs = (op, given)) (hop : op ≠ ['$'])
    (hbase : Reads find sep op (named name ps r)) (hgiven : ∀ g ∈ given, g.1 < (named name ps r).arity)
    (hfilter : (given.filter fun g => g.2 ≠ ['$']) = bindings.map fun b => (b.1, b.2.shielded.toList))
    (hargs : ∀ b ∈ bindings, IsArg find b.2) (hne : bindings ≠ []) (hbind : (named name ps r).bind bindings = .ok m) :
    Reads find (fun _ => false) ([' '].intercalate ((terms (named name ps r) bindings).map String.toList)) m := by
  have hquoted := hplaced.noQuotes
  rw [String.toList_intercalate] at hquoted
  have hsep : " ".toList = [' '] := rfl
  rw [hsep, hterms] at hquoted
  rw [hterms]
  refine reads_application hall hxs hplain hquoted harrange hop hbase hgiven ?_ hne hbind
  rw [hfilter]
  exact List.forall₂_map_left_iff.2 (List.forall₂_same.2 fun b hb => ⟨rfl, (hargs b hb).reads⟩)

/-- An operator with operands. -/
theorem reads_operator (hknown : Known find name ps r) (hlegible : (named name ps r).Legible)
    (hbetween : (named name ps r).infixName? = some name) (hop : isOperatorName name = true)
    (hplaced : Placed (named name ps r) bindings) (hlt : ∀ x ∈ bindings, x.1 < (named name ps r).arity)
    (hshapes : (∃ f i, i < 2 ∧ bindings = [(i, f)]) ∨ ∃ f g, bindings = [(0, f), (1, g)])
    (hargs : ∀ x ∈ bindings, IsArg find x.2) (hbind : (named name ps r).bind bindings = .ok m) :
    Reads find (fun _ => false) ([' '].intercalate ((terms (named name ps r) bindings).map String.toList)) m := by
  have hreads := hknown.1.reads (hlegible hop) hknown.2
  have hplain := hknown.1.plain
  have hhole : name.toList ≠ ['$'] := fun heq => hplain.1 (by rw [heq]; rfl)
  have hoperator : Term.isInfix name.toList = true := by simp [Term.isInfix, hhole, hop]
  have hfront : ∀ f ∈ Assoc.get? 0 bindings, f.shielded.toList.head? ≠ some '$' ∧ f.shielded.toList.head? ≠ some '!' := by
    intro f hf
    have harg := hargs _ (Assoc.get?_mem hf)
    exact ⟨harg.noHole, harg.noTuple (hplaced.noTuple (by rw [hbetween]; rfl) f hf)⟩
  rcases hshapes with ⟨f, i, hi, rfl⟩ | ⟨f, g, rfl⟩
  · have hf := hargs (i, f) (by simp)
    obtain rfl | rfl : i = 0 ∨ i = 1 := by omega
    · have hfirst : Term.isInfix f.shielded.toList = false := hplaced.noOperator (Or.inl rfl) f rfl
      have harrange : Term.arrange f.shielded.toList [name.toList] = (name.toList, [(0, f.shielded.toList)]) := by
        simp [Term.arrange, hfirst, hoperator]
      refine reads_placed (by simp [terms, hbetween, Assoc.get?]) hplaced ?_ (by simp) (hfront f rfl) harrange hhole hreads
        (by simpa using hlt) (by simp [hf.ne_hole]) hargs (by simp) hbind
      simpa using ⟨hf.reads.isTerm, hreads.isTerm⟩
    · have harrange : Term.arrange name.toList [f.shielded.toList] = (name.toList, [(1, f.shielded.toList)]) := by
        simp [Term.arrange, hoperator]
      refine reads_placed (by simp [terms, hbetween, Assoc.get?]) hplaced ?_ (by simp) hplain harrange hhole hreads
        (by simpa using hlt) (by simp [hf.ne_hole]) hargs (by simp) hbind
      simpa using ⟨hreads.isTerm, hf.reads.isTerm⟩
  · have hf := hargs (0, f) (by simp)
    have hg := hargs (1, g) (by simp)
    have harrange : Term.arrange f.shielded.toList [name.toList, g.shielded.toList] =
        (name.toList, [(0, f.shielded.toList), (1, g.shielded.toList)]) := by
      simp [Term.arrange, hoperator]
    refine reads_placed (by simp [terms, hbetween, Assoc.get?]) hplaced ?_ (by simp) (hfront f rfl) harrange hhole hreads
      (by simpa using hlt) (by simp [hf.ne_hole, hg.ne_hole]) hargs (by simp) hbind
    simpa using ⟨hf.reads.isTerm, hreads.isTerm, hg.reads.isTerm⟩

theorem lastArg_spec (hasc : Assoc.Ascending bindings) (hne : bindings ≠ []) :
    (∃ f, (lastArg bindings, f) ∈ bindings) ∧ ∀ x ∈ bindings, x.1 ≤ lastArg bindings := by
  obtain ⟨init, last, rfl⟩ := (List.eq_nil_or_concat' bindings).resolve_left hne
  have hlast : lastArg (init ++ [last]) = last.1 := by simp [lastArg]
  rw [hlast]
  refine ⟨⟨last.2, by simp⟩, fun x hx => ?_⟩
  rcases List.mem_append.1 hx with hx | hx
  · rw [Assoc.Ascending, List.map_append] at hasc
    have hlt := (List.pairwise_append.1 hasc).2.2 x.1 (List.mem_map_of_mem hx) last.1 (by simp)
    exact Nat.le_of_lt (by simpa [Nat.compare_eq_lt] using hlt)
  · exact Nat.le_of_eq (congrArg Prod.fst (List.mem_singleton.1 hx))

/-- A head in front of its arguments. -/
theorem reads_applied (hknown : Known find name ps r) (hlegible : (named name ps r).Legible)
    (hbetween : (named name ps r).infixName? = none) (hplaced : Placed (named name ps r) bindings)
    (hlt : ∀ x ∈ bindings, x.1 < (named name ps r).arity) (hasc : Assoc.Ascending bindings) (hne : bindings ≠ [])
    (hargs : ∀ x ∈ bindings, IsArg find x.2) (hbind : (named name ps r).bind bindings = .ok m) :
    Reads find (fun _ => false) ([' '].intercalate ((terms (named name ps r) bindings).map String.toList)) m := by
  have hreads := reads_named hknown hlegible
  have hhole : Reads find Text.isBlank ['$'] (.slot none) := reads_hole
  have hplain : (named name ps r).render.toList.head? ≠ some '$' ∧ (named name ps r).render.toList.head? ≠ some '!' := by
    have hhead := shielded_head (f := named name ps r) hknown hlegible
    exact ⟨hhead.1 rfl, hhead.2 rfl⟩
  obtain ⟨⟨last, hlast⟩, hle⟩ := lastArg_spec hasc hne
  -- the terms behind the head, with holes for the open positions
  have hterms : (terms (named name ps r) bindings).map String.toList = (named name ps r).render.toList ::
      (List.range (lastArg bindings + 1)).map fun i =>
        ((Assoc.get? i bindings).map fun f => f.shielded.toList).getD ['$'] := by
    simp only [terms, hbetween, List.map_cons, List.map_map]
    refine congrArg₂ _ rfl (List.map_congr_left fun i _ => ?_)
    cases h : Assoc.get? i bindings <;> simp [h]
  have harrange := arrange_applied (x := (named name ps r).render.toList) (lastArg bindings)
    (fun i => ((Assoc.get? i bindings).map fun f => f.shielded.toList).getD ['$']) (fun hzero => ?_) (fun hfew => ?_)
  · refine reads_placed hterms hplaced ?_ (by simp) hplain harrange (fun heq => hplain.1 (by rw [heq]; rfl)) hreads
      (fun g hg => ?_) ?_ hargs hne hbind
    · simp only [List.mem_cons, List.mem_map]
      rintro t (rfl | ⟨i, _, rfl⟩)
      · exact hreads.isTerm
      · cases h : Assoc.get? i bindings with
        | none => exact hhole.isTerm
        | some f => exact (hargs _ (Assoc.get?_mem h)).reads.isTerm
    · obtain ⟨i, hi, rfl⟩ := List.mem_map.1 hg
      have hi := List.mem_range.1 hi
      have hbelow := hlt _ hlast
      dsimp only at hbelow ⊢
      omega
    · rw [List.range_eq_range']
      refine filter_given (fun f => f.shielded.toList) (lastArg bindings + 1) 0 hasc (fun x hx => ⟨Nat.zero_le _, ?_⟩)
        fun x hx => (hargs x hx).ne_hole
      have hbelow := hle x hx
      omega
  · have hop : isOperatorName name = false := by
      by_contra hop
      exact hplaced.noSection hbetween (by simpa [isOperator, name?] using hop) hzero
    simp [render, Ty.parenthesize, hop, Term.isInfix]
  · cases h : Assoc.get? 0 bindings with
    | none => decide
    | some f =>
      refine hplaced.noOperator ?_ f h
      rcases Nat.le_one_iff_eq_zero_or_eq_one.1 hfew with hzero | hone
      · exact Or.inl hzero
      · exact Or.inr ⟨hone, hbetween⟩

end

/-- A partial application is read by its terms. -/
theorem reads_bound {base : Morphism} {bindings : List (Nat × Morphism)} {params : List Ty} {result : Ty}
    (hf : (bound base bindings params result).Formed (Known find)) (hl : (bound base bindings params result).Legible)
    (hargs : ∀ x ∈ bindings, x.2.Formed (Known find) ∧ x.2.Legible ∧ Reads find Text.isBlank x.2.shielded.toList x.2) :
    Reads find (fun _ => false) ([' '].intercalate ((terms base bindings).map String.toList))
      (bound base bindings params result) := by
  have hshapes := hf.infix_bindings
  obtain ⟨hbase, _, hbound, _, hasc, hne, hlt⟩ := hf
  obtain ⟨hbaseLegible, _, hplaced⟩ := hl
  have hargs : ∀ x ∈ bindings, IsArg find x.2 := fun x hx => by
    obtain ⟨hformed, hlegible, hreads⟩ := hargs x hx
    have hhead := shielded_head hformed hlegible
    exact ⟨hreads, hhead.1 (hplaced.noHole x hx), hhead.2⟩
  cases base with
  | named name ps r =>
    have hbind : (named name ps r).bind bindings = .ok (bound (named name ps r) bindings params result) := by
      have hall : (bindings.filter fun a => a.1 < (named name ps r).arity) = bindings :=
        List.filter_eq_self.2 fun x hx => by simpa using hlt x hx
      unfold bind
      simp only [hall]
      rw [if_neg (by simpa using hne)]
      exact hbound
    cases hbetween : (named name ps r).infixName? with
    | some op =>
      obtain ⟨hop, rfl⟩ : isOperatorName name = true ∧ name = op := by
        simp only [infixName?] at hbetween
        split at hbetween
        · rename_i hboth
          simp only [Bool.and_eq_true] at hboth
          exact ⟨hboth.1, Option.some.inj hbetween⟩
        · cases hbetween
      exact reads_operator hbase hbaseLegible hbetween hop hplaced hlt (hshapes (by rw [hbetween]; rfl)) hargs hbind
    | none => exact reads_applied hbase hbaseLegible hbetween hplaced hlt hasc hne hargs hbind
  | slot | literal | tuple | bound => cases hplaced.named

/-- The text of a partial application holds a blank. -/
theorem terms_not_number (base : Morphism) (bindings : List (Nat × Morphism)) :
    Literal.number? (" ".intercalate (terms base bindings)).toList = none := by
  refine Literal.number?_eq_none (c := ' ') ?_ (by decide)
  have hblank : ∀ (t u : String) (ts : List String), ' ' ∈ (" ".intercalate (t :: u :: ts)).toList := by simp
  unfold terms
  dsimp only
  split
  · exact hblank _ _ _
  · exact hblank _ _ _
  · exact hblank _ _ _
  · rw [List.range_succ_eq_map]
    exact hblank _ _ _

mutual

/-- The text of a morphism is read as the morphism, also as an argument. -/
theorem render_reads : ∀ (f : Morphism), f.Formed (Known find) → f.Legible →
    Reads find (fun _ => false) f.render.toList f ∧ Reads find Text.isBlank f.shielded.toList f
  | .named name params result, hf, hl => by
    have hreads := reads_named hf hl
    exact ⟨hreads.weaken (by simp), hreads⟩
  | .slot index, hf, _ => by
    obtain rfl : index = none := hf
    have hreads : Reads find Text.isBlank ['$'] (.slot none) := reads_hole
    exact ⟨hreads.weaken (by simp), hreads⟩
  | .literal l, _, hl => by
    have hreads : Reads find Text.isBlank l.render.toList (.literal l) := (Literal.render_writtenAs hl).reads
    refine ⟨hreads.weaken (by simp), ?_⟩
    have hshielded : (literal l).shielded = Ty.parenthesize (!!l.isNegative) l.render := rfl
    rw [hshielded]
    cases hnegative : l.isNegative with
    | true =>
      have henclosed : Reads find Text.isBlank ('(' :: l.render.toList ++ [')']) (.literal l) :=
        (Literal.writtenAs_enclosed (Literal.number?_of_negative hl hnegative) hnegative).reads
      simpa [Ty.parenthesize] using henclosed
    | false => exact hreads
  | .tuple parts params result, hf, hl => by
    have hparts := renderList_reads parts hf.1 hl
    have htext : (tuple parts params result).render.toList =
        '!' :: '(' :: [',', ' '].intercalate (parts.map fun part => part.render.toList) ++ [')'] := by
      have hlist : renderList parts = parts.map render := by
        clear hparts hl hf
        induction parts with
        | nil => rfl
        | cons part parts ih => rw [renderList, ih, List.map_cons]
      simp [render, hlist, Function.comp_def]
    have hreads : Reads find Text.isBlank (tuple parts params result).render.toList (.tuple parts params result) := by
      rw [htext]
      exact reads_tuple (by simpa using hf.2.2) (List.forall₂_map_left_iff.2 (List.forall₂_same.2 hparts)) hf.2.1 (by decide)
    exact ⟨hreads.weaken (by simp), hreads⟩
  | .bound base bindings params result, hf, hl => by
    have hbare : Reads find (fun _ => false) (" ".intercalate (terms base bindings)).toList
        (.bound base bindings params result) := by
      rw [String.toList_intercalate]
      exact reads_bound hf hl (renderArgs_reads bindings hf.2.1 hl.2.1)
    have henclosed : ∀ sep, Reads find sep ('(' :: (" ".intercalate (terms base bindings)).toList ++ [')'])
        (.bound base bindings params result) := fun sep => hbare.enclose (terms_not_number base bindings)
    rw [shielded_bound hf, render_bound hf.infix_bindings]
    refine ⟨?_, henclosed _⟩
    cases (bound base bindings params result).isAtomic with
    | true => simpa [Ty.parenthesize] using henclosed fun _ => false
    | false => exact hbare

theorem renderList_reads : ∀ (fs : List Morphism), FormedParts (Known find) fs → LegibleParts fs →
    ∀ f ∈ fs, Reads find Text.isComma f.render.toList f
  | [], _, _ => by simp
  | f :: fs, hf, hl => by
    have hfirst := (render_reads f hf.1 hl.1).1
    have hrest := renderList_reads fs hf.2 hl.2.2
    refine List.forall_mem_cons.2 ⟨?_, hrest⟩
    exact { hfirst with closed := ⟨hfirst.closed.quotes, Text.splitFrom_single hl.2.1, hfirst.closed.parens⟩ }

theorem renderArgs_reads : ∀ (bindings : List (Nat × Morphism)), FormedBindings (Known find) bindings →
    LegibleArgs bindings → ∀ x ∈ bindings, x.2.Formed (Known find) ∧ x.2.Legible ∧
      Reads find Text.isBlank x.2.shielded.toList x.2
  | [], _, _ => by simp
  | (i, f) :: rest, hf, hl => by
    have hfirst := (render_reads f hf.1 hl.1).2
    exact List.forall_mem_cons.2 ⟨⟨hf.1, hl.1, hfirst⟩, renderArgs_reads rest hf.2 hl.2⟩

end

theorem lookup_named {whole name : String} {f : Morphism} (h : Returns (Term.lookup find whole name) f) :
    ∃ params result, f = .named name params result := by
  obtain ⟨symbol, _, h⟩ := h.of_bind
  split at h
  · exact absurd h not_returns_throw
  · exact ⟨_, _, h.of_pure⟩
  · exact ⟨_, _, h.of_pure⟩
  · exact absurd h not_returns_throw

/-- A positional slot reads back. -/
theorem read_slot {n : Nat} (hn : n < 0x10000000000000000) :
    Gives (Morphism.read find (slot (some n)).render) (.slot (some n)) := by
  have htext : (slot (some n)).render.toList = '$' :: Nat.toDigits 10 n := by
    simp [render, Nat.toString_eq_repr, Nat.toList_repr]
  obtain ⟨d, ds, hdigits⟩ := List.exists_cons_of_ne_nil (Nat.toDigits_ne_nil (b := 10) (n := n))
  have hdigit : ∀ c ∈ Nat.toDigits 10 n, Decimal.isDigit c = true := fun _ => Decimal.isDigit_of_mem_digitChars
  have htrim : Text.trimBlank ('$' :: Nat.toDigits 10 n) = '$' :: Nat.toDigits 10 n := by
    refine Text.trimBlank_eq_self (by simp; decide) fun c hc => ?_
    rcases List.mem_cons.1 (List.mem_of_mem_getLast? hc) with rfl | hc
    · decide
    · exact (Literal.isNumeric_facts (by simp [Literal.isNumeric, hdigit c hc])).2.1
  have hindex : slotIndex? (d :: ds) = some n := by
    have hplus : d ≠ '+' := by
      rintro rfl
      exact absurd (hdigit '+' (by rw [hdigits]; simp)) (by decide)
    have hnatural := Decimal.natural?_toDigits n
    rw [hdigits] at hnatural
    unfold slotIndex?
    split
    · rename_i heq
      exact absurd (List.cons.inj heq).1 hplus
    · dsimp only
      rw [hnatural, Option.filter_some, if_pos (by simpa using hn)]
  unfold Morphism.read
  dsimp only
  rw [htext, htrim, hdigits]
  simp only [hindex]
  exact gives_pure _

/-- **Morphisms read back.** A morphism that was read with a resolver whose answers do not change is
read from its own text again, if that text is not taken for another one. -/
theorem read_render (hfind : Stable find) {text : String} {m : Morphism} (h : Returns (Morphism.read find text) m)
    (hlegible : m.Legible) (s : σ) : ((Morphism.read find m.render).run.run s).1 = .ok m := by
  have hknown : ∀ name f, Term.Word name.toList → Returns (Term.lookup find text name) f → f.Formed (Known find) := by
    intro name f hword hlookup
    obtain ⟨params, result, rfl⟩ := lookup_named hlookup
    exact ⟨hword, hfind.gives_lookup hlookup⟩
  suffices hgives : Gives (Morphism.read find m.render) m from hgives s
  rcases read_formed hknown h with ⟨n, hn, rfl⟩ | hf
  · exact read_slot hn
  · have hreads := (render_reads m hf hlegible).1
    unfold Morphism.read
    dsimp only
    rw [hreads.trimmed]
    split
    · rename_i d ds heq
      -- a hole is not followed by anything
      have hfault := hreads.reads "" (m.render.toList.length + 1) (Nat.lt_succ_self _) s
      rw [Term.readWithin, hreads.trimmed, heq] at hfault
      cases hfault
    · exact hreads.reads _ _ (Nat.lt_succ_self _)

end Morphism

end

namespace Morphism

/-- The morphism of a text with the symbols of a table. -/
def readWith (table : SymbolTable) (text : String) : Except TypingError Morphism :=
  ((Morphism.read (table.resolver : Resolver (StateM Unit)) text).run.run ()).1

/-- A tuple of applications, one with a hole, a section, and a text. -/
def assorted : Morphism :=
  .tuple
    [.bound (.named "div" [.int, .int] .int) [(1, .literal (.int (-2)))] [.int] .int,
      .bound (.named "*" [.var "a", .var "a"] (.var "a")) [(0, .literal (.int 2))] [.int] .int,
      .bound (.named "*" [.var "a", .var "a"] (.var "a"))
        [(0, .bound (.named "+" [.var "a", .var "a"] (.var "a")) [(0, .literal (.int 1)), (1, .literal (.int 2))] [] .int),
          (1, .literal (.int 3))] [] .int,
      .literal (.text "a\n")]
    [.int] (.tuple [.int, .int, .int, .string])

theorem read_render_assorted : Stable (SymbolTable.prelude.resolver : Resolver (StateM Unit)) ∧
    readWith .prelude "!( div  $ (-2),(2 *) , (1 + 2) * 3, \"a\\n\" )" = .ok assorted ∧ assorted.Legible ∧
    assorted.render = "!(div $ (-2), (2 *), (1 + 2) * 3, \"a\\n\")" ∧ readWith .prelude assorted.render = .ok assorted := by
  have hstable : Stable (SymbolTable.prelude.resolver : Resolver (StateM Unit)) := fun _ _ _ => rfl
  have hread : readWith .prelude "!( div  $ (-2),(2 *) , (1 + 2) * 3, \"a\\n\" )" = .ok assorted := rfl
  have htext : ∀ c ∈ "a\n".toList, Literal.isSpelled c = true := List.all_eq_true.1 (by decide +kernel)
  have hlegible : assorted.Legible := by
    simp only [assorted, Legible, LegibleParts, LegibleArgs, Literal.Legible]
    and_intros <;> first | rfl | exact htext | decide +kernel
  exact ⟨hstable, hread, hlegible, by decide +kernel, read_render hstable ⟨(), (), Prod.ext hread rfl⟩ hlegible ()⟩

/-- The morphism of a text does not come out of its own text. -/
def Misreads (table : SymbolTable) (text : String) : Prop :=
  ∃ m, readWith table text = .ok m ∧ readWith table m.render ≠ .ok m

theorem misreads_of_render {table : SymbolTable} {text : String} (h : (readWith table text).toOption.any (fun m =>
    (readWith table m.render).toOption.all fun m' => m'.render ≠ m.render) = true) : Misreads table text := by
  obtain ⟨m, hm, hother⟩ := (Option.any_eq_true _ _).1 h
  have hread : readWith table text = .ok m := by
    cases hr : readWith table text with
    | error e =>
      rw [hr] at hm
      cases hm
    | ok m' =>
      rw [hr] at hm
      cases hm
      rfl
  refine ⟨m, hread, fun hsame => ?_⟩
  rw [hsame] at hother
  simp [Except.toOption] at hother

/-- A table of one operator. -/
def operator (name : String) (params : List Ty) : SymbolTable := ⟨[(name, ⟨.function, .curried params .int⟩)]⟩

/-- Texts whose morphisms cannot be told apart: two characters in quotes, an argument that is the identity,
the identity as a head, a tuple before an operator, an operator before an operator, a character that is
written as its code point, an operator of one parameter, one with a comma, and one whose parentheses
do not pair up. -/
theorem read_render_fails :
    (∀ text ∈ ["('a') == 'b'", "negate ( $ )", "( $ ) 3", "(!(1, 2)) == (!(1, 2))", "( (+) ) ==", "'\u0301'"],
      Misreads .prelude text) ∧
    Misreads (operator "~" [.int]) "( (~) ) 3" ∧ Misreads (operator "," [.int, .int]) "!((1 , 2))" ∧
    Misreads (operator "[)" [.int]) "[)" := by
  refine ⟨?_, misreads_of_render (by decide +kernel), misreads_of_render (by decide +kernel),
    misreads_of_render (by decide +kernel)⟩
  have hall : ∀ text ∈ ["('a') == 'b'", "negate ( $ )", "( $ ) 3", "(!(1, 2)) == (!(1, 2))", "( (+) ) ==", "'\u0301'"],
      (readWith .prelude text).toOption.any (fun m =>
        (readWith .prelude m.render).toOption.all fun m' => m'.render ≠ m.render) = true := by decide +kernel
  exact fun text htext => misreads_of_render (hall text htext)

end Morphism

end Dataflow
