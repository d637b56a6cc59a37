import Dataflow.Proofs.Brackets

/-!
# What a text means

A fault names the text that it stands in, so a part of a text is refused in other words than the same
part alone. Apart from that a part means what it means alone: the same names are looked up in the same
order, and the same morphism comes out (`Term.readWithin_sense`, `Resolver.meaning_eq_sense`).
-/

namespace Dataflow

/-! ## Answers without their faults -/

section
variable {m : Type → Type} [Monad m] {ε α β : Type}

/-- What a computation gives. Which fault it ends with is left out. -/
def answer (x : ExceptT ε m α) : OptionT m α := OptionT.mk (Except.toOption <$> x.run)

variable [LawfulMonad m]

@[simp] theorem answer_pure (a : α) : answer (pure a : ExceptT ε m α) = pure a := by
  apply OptionT.ext
  simp [answer, Except.toOption]

@[simp] theorem answer_throw (e : ε) : answer (throw e : ExceptT ε m α) = failure := by
  apply OptionT.ext
  simp [answer, Except.toOption]

@[simp] theorem answer_bind (x : ExceptT ε m α) (f : α → ExceptT ε m β) :
    answer (x >>= f) = answer x >>= fun a => answer (f a) := by
  apply OptionT.ext
  simp only [answer, OptionT.run_mk, ExceptT.run_bind, OptionT.run_bind, Option.elimM, map_bind, bind_map_left]
  refine bind_congr fun r => ?_
  cases r with
  | error e => simp [Except.toOption]
  | ok a => simp [Except.toOption]

@[simp] theorem answer_map (f : α → β) (x : ExceptT ε m α) : answer (f <$> x) = f <$> answer x := by
  rw [map_eq_pure_bind, map_eq_pure_bind, answer_bind]
  simp

theorem failure_bind (f : α → OptionT m β) : failure >>= f = failure := by
  apply OptionT.ext
  simp

theorem mapM_congr {l : List α} {f g : α → OptionT m β} (h : ∀ a ∈ l, f a = g a) : l.mapM f = l.mapM g := by
  induction l with
  | nil => rfl
  | cons a l ih =>
    rw [List.mapM_cons, List.mapM_cons, h a (by simp), ih fun b hb => h b (List.mem_cons_of_mem a hb)]

end

/-! ## Terms -/

namespace Term

variable {m : Type → Type} [Monad m]

/-- What a term means, its faults left out. -/
def sense (find : Resolver m) (whole : String) (t : Term) : OptionT m Morphism := answer (t.elaborate find whole)

@[simp] theorem answer_elaborate {find : Resolver m} {whole : String} (t : Term) :
    answer (t.elaborate find whole) = sense find whole t := rfl

variable [LawfulMonad m] {find : Resolver m} {whole whole' : String}

@[simp] theorem sense_fault (e : ReadError) : sense find whole (.fault e) = failure := by
  rw [sense, elaborate, answer_throw]

@[simp] theorem sense_faultIn (e : ReadError) (text : String) : sense find whole (faultIn text e) = failure :=
  sense_fault _

@[simp] theorem sense_identity : sense find whole .identity = pure (.slot none) := by
  rw [sense, elaborate, answer_pure]

@[simp] theorem sense_literal (l : Literal) : sense find whole (.literal l) = pure (.literal l) := by
  rw [sense, elaborate, answer_pure]

theorem answer_lookup (whole' name : String) :
    answer (lookup find whole name) = answer (lookup find whole' name) := by
  rw [lookup, lookup, answer_bind, answer_bind]
  refine bind_congr fun symbol => ?_
  match symbol with
  | none => simp
  | some ⟨.function, _⟩ | some ⟨.value, _⟩ | some ⟨.type, _⟩ => rfl

theorem answer_building (text : String) (built : Except BindError Morphism) :
    answer (building (m := m) text built) = built.toOption.getM := by
  cases built with
  | ok f => exact answer_pure f
  | error e => exact answer_throw _

theorem answer_elaborateList (ts : List Term) :
    answer (elaborateList find whole ts) = ts.mapM (sense find whole) := by
  induction ts with
  | nil => simp [elaborateList]
  | cons t ts ih => simp [elaborateList, ih]

theorem answer_elaborateArgs (ts : List (Nat × Term)) :
    answer (elaborateArgs find whole ts) = ts.mapM fun x => (x.1, ·) <$> sense find whole x.2 := by
  induction ts with
  | nil => simp [elaborateArgs]
  | cons x ts ih => simp [elaborateArgs, ih]

theorem sense_tuple (text : String) (parts : List Term) : sense find whole (.tuple text parts) =
    parts.mapM (sense find whole) >>= fun fs => (Morphism.ofParts fs).toOption.getM := by
  simp [sense, elaborate, answer_elaborateList, answer_building]

theorem sense_apply (text op : String) (head : Term) (given : List (Nat × String)) (args : List (Nat × Term)) :
    sense find whole (.apply text op head given args) = (do
      let f ← sense find whole head
      guard (∀ g ∈ given, g.1 < f.arity)
      let fs ← args.mapM fun x => (x.1, ·) <$> sense find whole x.2
      if fs.isEmpty then pure f else (f.bind fs).toOption.getM) := by
  rw [sense, elaborate, answer_bind, answer_elaborate]
  refine bind_congr fun f => ?_
  by_cases hfits : ∀ g ∈ given, g.1 < f.arity
  · have hnone : surplus? whole op f.arity given = none := by simpa [surplus?] using hfits
    rw [hnone, guard, if_pos hfits, pure_bind, answer_bind, answer_elaborateArgs]
    refine bind_congr fun fs => ?_
    split
    · exact answer_pure f
    · exact answer_building _ _
  · obtain ⟨e, he⟩ : ∃ e, surplus? whole op f.arity given = some e := by
      rw [← Option.isSome_iff_exists]
      simpa [surplus?] using hfits
    rw [he, guard, if_neg hfits, failure_bind, answer_throw]

/-! ## Texts as parts and alone -/

section
variable {read read' : List Char → Term} {text : List Char}

theorem ofApplication_sense {head : List Char} {args : List (List Char)}
    (h : ∀ part ∈ head :: args, sense find whole (read part) = sense find whole' (read' part)) :
    sense find whole (ofApplication read whole text head args) =
      sense find whole' (ofApplication read' whole' text head args) := by
  obtain ⟨op, given, harrange⟩ : ∃ op given, arrange head args = (op, given) := ⟨_, _, rfl⟩
  obtain ⟨hop, hgiven⟩ := arrange_mem harrange
  simp only [ofApplication, harrange]
  split
  · simp
  · rw [sense_apply, sense_apply, h op hop]
    refine bind_congr fun f => bind_congr fun _ => ?_
    rw [List.mapM_map, List.mapM_map]
    refine congrArg (· >>= _) (mapM_congr fun g hg => ?_)
    simp [h g.2 (hgiven g (List.mem_filter.1 hg).1)]

theorem ofTerms_sense
    (h : ∀ part : List Char, part.length < text.length → sense find whole (read part) = sense find whole' (read' part)) :
    sense find whole (ofTerms read whole text) = sense find whole' (ofTerms read' whole' text) := by
  unfold ofTerms
  split
  · simp
  · rename_i parts hparts
    have hjoined := (Text.splitTop_joined hparts).2
    split
    · simp
    · rename_i term hterm
      have hmem : term ∈ parts := (List.mem_filter.1 (hterm ▸ List.mem_singleton_self term)).1
      split
      · simp
      · rename_i inner hinner
        have hle := hjoined.length_le term hmem
        rw [Text.enclosed?_ok hinner] at hle
        exact h inner (by simp at hle; omega)
      · unfold ofName
        dsimp only
        split
        · exact answer_lookup whole' _
        · simp
    · rename_i head args hnone hterms
      have hsub : (head :: args).Sublist parts := hterms ▸ List.filter_sublist
      have htwo : 2 ≤ parts.length := by
        refine Nat.le_trans ?_ hsub.length_le
        cases args with
        | nil => exact absurd rfl hnone
        | cons => simp
      exact ofApplication_sense fun part hpart => h part (hjoined.length_lt htwo part (hsub.subset hpart))

theorem ofTuple_sense {rest : List Char}
    (h : ∀ part : List Char, part.length < rest.length → sense find whole (read part) = sense find whole' (read' part)) :
    sense find whole (ofTuple read text rest) = sense find whole' (ofTuple read' text rest) := by
  unfold ofTuple
  split
  · simp
  · simp
  · rename_i inner hinner
    have hle := Text.length_trimBlank_le rest
    rw [Text.enclosed?_ok hinner] at hle
    split
    · simp
    · rename_i parts hparts
      rw [sense_tuple, sense_tuple, List.mapM_map, List.mapM_map]
      refine congrArg (· >>= _) (mapM_congr fun part hpart => h part ?_)
      have hpartLe := (Text.splitTop_joined hparts).2.length_le part hpart
      simp at hle
      omega

end

theorem readWithin_trim (whole : String) (depth : Nat) (text : List Char) :
    readWithin whole depth text = readWithin whole depth (Text.trimBlank text) := by
  cases depth with
  | zero => rfl
  | succ depth => rw [readWithin, readWithin, Text.trimBlank_trimBlank]

/-- A text means the same in every text that it is a part of. -/
theorem readWithin_sense (depth : Nat) {depth' : Nat} {text : List Char} (h : text.length < depth)
    (h' : text.length < depth') :
    sense find whole (readWithin whole depth text) = sense find whole' (readWithin whole' depth' text) := by
  induction depth generalizing depth' text with
  | zero => exact absurd h (Nat.not_lt_zero _)
  | succ depth ih =>
    obtain ⟨depth', rfl⟩ : ∃ n, depth' = n + 1 := ⟨depth' - 1, by omega⟩
    rw [readWithin_trim whole, readWithin_trim whole']
    have hle := Text.length_trimBlank_le text
    have htrim := Text.trimBlank_trimBlank text
    generalize Text.trimBlank text = t at hle htrim
    have hparts : ∀ part : List Char, part.length < t.length →
        sense find whole (readWithin whole depth part) = sense find whole' (readWithin whole' depth' part) :=
      fun part hpart => ih (by omega) (by omega)
    by_cases hplain : t ≠ [] ∧ t.head? ≠ some '$' ∧ t.head? ≠ some '!'
    · rw [readWithin_plain htrim hplain.1 hplain.2, readWithin_plain htrim hplain.1 hplain.2]
      split
      · simp
      · simp
      · exact ofTerms_sense hparts
    · obtain rfl | ⟨rest, rfl⟩ | ⟨rest, rfl⟩ : t = [] ∨ (∃ rest, t = '$' :: rest) ∨ ∃ rest, t = '!' :: rest := by
        cases t with
        | nil => exact Or.inl rfl
        | cons c rest =>
          have hmark : c = '$' ∨ c = '!' := by
            by_contra hnot
            exact hplain (by simpa using hnot)
          rcases hmark with rfl | rfl
          · exact Or.inr (Or.inl ⟨rest, rfl⟩)
          · exact Or.inr (Or.inr ⟨rest, rfl⟩)
      · simp [readWithin, htrim]
      · cases rest <;> simp [readWithin, htrim]
      · rw [readWithin, readWithin, htrim]
        exact ofTuple_sense fun part hpart => hparts part (by simp; omega)

end Term

/-! ## Texts alone -/

namespace Resolver

variable {m : Type → Type} [Monad m]

/-- What a text means, its faults left out. -/
def meaning (find : Resolver m) (text : String) : OptionT m Morphism := answer (Morphism.read find text)

/-- What a name means. -/
def symbol (find : Resolver m) (name : String) : OptionT m Morphism := answer (Term.lookup find name name)

variable [LawfulMonad m] {find : Resolver m} {text : String}

theorem meaning_eq_sense (hhead : text.toList.head? ≠ some '$') (htrim : Text.trimBlank text.toList = text.toList)
    (whole : String) {depth : Nat} (hdepth : text.toList.length < depth) :
    find.meaning text = Term.sense find whole (Term.readWithin whole depth text.toList) := by
  have hsame : Term.sense find whole (Term.readWithin whole depth text.toList) =
      Term.sense find text (Term.read text text.toList) := Term.readWithin_sense depth hdepth (Nat.lt_succ_self _)
  rw [hsame, meaning, Morphism.read, htrim]
  split
  · rename_i heq
    simp [heq] at hhead
  · rfl

theorem meaning_word (h : Term.Word text.toList) : find.meaning text = find.symbol text := by
  rw [meaning_eq_sense h.plain.1 h.trimmed text (Nat.lt_succ_self _), h.read, String.ofList_toList]
  rfl

end Resolver

end Dataflow
