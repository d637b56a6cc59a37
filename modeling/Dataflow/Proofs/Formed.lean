import Dataflow.Proofs.Brackets
import Dataflow.Proofs.Consistent
import Dataflow.Proofs.Tables

/-!
# Morphisms that were read

What comes out of reading was put together by the constructors of morphisms: the types of a tuple are
those that its parts give it, and the types of a partial application those that its base and its
bindings give it. A base is never itself a partial application, and names are words
(`Morphism.read_formed`).
-/

namespace Dataflow

/-! ## Putting morphisms together -/

namespace Morphism

variable {known : String → List Ty → Ty → Prop}

mutual

/-- A morphism that was put together from names with known types. A positional slot stands alone. -/
def Formed (known : String → List Ty → Ty → Prop) : Morphism → Prop
  | .named name params result => known name params result
  | .slot index => index = none
  | .literal _ => True
  | .tuple parts params result =>
    FormedParts known parts ∧ ofParts parts = .ok (.tuple parts params result) ∧ parts ≠ []
  | .bound base bindings params result =>
    Formed known base ∧ FormedBindings known bindings ∧ bindBase base bindings = .ok (.bound base bindings params result) ∧
      (∀ b bs ps r, base ≠ .bound b bs ps r) ∧ Assoc.Ascending bindings ∧ bindings ≠ [] ∧
      ∀ x ∈ bindings, x.1 < base.arity
termination_by structural f => f

def FormedParts (known : String → List Ty → Ty → Prop) : List Morphism → Prop
  | [] => True
  | f :: fs => Formed known f ∧ FormedParts known fs
termination_by structural fs => fs

def FormedBindings (known : String → List Ty → Ty → Prop) : List (Nat × Morphism) → Prop
  | [] => True
  | (_, f) :: rest => Formed known f ∧ FormedBindings known rest
termination_by structural fs => fs

end

theorem formedParts_iff {fs : List Morphism} : FormedParts known fs ↔ ∀ f ∈ fs, f.Formed known := by
  induction fs with
  | nil => simp [FormedParts]
  | cons f fs ih => simp [FormedParts, ih]

theorem formedBindings_iff {bs : List (Nat × Morphism)} : FormedBindings known bs ↔ ∀ x ∈ bs, x.2.Formed known := by
  induction bs with
  | nil => simp [FormedBindings]
  | cons x bs ih => simp [FormedBindings, ih]

theorem ofParts_shape {parts : List Morphism} {f : Morphism} (h : ofParts parts = .ok f) :
    ∃ params result, f = .tuple parts params result := by
  unfold ofParts at h
  split at h
  · cases h
    exact ⟨_, _, rfl⟩
  · obtain ⟨types, _, h⟩ := Except.bind_ok.1 h
    cases h
    exact ⟨_, _, rfl⟩

theorem bindBase_ok {base f : Morphism} {bindings : List (Nat × Morphism)} (h : bindBase base bindings = .ok f) :
    ∃ s, matchBindings base .empty bindings = .ok s ∧
      f = .bound base bindings ((openPositions base bindings).filterMap fun i => base.params[i]?.map s.apply)
        (s.apply base.result) := by
  unfold bindBase at h
  split at h
  · cases h
  · rename_i s hs
    cases h
    exact ⟨s, hs, rfl⟩

theorem mem_openPositions {base : Morphism} {bindings : List (Nat × Morphism)} {i : Nat} :
    i ∈ openPositions base bindings ↔ i < base.arity ∧ Assoc.get? i bindings = none := by
  simp [openPositions]

/-- What is bound to a morphism that is no partial application. -/
theorem bindBase_formed {base f : Morphism} (hbase : base.Formed known) (hfirst : ∀ b bs ps r, base ≠ .bound b bs ps r)
    {bindings : List (Nat × Morphism)} (hargs : ∀ x ∈ bindings, x.2.Formed known) (hasc : Assoc.Ascending bindings)
    (hne : bindings ≠ []) (hlt : ∀ x ∈ bindings, x.1 < base.arity) (h : bindBase base bindings = .ok f) :
    f.Formed known := by
  obtain ⟨s, _, rfl⟩ := bindBase_ok h
  exact ⟨hbase, formedBindings_iff.2 hargs, h, hfirst, hasc, hne, hlt⟩

/-- Entries are put into a table one after the other. -/
theorem foldl_insert {β : Type} {P : Nat × β → Prop} : ∀ (added table : List (Nat × β)), (∀ x ∈ added, P x) →
    (∀ x ∈ table, P x) → Assoc.Ascending table →
    Assoc.Ascending (added.foldl (fun table a => Assoc.insert a.1 a.2 table) table) ∧
      (∀ x ∈ added.foldl (fun table a => Assoc.insert a.1 a.2 table) table, P x) ∧
      (table ≠ [] → added.foldl (fun table a => Assoc.insert a.1 a.2 table) table ≠ [])
  | [], table, _, htable, hasc => ⟨hasc, htable, id⟩
  | a :: added, table, hadded, htable, hasc => by
    obtain ⟨hasc', hall, hne⟩ := foldl_insert added (Assoc.insert a.1 a.2 table)
      (fun x hx => hadded x (List.mem_cons_of_mem a hx))
      (fun x hx => (Assoc.mem_insert hx).elim (fun heq => heq ▸ hadded a (by simp)) (htable x))
      (Assoc.insert_ascending hasc)
    refine ⟨hasc', hall, fun _ => hne ?_⟩
    have hkey : a.1 ∈ (Assoc.insert a.1 a.2 table).map (·.1) := Assoc.mem_keys_insert (Or.inl rfl)
    intro hnil
    simp [hnil] at hkey

theorem bind_formed {m f : Morphism} (hm : m.Formed known) {args : List (Nat × Morphism)}
    (hargs : ∀ x ∈ args, x.2.Formed known) (hasc : Assoc.Ascending args) (h : m.bind args = .ok f) : f.Formed known := by
  unfold bind at h
  dsimp only at h
  have hall : ∀ x ∈ args.filter (fun a => a.1 < m.arity), x.2.Formed known := fun x hx =>
    hargs x (List.mem_filter.1 hx).1
  split at h
  · cases h
  · rename_i hne
    split at h
    · rename_i base bindings params result
      obtain ⟨hbase, hbindings, hbound, hfirst, hsorted, hsome, hbelow⟩ := hm
      -- the new arguments go to positions that were open
      obtain ⟨hsorted', hall', hsome'⟩ := foldl_insert (P := fun x => x.2.Formed known ∧ x.1 < base.arity)
        ((args.filter fun a => a.1 < arity (.bound base bindings params result)).filterMap fun a =>
          (openPositions base bindings)[a.1]?.map fun i => (i, a.2)) bindings
        (fun x hx => by
          obtain ⟨a, ha, hx⟩ := List.mem_filterMap.1 hx
          obtain ⟨i, hi, rfl⟩ := Option.map_eq_some_iff.1 hx
          exact ⟨hall a ha, (mem_openPositions.1 (List.mem_of_getElem? hi)).1⟩)
        (fun x hx => ⟨formedBindings_iff.1 hbindings x hx, hbelow x hx⟩) hsorted
      exact bindBase_formed hbase hfirst (fun x hx => (hall' x hx).1) hsorted' (hsome' hsome) (fun x hx => (hall' x hx).2) h
    · rename_i hfirst
      refine bindBase_formed hm hfirst hall (hasc.filter _) (by simpa using hne) (fun x hx => ?_) h
      simpa using (List.mem_filter.1 hx).2

end Morphism

/-! ## Reading -/

namespace Term

mutual

/-- The arguments of every application stand in order, tuples have parts, and names are words. -/
def Ordered : Term → Prop
  | .symbol name => Word name.toList
  | .tuple _ parts => parts ≠ [] ∧ OrderedParts parts
  | .apply _ _ head _ args => Ordered head ∧ OrderedArgs args ∧ Assoc.Ascending args
  | .fault _ | .identity | .literal _ => True
termination_by structural t => t

def OrderedParts : List Term → Prop
  | [] => True
  | t :: ts => Ordered t ∧ OrderedParts ts
termination_by structural ts => ts

def OrderedArgs : List (Nat × Term) → Prop
  | [] => True
  | (_, t) :: rest => Ordered t ∧ OrderedArgs rest
termination_by structural ts => ts

end

theorem orderedParts_iff {ts : List Term} : OrderedParts ts ↔ ∀ t ∈ ts, t.Ordered := by
  induction ts with
  | nil => simp [OrderedParts]
  | cons t ts ih => simp [OrderedParts, ih]

theorem orderedArgs_iff {ts : List (Nat × Term)} : OrderedArgs ts ↔ ∀ x ∈ ts, x.2.Ordered := by
  induction ts with
  | nil => simp [OrderedArgs]
  | cons x ts ih => simp [OrderedArgs, ih]

theorem arrange_ascending (head : List Char) (args : List (List Char)) : Assoc.Ascending (arrange head args).2 := by
  unfold arrange
  split
  · split
    · simp [Assoc.Ascending]
    · split <;> simp [Assoc.Ascending]
  · split <;> simp [Assoc.Ascending, Nat.compare_eq_lt]
  · have hkeys : ((args.zipIdx.map fun a => (a.2, a.1)).map (·.1)) = List.range args.length := by
      rw [List.map_map, List.range_eq_range', ← List.zipIdx_map_snd 0 args]
      rfl
    have hasc : Assoc.Ascending (args.zipIdx.map fun a => (a.2, a.1)) := by
      simp only [Assoc.Ascending, hkeys, Nat.compare_eq_lt]
      exact List.pairwise_lt_range
    exact hasc

theorem ofApplication_ordered {read : List Char → Term} (hread : ∀ cs, (read cs).Ordered) (whole : String)
    (text head : List Char) (args : List (List Char)) : (ofApplication read whole text head args).Ordered := by
  unfold ofApplication
  dsimp only
  split
  · trivial
  · refine ⟨hread _, orderedArgs_iff.2 fun x hx => ?_, ?_⟩
    · obtain ⟨y, _, rfl⟩ := List.mem_map.1 hx
      exact hread _
    · have hasc := (arrange_ascending head args).filter fun x => x.2 ≠ ['$']
      simpa [Assoc.Ascending, Function.comp_def] using hasc

theorem ofTerms_ordered {read : List Char → Term} (hread : ∀ cs, (read cs).Ordered) (whole : String) {text : List Char}
    (hword : ∀ parts term, Text.splitTop Text.isBlank text = .ok parts → (parts.filter fun part => !part.isEmpty) = [term] →
      Text.enclosed? term = .ok none → isName term = true → Word term) : (ofTerms read whole text).Ordered := by
  unfold ofTerms
  split
  · trivial
  · rename_i parts hparts
    split
    · trivial
    · rename_i term hterm
      split
      · trivial
      · exact hread _
      · rename_i hbare
        unfold ofName
        dsimp only
        split
        · rename_i hname
          simpa [Ordered] using hword parts term hparts hterm hbare hname
        · trivial
    · exact ofApplication_ordered hread _ _ _ _

theorem ofTuple_ordered {read : List Char → Term} (hread : ∀ cs, (read cs).Ordered) (text rest : List Char) :
    (ofTuple read text rest).Ordered := by
  unfold ofTuple
  split
  · trivial
  · trivial
  · split
    · trivial
    · rename_i parts hparts
      refine ⟨?_, orderedParts_iff.2 fun t ht => ?_⟩
      · intro hnil
        have hjoined := (Text.splitTop_joined hparts).2
        rw [List.map_eq_nil_iff.1 hnil] at hjoined
        cases hjoined
      · obtain ⟨cs, _, rfl⟩ := List.mem_map.1 ht
        exact hread cs

theorem readWithin_ordered (whole : String) (depth : Nat) (text : List Char) : (readWithin whole depth text).Ordered := by
  induction depth generalizing text with
  | zero => trivial
  | succ depth ih =>
    have hends := Text.trimBlank_ends text
    unfold readWithin
    dsimp only
    generalize Text.trimBlank text = trimmed at hends
    split
    · trivial
    · trivial
    · exact ofTuple_ordered ih _ _
    · trivial
    · rename_i hnil hhole htuple hslot
      split
      · trivial
      · trivial
      · rename_i hliteral
        refine ofTerms_ordered ih whole fun parts term hparts hterm hbare hname =>
          word_of_term hends hnil ⟨?_, ?_⟩ hliteral hparts hterm hbare hname
        · exact fun hhead => hslot _ (List.eq_cons_of_mem_head? hhead)
        · exact fun hhead => htuple _ (List.eq_cons_of_mem_head? hhead)

section
variable {σ : Type} {find : Resolver (StateM σ)} {whole : String} {known : String → List Ty → Ty → Prop}

theorem building_returns {text : String} {built : Except BindError Morphism} {f : Morphism}
    (h : Returns (building (m := StateM σ) text built) f) : built = .ok f := by
  unfold building at h
  split at h
  · exact congrArg Except.ok h.of_pure.symm
  · exact absurd h not_returns_throw

mutual

/-- What a term means is formed if the meanings of names are. -/
theorem elaborate_formed (hfind : ∀ name f, Word name.toList → Returns (lookup find whole name) f → f.Formed known) :
    ∀ {t : Term} {f : Morphism}, t.Ordered → Returns (t.elaborate find whole) f → f.Formed known
  | .fault e, f, _, h => absurd h not_returns_throw
  | .identity, f, _, h => by
    obtain rfl := h.of_pure
    rfl
  | .literal l, f, _, h => by
    obtain rfl := h.of_pure
    trivial
  | .symbol name, f, ht, h => hfind name f ht h
  | .tuple text parts, f, ht, h => by
    obtain ⟨fs, hfs, h⟩ := Returns.of_bind h
    have hbuilt := building_returns h
    obtain ⟨params, result, rfl⟩ := Morphism.ofParts_shape hbuilt
    obtain ⟨hfs, hlen⟩ := elaborateList_formed hfind ht.2 hfs
    exact ⟨Morphism.formedParts_iff.2 hfs, hbuilt, fun hnil => ht.1 (List.length_eq_zero_iff.1 (by simp [← hlen, hnil]))⟩
  | .apply text op head given args, f, ht, h => by
    obtain ⟨g, hg, h⟩ := Returns.of_bind h
    have hhead := elaborate_formed hfind ht.1 hg
    split at h
    · exact absurd h not_returns_throw
    · obtain ⟨fs, hfs, h⟩ := Returns.of_bind h
      obtain ⟨hargs, hkeys⟩ := elaborateArgs_formed hfind ht.2.1 hfs
      split at h
      · obtain rfl := h.of_pure
        exact hhead
      · refine Morphism.bind_formed hhead hargs ?_ (building_returns h)
        rw [Assoc.Ascending, hkeys]
        exact ht.2.2

theorem elaborateList_formed (hfind : ∀ name f, Word name.toList → Returns (lookup find whole name) f → f.Formed known) :
    ∀ {ts : List Term} {fs : List Morphism}, OrderedParts ts → Returns (elaborateList find whole ts) fs →
      (∀ f ∈ fs, f.Formed known) ∧ fs.length = ts.length
  | [], fs, _, h => by
    obtain rfl := h.of_pure
    simp
  | t :: ts, fs, ht, h => by
    obtain ⟨f, hf, h⟩ := Returns.of_bind h
    obtain ⟨rest, hrest, h⟩ := Returns.of_bind h
    obtain rfl := h.of_pure
    have hfirst := elaborate_formed hfind ht.1 hf
    obtain ⟨hothers, hlen⟩ := elaborateList_formed hfind ht.2 hrest
    exact ⟨by simpa using ⟨hfirst, hothers⟩, by simp [hlen]⟩

theorem elaborateArgs_formed (hfind : ∀ name f, Word name.toList → Returns (lookup find whole name) f → f.Formed known) :
    ∀ {ts : List (Nat × Term)} {fs : List (Nat × Morphism)}, OrderedArgs ts → Returns (elaborateArgs find whole ts) fs →
      (∀ x ∈ fs, x.2.Formed known) ∧ fs.map (·.1) = ts.map (·.1)
  | [], fs, _, h => by
    obtain rfl := h.of_pure
    simp
  | (i, t) :: ts, fs, ht, h => by
    obtain ⟨f, hf, h⟩ := Returns.of_bind h
    obtain ⟨rest, hrest, h⟩ := Returns.of_bind h
    obtain rfl := h.of_pure
    have hfirst := elaborate_formed hfind ht.1 hf
    obtain ⟨hothers, hkeys⟩ := elaborateArgs_formed hfind ht.2 hrest
    refine ⟨fun x hx => ?_, by simp [hkeys]⟩
    rcases List.mem_cons.1 hx with rfl | hx
    · exact hfirst
    · exact hothers x hx

end

end

end Term

/-- A morphism that was read is a positional slot, or formed if the meanings of names are. -/
theorem Morphism.read_formed {σ : Type} {find : Resolver (StateM σ)} {known : String → List Ty → Ty → Prop} {text : String}
    (hfind : ∀ name f, Term.Word name.toList → Returns (Term.lookup find text name) f → f.Formed known) {f : Morphism}
    (h : Returns (Morphism.read find text) f) : (∃ n, n < 0x10000000000000000 ∧ f = .slot (some n)) ∨ f.Formed known := by
  unfold Morphism.read at h
  dsimp only at h
  split at h
  · split at h
    · rename_i n hn
      obtain rfl := h.of_pure
      exact Or.inl ⟨n, of_decide_eq_true (Option.filter_eq_some_iff.1 hn).2, rfl⟩
    · exact absurd h not_returns_throw
  · exact Or.inr (Term.elaborate_formed hfind (Term.readWithin_ordered _ _ _) h)

end Dataflow
