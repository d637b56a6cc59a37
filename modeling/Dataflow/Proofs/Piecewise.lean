import Dataflow.Plan.Apply
import Dataflow.Proofs.Formed
import Dataflow.Proofs.Instances

/-!
# Matching piece by piece

Arguments are matched one at a time: each pattern on its own, and the substitution that is found is merged
into those before it. This agrees with matching the tuple of all patterns at once, on success and on
every binding, whatever the order of the pieces (`Ty.matching_piecewise`). Both ways give the least
substitution that turns every pattern into its type, so binding arguments succeeds exactly if there is
such a substitution, and specialises what stays open by the least one.
-/

namespace Dataflow

/-! ## Substitutions in order -/

namespace Subst

/-- The variables are recorded in ascending order. -/
def Ordered (s : Subst) : Prop := s.names.Pairwise (· < ·)

variable {s s' other r : Subst}

theorem ordered_empty : empty.Ordered := .nil

theorem ordered_iff : s.Ordered ↔ Assoc.Ascending s.entries := by
  have hlt : ∀ a b : String, compare a b = .lt ↔ a < b := fun _ _ => compareOfLessAndEq_eq_lt
  exact ⟨fun h => h.imp (hlt _ _).2, fun h => h.imp (hlt _ _).1⟩

theorem get?_eq_none {x : String} : s.get? x = none ↔ x ∉ s.names := Assoc.get?_eq_none

theorem apply_var_of_get? {x : String} {t : Ty} (h : s.get? x = some t) : s.apply (.var x) = t := by
  rw [apply, h, Option.getD_some]

/-- Substitutions in order that bind the same variables, each to the same type, are equal. -/
theorem Ordered.ext (hs : s.Ordered) (hr : r.Ordered) (hnames : ∀ x, x ∈ s.names ↔ x ∈ r.names)
    (h : ∀ x ∈ s.names, s.apply (.var x) = r.apply (.var x)) : s = r := by
  have hentries : s.entries = r.entries := by
    refine (ordered_iff.1 hs).ext (ordered_iff.1 hr) fun x => ?_
    by_cases hx : x ∈ s.names
    · obtain ⟨t, ht⟩ := exists_get? hx
      obtain ⟨u, hu⟩ := exists_get? ((hnames x).1 hx)
      have heq := h x hx
      rw [apply_var_of_get? ht, apply_var_of_get? hu] at heq
      exact ht.trans (heq ▸ hu.symm)
    · exact (get?_eq_none.2 hx).trans (get?_eq_none.2 fun hr => hx ((hnames x).2 hr)).symm
  cases s
  cases r
  exact congrArg mk hentries

theorem Extends.within (h : r.Extends s) : s.Within r := fun x t hx => apply_var_of_get? (h x t hx)

/-! ## Merging -/

/-- What is recorded in order stays in order, with the variables of both. -/
theorem bindAll_names : ∀ {entries : List (String × Ty)} {s s' : Subst}, s.bindAll entries = .ok s' →
    (∀ y, y ∈ s'.names ↔ y ∈ entries.map (·.1) ∨ y ∈ s.names) ∧ (s.Ordered → s'.Ordered)
  | [], s, s', h => by
    cases h
    exact ⟨by simp, id⟩
  | (x, t) :: rest, s, s', h => by
    simp only [bindAll] at h
    split at h
    · rename_i s₁ hs₁
      obtain ⟨hnames₁, hordered₁⟩ := bind_names hs₁
      obtain ⟨hnames, hordered⟩ := bindAll_names h
      refine ⟨fun y => ?_, fun hs => hordered (hordered₁ hs)⟩
      rw [hnames, hnames₁, List.map_cons, List.mem_cons]
      tauto
    · cases h

/-- Nothing stands in the way of recording what some larger substitution records. -/
theorem Extends.bind {x : String} {t : Ty} (hs : r.Extends s) (hx : r.get? x = some t) :
    ∃ s', s.bind x t = .ok s' ∧ r.Extends s' := by
  unfold Subst.bind
  split
  · refine ⟨_, rfl, fun y u hy => ?_⟩
    rw [get?, Assoc.get?_insert] at hy
    split at hy
    · rename_i hyx
      cases hy
      rw [hyx, hx]
    · exact hs y u hy
  · rename_i bound hbound
    have heq : bound = t := Option.some.inj ((hs x bound hbound).symm.trans hx)
    exact ⟨s, if_pos heq, hs⟩

theorem Extends.bindAll : ∀ {entries : List (String × Ty)} {s : Subst}, r.Extends s →
    (∀ x t, (x, t) ∈ entries → r.get? x = some t) → ∃ s', s.bindAll entries = .ok s'
  | [], s, _, _ => ⟨s, rfl⟩
  | (x, t) :: rest, s, hs, hall => by
    obtain ⟨s₁, hs₁, hr⟩ := hs.bind (hall x t (by simp))
    obtain ⟨s', hs'⟩ := hr.bindAll fun y u hmem => hall y u (List.mem_cons_of_mem _ hmem)
    exact ⟨s', by simp [Subst.bindAll, hs₁, hs']⟩

theorem Extends.merge (hs : r.Extends s) (hother : r.Extends other) (hordered : other.Ordered) :
    ∃ s', s.merge other = .ok s' :=
  hs.bindAll fun _ _ hmem => hother _ _ ((ordered_iff.1 hordered).get?_of_mem hmem)

end Subst

/-! ## One piece -/

namespace Ty

variable {s s' r : Subst} {p c : Ty}

theorem matching_ordered (h : p.matching c = .ok s) : s.Ordered := (matchInto_names h).2 .nil

/-- Matching finds the substitution that binds the variables of the pattern and makes the instance. -/
theorem matching_iff : p.matching c = .ok s ↔ s.apply p = c ∧ s.names = p.freeVars := by
  constructor
  · intro h
    exact ⟨matching_ok h, matching_names h⟩
  · rintro ⟨rfl, hnames⟩
    obtain ⟨found, hfound, hagree⟩ := matching_apply s p
    have hsame : found.names = s.names := (matching_names hfound).trans hnames.symm
    have hordered : s.Ordered := by
      unfold Subst.Ordered
      rw [hnames]
      exact p.freeVars_ascending
    have heq : s = found :=
      hordered.ext (matching_ordered hfound) (fun x => by rw [hsame]) fun x hx => hagree x (hnames ▸ hx)
    rw [hfound, heq]

/-- Two substitutions that make one instance agree on the variables of the pattern. -/
theorem apply_var_eq (h : s.apply p = r.apply p) {x : String} (hx : x ∈ p.vars) : s.apply (.var x) = r.apply (.var x) := by
  obtain ⟨found, hfound, hs⟩ := matching_apply s p
  obtain ⟨found', hfound', hr⟩ := matching_apply r p
  rw [h, hfound'] at hfound
  cases hfound
  have hx := mem_freeVars.2 hx
  rw [hs x hx, hr x hx]

/-- `s'` is `s` with the variables of `p` added, and turns `p` into `c`. -/
structure Adds (s : Subst) (p c : Ty) (s' : Subst) : Prop where
  ordered : s'.Ordered
  keeps : s'.Extends s
  makes : s'.apply p = c
  names : ∀ x, x ∈ s'.names ↔ x ∈ p.vars ∨ x ∈ s.names

theorem Adds.unique {s₁ s₂ : Subst} (h₁ : Adds s p c s₁) (h₂ : Adds s p c s₂) : s₁ = s₂ := by
  refine h₁.ordered.ext h₂.ordered (fun x => by rw [h₁.names, h₂.names]) fun x hx => ?_
  rcases (h₁.names x).1 hx with hx | hx
  · exact apply_var_eq (h₁.makes.trans h₂.makes.symm) hx
  · obtain ⟨t, ht⟩ := Subst.exists_get? hx
    rw [Subst.apply_var_of_get? (h₁.keeps x t ht), Subst.apply_var_of_get? (h₂.keeps x t ht)]

/-- Matching on top of a substitution adds to it. -/
theorem adds_iff_matchInto (hs : s.Ordered) : Adds s p c s' ↔ matchInto s p c = .ok s' := by
  have hsound : ∀ {s'}, matchInto s p c = .ok s' → Adds s p c s' := fun h =>
    ⟨(matchInto_names h).2 hs, (matchInto_ok h).1, (matchInto_ok h).2 _ (.refl _), (matchInto_names h).1⟩
  refine ⟨fun h => ?_, hsound⟩
  obtain ⟨found, hfound, -⟩ := matchInto_apply s' p h.keeps.within
  rw [h.makes] at hfound
  rw [hfound, h.unique (hsound hfound)]

/-- Matching alone and merging adds the same. -/
theorem adds_iff_merge (hs : s.Ordered) : Adds s p c s' ↔ (p.matching c).bind s.merge = .ok s' := by
  have hsound : ∀ {s'}, (p.matching c).bind s.merge = .ok s' → Adds s p c s' := by
    intro s' h
    obtain ⟨found, hfound, hmerge⟩ := Except.bind_ok.1 h
    obtain ⟨hnames, hordered⟩ := Subst.bindAll_names hmerge
    refine ⟨hordered hs, (matching_merge_ok h).1, (matching_merge_ok h).2 s' (.refl s'), fun x => ?_⟩
    have hvars : x ∈ found.entries.map (·.1) ↔ x ∈ p.vars := by
      rw [← mem_freeVars, ← matching_names hfound]
      rfl
    rw [hnames, hvars]
  refine ⟨fun h => ?_, hsound⟩
  -- what matching finds alone is part of `s'`, as `s` is
  obtain ⟨found, hfound, hagree⟩ := matching_apply s' p
  have hpart : s'.Extends found := by
    intro x t ht
    have hx : x ∈ p.freeVars := matching_names hfound ▸ List.mem_map_of_mem (Assoc.get?_mem ht)
    obtain ⟨u, hu⟩ := Subst.exists_get? ((h.names x).2 (Or.inl (mem_freeVars.1 hx)))
    have heq := hagree x hx
    rw [Subst.apply_var_of_get? hu, Subst.apply_var_of_get? ht] at heq
    rw [hu, heq]
  obtain ⟨s'', hmerge⟩ := h.keeps.merge hpart (matching_ordered hfound)
  have hbind : (p.matching c).bind s.merge = .ok s'' := by
    rw [← h.makes, hfound]
    exact hmerge
  rw [hbind, h.unique (hsound hbind)]

/-- One piece: matching alone and merging is matching on top of what came before. -/
theorem merge_iff_matchInto (hs : s.Ordered) : (p.matching c).bind s.merge = .ok s' ↔ matchInto s p c = .ok s' :=
  (adds_iff_merge hs).symm.trans (adds_iff_matchInto hs)

end Ty

/-! ## All pieces -/

theorem Morphism.matchComponents_iff : ∀ {ps cs : List Ty} {s s' : Subst}, s.Ordered → ps.length = cs.length →
    (matchComponents s ps cs = .ok s' ↔ Ty.matchList s ps cs = .ok s')
  | [], [], _, _, _, _ => Iff.rfl
  | p :: ps, c :: cs, s, s', hs, hlen => by
    simp only [matchComponents, Ty.matchList]
    cases hpiece : (p.matching c).bind s.merge with
    | ok s₁ =>
      have hordered : s₁.Ordered := ((Ty.adds_iff_merge hs).2 hpiece).ordered
      simp only [(Ty.merge_iff_matchInto hs).1 hpiece]
      exact matchComponents_iff hordered (by simpa using hlen)
    | error e =>
      cases hinto : Ty.matchInto s p c with
      | ok s₁ =>
        rw [(Ty.merge_iff_matchInto hs).2 hinto] at hpiece
        cases hpiece
      | error e' => simp

/-- Turns every pattern into the type beside it. -/
def Subst.Solves (s : Subst) (pairs : List (Ty × Ty)) : Prop := ∀ e ∈ pairs, s.apply e.1 = e.2

/-- Solves the pairs, and agrees on what it binds with every other substitution that does. -/
def Subst.LeastSolution (s : Subst) (pairs : List (Ty × Ty)) : Prop :=
  s.Solves pairs ∧ ∀ r : Subst, r.Solves pairs → s.Within r

namespace Ty

variable {ps cs ps' cs' : List Ty} {s : Subst}

theorem mem_varsList {x : String} : x ∈ varsList ps ↔ ∃ p ∈ ps, x ∈ p.vars := by
  induction ps with
  | nil => simp [varsList]
  | cons p ps ih => simp [varsList, ih]

theorem apply_tuple_iff (hlen : ps.length = cs.length) : s.apply (.tuple ps) = .tuple cs ↔ s.Solves (ps.zip cs) := by
  rw [Subst.apply, Ty.tuple.injEq]
  induction ps generalizing cs with
  | nil =>
    obtain rfl := List.length_eq_zero_iff.1 hlen.symm
    simp [Subst.applyList, Subst.Solves]
  | cons p ps ih =>
    obtain ⟨c, cs, rfl⟩ := List.exists_cons_of_length_eq_add_one hlen.symm
    simp only [Subst.applyList, List.cons.injEq, ih (by simpa using hlen)]
    simp [Subst.Solves]

theorem matching_tuple_iff (hlen : ps.length = cs.length) :
    (Ty.tuple ps).matching (.tuple cs) = .ok s ↔ s.Solves (ps.zip cs) ∧ s.names = (Ty.tuple ps).freeVars := by
  rw [matching_iff, apply_tuple_iff hlen]

/-- The pieces one by one, or all at once. -/
theorem matchComponents_iff_matching (hlen : ps.length = cs.length) :
    Morphism.matchComponents .empty ps cs = .ok s ↔ (Ty.tuple ps).matching (.tuple cs) = .ok s := by
  rw [Morphism.matchComponents_iff Subst.ordered_empty hlen, matching, matchInto, if_pos hlen]

theorem freeVars_perm (h : ps.Perm ps') : (Ty.tuple ps).freeVars = (Ty.tuple ps').freeVars := by
  refine (freeVars_ascending _).eq_of_mem_iff (freeVars_ascending _) fun x => ?_
  simp only [mem_freeVars, vars, mem_varsList, h.mem_iff]

/-- The order of the pieces does not matter. -/
theorem matching_perm (hlen : ps.length = cs.length) (hlen' : ps'.length = cs'.length)
    (h : (ps.zip cs).Perm (ps'.zip cs')) :
    (Ty.tuple ps).matching (.tuple cs) = .ok s ↔ (Ty.tuple ps').matching (.tuple cs') = .ok s := by
  have hps : ps.Perm ps' := by
    have hmap := h.map Prod.fst
    rwa [List.map_fst_zip hlen.le, List.map_fst_zip hlen'.le] at hmap
  rw [matching_tuple_iff hlen, matching_tuple_iff hlen', freeVars_perm hps]
  simp only [Subst.Solves, h.mem_iff]

theorem matching_least (hlen : ps.length = cs.length) (h : (Ty.tuple ps).matching (.tuple cs) = .ok s) :
    s.LeastSolution (ps.zip cs) := by
  refine ⟨((matching_tuple_iff hlen).1 h).1, fun r hr => ?_⟩
  obtain ⟨found, hfound, hwithin⟩ := matchInto_apply r (.tuple ps) r.empty_within
  rw [(apply_tuple_iff hlen).2 hr] at hfound
  cases h.symm.trans hfound
  exact hwithin

theorem exists_matching_iff (hlen : ps.length = cs.length) :
    (∃ s, (Ty.tuple ps).matching (.tuple cs) = .ok s) ↔ ∃ r : Subst, r.Solves (ps.zip cs) := by
  constructor
  · rintro ⟨s, hs⟩
    exact ⟨s, ((matching_tuple_iff hlen).1 hs).1⟩
  · rintro ⟨r, hr⟩
    obtain ⟨s, hs, -⟩ := matching_apply r (.tuple ps)
    exact ⟨s, (apply_tuple_iff hlen).2 hr ▸ hs⟩

end Ty

/-! ## Arguments -/

namespace Morphism

/-- Each bound parameter with the type of its argument. -/
def demands (base : Morphism) (bindings : List (Nat × Morphism)) : List (Ty × Ty) :=
  bindings.filterMap fun x => base.params[x.1]?.map fun param => (param, x.2.purified)

/-- The parameters that no argument is bound to. -/
def openParams (base : Morphism) (bindings : List (Nat × Morphism)) : List Ty :=
  (base.params.zipIdx.filter fun x => x.2 ∉ bindings.map (·.1)).map (·.1)

variable {base f : Morphism} {bindings : List (Nat × Morphism)} {s s' : Subst}

theorem matchBindings_iff : matchBindings base s bindings = .ok s' ↔
    matchComponents s ((demands base bindings).map (·.1)) ((demands base bindings).map (·.2)) = .ok s' := by
  induction bindings generalizing s with
  | nil => simp [matchBindings, demands, matchComponents]
  | cons x rest ih =>
    obtain ⟨i, arg⟩ := x
    unfold matchBindings
    cases hparam : base.params[i]? with
    | none => simp [demands, hparam, ih]
    | some param =>
      simp only [demands, List.filterMap_cons, hparam, Option.map_some, List.map_cons, matchComponents]
      cases (param.matching arg.purified).bind s.merge with
      | error e => simp
      | ok s₁ => exact ih

theorem matchBindings_iff_matching : matchBindings base .empty bindings = .ok s ↔
    (Ty.tuple ((demands base bindings).map (·.1))).matching (.tuple ((demands base bindings).map (·.2))) = .ok s := by
  rw [matchBindings_iff, Ty.matchComponents_iff_matching (by simp)]

theorem zip_demands : ((demands base bindings).map (·.1)).zip ((demands base bindings).map (·.2)) = demands base bindings := by
  rw [List.zip_map', List.map_id']

theorem openPositions_eq (base : Morphism) (bindings : List (Nat × Morphism)) :
    openPositions base bindings = (List.range base.arity).filter fun i => i ∉ bindings.map (·.1) := by
  refine List.filter_congr fun i _ => ?_
  rw [Bool.eq_iff_iff, Option.isNone_iff_eq_none, Assoc.get?_eq_none, decide_eq_true_iff]

theorem openPositions_eq_map (base : Morphism) (bindings : List (Nat × Morphism)) : openPositions base bindings =
    (base.params.zipIdx.filter fun x => x.2 ∉ bindings.map (·.1)).map Prod.snd := by
  have hrange : List.range base.arity = base.params.zipIdx.map Prod.snd := by
    rw [List.zipIdx_map_snd, arity, List.range_eq_range']
  rw [openPositions_eq, hrange, List.filter_map]
  rfl

/-- What is left open is specialised in order. -/
theorem filterMap_openPositions (s : Subst) :
    ((openPositions base bindings).filterMap fun i => base.params[i]?.map s.apply) = (openParams base bindings).map s.apply := by
  rw [openPositions_eq_map, List.filterMap_map, openParams, List.map_map]
  refine (List.filterMap_congr fun x hx => ?_).trans (congrFun List.filterMap_eq_map _)
  have hx : base.params[x.2]? = some x.1 := List.mem_zipIdx_iff_getElem?.1 (List.mem_filter.1 hx).1
  simp [hx]

theorem bindBase_iff : bindBase base bindings = .ok f ↔ ∃ s, matchBindings base .empty bindings = .ok s ∧
    f = .bound base bindings ((openParams base bindings).map s.apply) (s.apply base.result) := by
  constructor
  · intro h
    obtain ⟨s, hs, rfl⟩ := bindBase_ok h
    exact ⟨s, hs, by rw [filterMap_openPositions]⟩
  · rintro ⟨s, hs, rfl⟩
    simp [bindBase, hs, filterMap_openPositions]

/-- Arguments can be bound exactly if one substitution suits them all. -/
theorem exists_bindBase_iff : (∃ f, bindBase base bindings = .ok f) ↔ ∃ r : Subst, r.Solves (demands base bindings) := by
  have hlen : ((demands base bindings).map (·.1)).length = ((demands base bindings).map (·.2)).length := by simp
  have hmatching := Ty.exists_matching_iff hlen
  rw [zip_demands] at hmatching
  rw [← hmatching]
  constructor
  · rintro ⟨f, hf⟩
    obtain ⟨s, hs, -⟩ := bindBase_iff.1 hf
    exact ⟨s, matchBindings_iff_matching.1 hs⟩
  · rintro ⟨s, hs⟩
    exact ⟨_, bindBase_iff.2 ⟨s, matchBindings_iff_matching.2 hs, rfl⟩⟩

/-- What the arguments were matched with is the least substitution that suits them. -/
theorem matchBindings_least (h : matchBindings base .empty bindings = .ok s) : s.LeastSolution (demands base bindings) := by
  have hleast := Ty.matching_least (by simp) (matchBindings_iff_matching.1 h)
  rwa [zip_demands] at hleast

/-- It turns a bound parameter into the type of its argument. -/
theorem matchBindings_apply (h : matchBindings base .empty bindings = .ok s) {i : Nat} {arg : Morphism} {t : Ty}
    (hmem : (i, arg) ∈ bindings) (ht : base.params[i]? = some t) : s.apply t = arg.purified :=
  (matchBindings_least h).1 (t, arg.purified) (List.mem_filterMap.2 ⟨(i, arg), hmem, by simp [ht]⟩)

theorem bindBase_least (h : bindBase base bindings = .ok f) : ∃ s : Subst, s.LeastSolution (demands base bindings) ∧
    f = .bound base bindings ((openParams base bindings).map s.apply) (s.apply base.result) := by
  obtain ⟨s, hs, rfl⟩ := bindBase_iff.1 h
  exact ⟨s, matchBindings_least hs, rfl⟩

theorem spread?_iff {params : List Ty} {ty : Ty} :
    spread? params ty = some s ↔ 2 ≤ params.length ∧ (Ty.tuple params).matching ty = .ok s := by
  unfold spread?
  split
  · rename_i items
    split
    · rename_i hlen
      rw [← Ty.matchComponents_iff_matching hlen.2]
      cases matchComponents .empty params items <;> simp [Except.toOption, hlen.1]
    · rename_i hlen
      simp only [reduceCtorEq, false_iff, not_and]
      intro htwo hmatch
      rw [Ty.matching, Ty.matchInto, if_neg fun h => hlen ⟨htwo, h⟩] at hmatch
      cases hmatch
  · rename_i hnot
    simp only [reduceCtorEq, false_iff, not_and]
    intro _ hmatch
    rw [Ty.matching_iff, Subst.apply] at hmatch
    exact hnot _ hmatch.1.symm

end Morphism

/-! ## Piece by piece or at once -/

namespace Ty

open Morphism

/-- **Matching piece by piece is matching at once.** Patterns matched one by one, with the substitutions
merged from left to right, give what the tuple of the patterns gives, and so do the arguments of a partial
application; the order of the pieces does not matter. Hence arguments can be bound exactly if one
substitution turns every bound parameter into the type of its argument, and the least one specialises
the parameters that stay open and the result; and a tuple fills two parameters or more exactly if the tuple of the
parameters matches its type. -/
theorem matching_piecewise :
    (∀ ps cs : List Ty, ps.length = cs.length → ∀ s : Subst,
      matchComponents .empty ps cs = .ok s ↔ (Ty.tuple ps).matching (.tuple cs) = .ok s) ∧
    (∀ (base : Morphism) (bindings : List (Nat × Morphism)) (s : Subst), matchBindings base .empty bindings = .ok s ↔
      (Ty.tuple ((demands base bindings).map (·.1))).matching (.tuple ((demands base bindings).map (·.2))) = .ok s) ∧
    (∀ ps cs ps' cs' : List Ty, ps.length = cs.length → ps'.length = cs'.length →
      (ps.zip cs).Perm (ps'.zip cs') → ∀ s : Subst,
      (matchComponents .empty ps cs = .ok s ↔ matchComponents .empty ps' cs' = .ok s) ∧
        ((Ty.tuple ps).matching (.tuple cs) = .ok s ↔ (Ty.tuple ps').matching (.tuple cs') = .ok s)) ∧
    (∀ (base : Morphism) (bindings : List (Nat × Morphism)),
      ((∃ f, bindBase base bindings = .ok f) ↔ ∃ r : Subst, r.Solves (demands base bindings)) ∧
      ∀ f, bindBase base bindings = .ok f → ∃ s : Subst, s.LeastSolution (demands base bindings) ∧
        f = .bound base bindings ((openParams base bindings).map s.apply) (s.apply base.result)) ∧
    ∀ (params : List Ty) (ty : Ty) (s : Subst),
      spread? params ty = some s ↔ 2 ≤ params.length ∧ (Ty.tuple params).matching ty = .ok s := by
  refine ⟨fun ps cs hlen s => matchComponents_iff_matching hlen, fun base bindings s => matchBindings_iff_matching,
    fun ps cs ps' cs' hlen hlen' hperm s => ?_,
    fun base bindings => ⟨exists_bindBase_iff, fun f => bindBase_least⟩, fun params ty s => spread?_iff⟩
  rw [matchComponents_iff_matching hlen, matchComponents_iff_matching hlen']
  exact ⟨matching_perm hlen hlen' hperm, matching_perm hlen hlen' hperm⟩

/-- The patterns `a` and `a -> b` meet `b` and `b -> Int`, in either order; and `apply : (a -> b) -> a -> b`
bound to `even` takes an `Int` to a `Bool`. -/
theorem matching_piecewise_threaded :
    let ps : List Ty := [.var "a", .func (.var "a") (.var "b")]
    let cs : List Ty := [.var "b", .func (.var "b") .int]
    let s : Subst := ⟨[("a", .var "b"), ("b", .int)]⟩
    let apply : Morphism := .named "apply" [.func (.var "a") (.var "b"), .var "a"] (.var "b")
    let even : Morphism := .named "even" [.int] .bool
    (ps.length = cs.length ∧ (Ty.tuple ps).matching (.tuple cs) = .ok s ∧ matchComponents .empty ps cs = .ok s) ∧
    ((ps.zip cs).Perm (ps.reverse.zip cs.reverse) ∧ matchComponents .empty ps.reverse cs.reverse = .ok s) ∧
    apply.bindBase [(0, even)] = .ok (.bound apply [(0, even)] [.int] .bool) ∧
    ∃ r : Subst, r.LeastSolution [(.func (.var "a") (.var "b"), .func .int .bool)] := by
  intro ps cs s apply even
  obtain ⟨hpieces, -, hperm, hbind, -⟩ := matching_piecewise
  have hmatch : (Ty.tuple ps).matching (.tuple cs) = .ok s := by decide
  have hpiece : matchComponents .empty ps cs = .ok s := (hpieces ps cs rfl s).2 hmatch
  have hswap : (ps.zip cs).Perm (ps.reverse.zip cs.reverse) := .swap _ _ _
  have hbound : apply.bindBase [(0, even)] = .ok (.bound apply [(0, even)] [.int] .bool) := by rfl
  obtain ⟨r, hleast, -⟩ := (hbind apply [(0, even)]).2 _ hbound
  have hswapped := (hperm ps cs ps.reverse cs.reverse rfl rfl hswap s).1.1 hpiece
  exact ⟨⟨rfl, hmatch, hpiece⟩, ⟨hswap, hswapped⟩, hbound, r, hleast⟩

end Ty

end Dataflow
