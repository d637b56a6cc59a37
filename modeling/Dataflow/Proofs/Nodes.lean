import Dataflow.Plan.Walk
import Dataflow.Proofs.Consistent
import Dataflow.Proofs.Variables
import Mathlib.Data.List.Perm.Subperm

/-!
# What goes into a node and out of it

An arrow that is not positional brings its morphism applied to its source. The positional inputs of an
intersection fill every slot of its tuple once, so the table of its components, which is kept in the
order of the slots, has the input of slot `k` in place `k`. The pins of a node have labels that test the
variable of the node.
-/

namespace Dataflow

/-! ## Arrows -/

theorem Program.arrowExpr_matching {p : Program} {a : Arrow} {e : Expr} (h : p.arrowExpr a = .ok e) :
    ∃ out s, a.morphism.applyTo (nodeVar a.source) (p.node a.source).ty = .ok (e, out) ∧
      out.matching (p.node a.target).ty = .ok s := by
  unfold arrowExpr at h
  dsimp only at h
  split at h
  · cases h
  · rename_i expr out happly
    split at h
    · rename_i s hs
      cases h
      exact ⟨out, s, happly, hs⟩
    · cases h

theorem Program.arrowExpr_ok {p : Program} {a : Arrow} {e : Expr} (h : p.arrowExpr a = .ok e) :
    ∃ out, a.morphism.applyTo (nodeVar a.source) (p.node a.source).ty = .ok (e, out) := by
  obtain ⟨out, _, happly, _⟩ := arrowExpr_matching h
  exact ⟨out, happly⟩

/-! ## Every slot is filled once -/

theorem fillSlots_ok {ty : Ty} : ∀ {slots filled : List Nat} {k : Nat}, fillSlots ty filled slots = .ok k →
    filled.Nodup → (filled ++ slots).Nodup ∧ (∀ i ∈ slots, i < ty.components.length) ∧ k = (filled ++ slots).length
  | [], filled, k, h, hnodup => by
    cases h
    exact ⟨by simpa using hnodup, by simp, by simp⟩
  | slot :: rest, filled, k, h, hnodup => by
    unfold fillSlots at h
    split at h
    · cases h
    · rename_i hlt
      split at h
      · cases h
      · rename_i hnew
        have hnodup' : (filled ++ [slot]).Nodup :=
          List.nodup_append.2 ⟨hnodup, by simp, fun i hi j hj => by
            rw [List.mem_singleton.1 hj]
            exact fun hij => hnew (hij ▸ hi)⟩
        obtain ⟨hall, hbelow, hk⟩ := fillSlots_ok h hnodup'
        rw [List.append_assoc, List.singleton_append] at hall hk
        refine ⟨hall, fun i hi => ?_, hk⟩
        rcases List.mem_cons.1 hi with rfl | hi
        · omega
        · exact hbelow i hi

namespace Program

variable {p : Program} {n : Nat}

theorem isPositional_iff {a : Arrow} : a.isPositional = true ↔ ∃ k, a.morphism = .slot (some k) := by
  unfold Arrow.isPositional Morphism.isPositional
  split
  · rename_i k hk
    simp [hk]
  · rename_i hnone
    simpa using hnone

theorem mem_slots {k : Nat} : k ∈ p.slots (p.node n) ↔ ∃ a ∈ (p.node n).incoming, (p.arrow a).morphism = .slot (some k) := by
  unfold slots
  simp only [List.mem_filterMap]
  refine exists_congr fun a => and_congr_right fun _ => ?_
  cases (p.arrow a).morphism <;> simp [Morphism.slot?]

/-- The inputs of an intersection fill different slots, as many as its type has components. -/
theorem slots_filled (hp : p.Consistent) (hpos : ∃ a ∈ (p.node n).incoming, (p.arrow a).isPositional = true) :
    (p.slots (p.node n)).Nodup ∧ (∀ i ∈ p.slots (p.node n), i < (p.node n).ty.components.length) ∧
      (p.slots (p.node n)).length = (p.node n).incoming.length ∧
      (p.node n).incoming.length = (p.node n).ty.components.length := by
  obtain ⟨a, ha, hpos⟩ := hpos
  obtain ⟨k, hk⟩ := isPositional_iff.1 hpos
  have hne : (p.slots (p.node n)).isEmpty = false := by
    cases hslots : p.slots (p.node n) with
    | nil =>
      have hmem := mem_slots.2 ⟨a, ha, hk⟩
      rw [hslots] at hmem
      cases hmem
    | cons _ _ => rfl
  have hcheck := hp.slots n
  unfold checkNode at hcheck
  simp only [hne, Bool.false_eq_true, if_false] at hcheck
  split at hcheck
  · cases hcheck
  · rename_i hlen
    split at hcheck
    · cases hcheck
    · rename_i filled hfilled
      split at hcheck
      · cases hcheck
      · rename_i harity
        obtain ⟨hnodup, hbelow, hcount⟩ := fillSlots_ok hfilled List.nodup_nil
        simp only [List.nil_append] at hnodup hcount
        exact ⟨hnodup, hbelow, by omega, by omega⟩

/-- An intersection has only positional inputs, and their slots are all numbers below their count. -/
theorem slots_perm (hp : p.Consistent) (hpos : ∃ a ∈ (p.node n).incoming, (p.arrow a).isPositional = true) :
    (p.slots (p.node n)).Perm (List.range (p.node n).incoming.length) := by
  obtain ⟨hnodup, hbelow, hlen, hcount⟩ := slots_filled hp hpos
  have hsub : p.slots (p.node n) ⊆ List.range (p.node n).incoming.length := by
    intro i hi
    have := hbelow i hi
    rw [List.mem_range]
    omega
  exact (hnodup.subperm hsub).perm_of_length_le (by rw [List.length_range]; omega)

theorem all_positional (hp : p.Consistent) (hpos : ∃ a ∈ (p.node n).incoming, (p.arrow a).isPositional = true) :
    ∀ a ∈ (p.node n).incoming, (p.arrow a).isPositional = true := by
  have hlen := (slots_perm hp hpos).length_eq
  rw [List.length_range] at hlen
  intro a ha
  obtain ⟨k, hk⟩ := Option.isSome_iff_exists.1 (List.filterMap_length_eq_length.1 hlen a ha)
  refine isPositional_iff.2 ⟨k, ?_⟩
  cases hm : (p.arrow a).morphism <;> simp_all [Morphism.slot?]

/-! ## The table of components -/

/-- The components of an intersection are the variables of the sources, under the slots they fill. -/
theorem slotExprs_mem : ∀ {arrows : List Arrow} {slots out : List (Nat × Expr)}, p.slotExprs n slots arrows = .ok out →
    ∀ x ∈ out, x ∈ slots ∨ ∃ a ∈ arrows, a.morphism = .slot (some x.1) ∧ x.2 = .var (nodeVar a.source)
  | [], slots, out, h, x, hx => by
    cases h
    exact Or.inl hx
  | a :: rest, slots, out, h, x, hx => by
    unfold slotExprs at h
    split at h
    · rename_i slot hslot
      dsimp only at h
      split at h
      · rcases slotExprs_mem h x hx with hx | ⟨b, hb, hx⟩
        · rcases Assoc.mem_insert hx with rfl | hx
          · exact Or.inr ⟨a, by simp, hslot, rfl⟩
          · exact Or.inl hx
        · exact Or.inr ⟨b, by simp [hb], hx⟩
      · cases h
    · exact (slotExprs_mem h x hx).imp_right fun ⟨b, hb, hx⟩ => ⟨b, by simp [hb], hx⟩

/-- What fills a slot has a type that the component matches. -/
theorem slotExprs_matching : ∀ {arrows : List Arrow} {slots out : List (Nat × Expr)}, p.slotExprs n slots arrows = .ok out →
    ∀ a ∈ arrows, ∀ k, a.morphism = .slot (some k) →
      ∃ s, ((p.node n).ty.components.getD k .unit).matching (p.node a.source).ty = .ok s
  | a :: rest, slots, out, h, b, hb, k, hk => by
    unfold slotExprs at h
    split at h
    · rename_i slot hslot
      dsimp only at h
      split at h
      · rename_i s hs
        rcases List.mem_cons.1 hb with rfl | hb
        · rw [hslot] at hk
          cases hk
          exact ⟨s, hs⟩
        · exact slotExprs_matching h b hb k hk
      · cases h
    · rename_i hslot
      rcases List.mem_cons.1 hb with rfl | hb
      · exact absurd hk (hslot k)
      · exact slotExprs_matching h b hb k hk

/-- Every slot that an arrow fills is in the table, and the table stays in the order of the slots. -/
theorem slotExprs_keys : ∀ {arrows : List Arrow} {slots out : List (Nat × Expr)}, p.slotExprs n slots arrows = .ok out →
    (slots.map (·.1)).Pairwise (fun i j => compare i j = .lt) →
    (out.map (·.1)).Pairwise (fun i j => compare i j = .lt) ∧
      ∀ k, (k ∈ slots.map (·.1) ∨ ∃ a ∈ arrows, a.morphism = .slot (some k)) → k ∈ out.map (·.1)
  | [], slots, out, h, hasc => by
    cases h
    exact ⟨hasc, by simp⟩
  | a :: rest, slots, out, h, hasc => by
    unfold slotExprs at h
    split at h
    · rename_i slot hslot
      dsimp only at h
      split at h
      · obtain ⟨hout, hkeys⟩ := slotExprs_keys h (Assoc.insert_ascending hasc)
        refine ⟨hout, fun k hk => hkeys k ?_⟩
        rcases hk with hk | ⟨b, hb, hk⟩
        · exact Or.inl (Assoc.mem_keys_insert (Or.inr hk))
        · rcases List.mem_cons.1 hb with rfl | hb
          · rw [hslot] at hk
            cases hk
            exact Or.inl (Assoc.mem_keys_insert (Or.inl rfl))
          · exact Or.inr ⟨b, hb, hk⟩
      · cases h
    · rename_i hslot
      obtain ⟨hout, hkeys⟩ := slotExprs_keys h hasc
      refine ⟨hout, fun k hk => hkeys k (hk.imp_right ?_)⟩
      rintro ⟨b, hb, hfills⟩
      rcases List.mem_cons.1 hb with rfl | hb
      · exact absurd hfills (hslot k)
      · exact ⟨b, hb, hfills⟩

/-- Place `k` of the table has the source of the arrow that fills slot `k`. -/
theorem slotExprs_place (hp : p.Consistent) (hpos : ∃ a ∈ (p.node n).incoming, (p.arrow a).isPositional = true)
    {arrivals : List Nat} (hperm : arrivals.Perm (p.node n).incoming) {out : List (Nat × Expr)}
    (h : p.slotExprs n [] (arrivals.map p.arrow) = .ok out) :
    out.length = (p.node n).incoming.length ∧ ∀ (k : Nat) (e : Expr), (out.map (·.2))[k]? = some e →
      ∃ a ∈ (p.node n).incoming, (p.arrow a).morphism = .slot (some k) ∧ e = .var (nodeVar (p.arrow a).source) := by
  have hfrom : ∀ x ∈ out, ∃ a ∈ (p.node n).incoming, (p.arrow a).morphism = .slot (some x.1) ∧
      x.2 = .var (nodeVar (p.arrow a).source) := by
    intro x hx
    rcases slotExprs_mem h x hx with hx | ⟨_, harrow, hx⟩
    · cases hx
    · obtain ⟨a, ha, rfl⟩ := List.mem_map.1 harrow
      exact ⟨a, hperm.subset ha, hx⟩
  have hslots := slots_perm hp hpos
  obtain ⟨hasc, hkeys⟩ := slotExprs_keys h List.Pairwise.nil
  have hlt : (out.map (·.1)).Pairwise (· < ·) := hasc.imp Nat.compare_eq_lt.1
  -- both lists are in ascending order and have the same members
  have heq : out.map (·.1) = List.range (p.node n).incoming.length := by
    have hmem : ∀ k, k ∈ out.map (·.1) ↔ k ∈ List.range (p.node n).incoming.length := by
      intro k
      rw [← hslots.mem_iff, mem_slots]
      constructor
      · intro hk
        obtain ⟨x, hx, rfl⟩ := List.mem_map.1 hk
        obtain ⟨a, ha, hslot, _⟩ := hfrom x hx
        exact ⟨a, ha, hslot⟩
      · rintro ⟨a, ha, hslot⟩
        exact hkeys k (Or.inr ⟨p.arrow a, List.mem_map_of_mem (hperm.symm.subset ha), hslot⟩)
    refine List.Perm.eq_of_pairwise (fun i j _ _ hij hji => absurd hij (Nat.lt_asymm hji)) hlt List.pairwise_lt_range ?_
    exact (List.perm_ext_iff_of_nodup (hlt.imp Nat.ne_of_lt) List.nodup_range).2 hmem
  have hlen : out.length = (p.node n).incoming.length := by
    simpa only [List.length_map, List.length_range] using congrArg List.length heq
  refine ⟨hlen, fun k e hk => ?_⟩
  rw [List.getElem?_map] at hk
  obtain ⟨x, hx, rfl⟩ := Option.map_eq_some_iff.1 hk
  have hk' : (List.range (p.node n).incoming.length)[k]? = some x.1 := by
    rw [← heq, List.getElem?_map, hx]
    rfl
  obtain ⟨_, rfl⟩ : k < (p.node n).incoming.length ∧ k = x.1 := by
    simpa [List.getElem?_eq_some_iff] using hk'
  exact hfrom x (List.mem_of_getElem? hx)

end Program

/-! ## Labels -/

/-- What the label of a branch is made of. -/
inductive Brancher.Labelled (n : Nat) (ty : Ty) : Brancher → BranchLabel → Prop where
  | any : Labelled n ty .any .otherwise
  | pattern (pat : Pattern) : Labelled n ty (.pattern pat) (.pattern (nodeVar n) pat ty)
  | guard (test : Morphism) (e : Expr) (out : Ty) (happly : test.applyTo (nodeVar n) ty = .ok (e, out)) :
      Labelled n ty (.guard test) (.guard e)

theorem Brancher.label_ok {n : Nat} {ty : Ty} {b : Brancher} {label : BranchLabel} (h : b.label n ty = .ok label) :
    b.Labelled n ty label := by
  unfold Brancher.label at h
  split at h
  · cases h
    exact .any
  · split at h
    · cases h
      exact .pattern _
    · cases h
  · split at h
    · cases h
    · rename_i expr out happly
      split at h
      · cases h
        exact .guard _ expr out happly
      · cases h

/-- The labels of a node are those of its pins, in their order. -/
theorem pinLabels_ok {n : Nat} {ty : Ty} : ∀ {pins : List Pin} {k : Nat} {labels : List BranchLabel},
    pinLabels n ty k pins = .ok labels → List.Forall₂ (fun pin label => pin.brancher.Labelled n ty label) pins labels
  | [], _, _, h => by
    cases h
    exact .nil
  | pin :: pins, k, labels, h => by
    simp only [pinLabels] at h
    split at h
    · cases h
    · obtain ⟨label, hlabel, h⟩ := Except.bind_ok.1 h
      obtain ⟨rest, hrest, h⟩ := Except.bind_ok.1 h
      cases h
      exact .cons (Brancher.label_ok hlabel) (pinLabels_ok hrest)

end Dataflow
