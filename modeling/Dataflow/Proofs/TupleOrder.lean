import Dataflow.Morphism.Build
import Dataflow.Proofs.Consistent
import Dataflow.Proofs.Instances

/-!
# The order of the parts of a tuple

The parts of a tuple that take an input share it. Its type is chosen by position, the first ground
source or else the first source, and every part has to accept it. Where a source is ground the order of the
parts does not matter. Otherwise the first source has to be an instance of all the others, so a tuple
whose sources have such an instance among them is built in some orders of its parts and refused in others
(`Morphism.ofParts_order`, `Morphism.ofParts_order_matters`).
-/

namespace Dataflow

/-! ## Instances -/

namespace Ty

/-- Some substitution turns `p` into `c`. -/
def Accepts (p c : Ty) : Prop := ∃ r : Subst, r.apply p = c

theorem accepts_iff {p c : Ty} : p.Accepts c ↔ ∃ s, p.matching c = .ok s := by
  constructor
  · rintro ⟨r, rfl⟩
    obtain ⟨s, hs, -⟩ := matching_apply r p
    exact ⟨s, hs⟩
  · rintro ⟨s, hs⟩
    exact ⟨s, matching_ok hs⟩

mutual

theorem apply_of_vars_eq_nil (r : Subst) : ∀ {t : Ty}, t.vars = [] → r.apply t = t
  | .atom _, _ => rfl
  | .var _, h => by cases h
  | .tuple _, h => congrArg tuple (applyList_of_vars_eq_nil r h)
  | .con name _, h => congrArg (con name) (applyList_of_vars_eq_nil r h)
  | .func a b, h => by
    obtain ⟨ha, hb⟩ := List.append_eq_nil_iff.1 h
    rw [Subst.apply, apply_of_vars_eq_nil r ha, apply_of_vars_eq_nil r hb]

theorem applyList_of_vars_eq_nil (r : Subst) : ∀ {ts : List Ty}, varsList ts = [] → r.applyList ts = ts
  | [], _ => rfl
  | t :: ts, h => by
    obtain ⟨ht, hts⟩ := List.append_eq_nil_iff.1 h
    rw [Subst.applyList, apply_of_vars_eq_nil r ht, applyList_of_vars_eq_nil r hts]

end

/-- A ground type accepts itself only. -/
theorem Accepts.eq_of_isGround {p c : Ty} (h : p.Accepts c) (hground : p.isGround = true) : c = p := by
  obtain ⟨r, rfl⟩ := h
  exact apply_of_vars_eq_nil r (List.isEmpty_iff.1 hground)

end Ty

namespace Morphism

variable {parts parts' : List Morphism} {c : Ty}

/-- The sources of the parts that take an input. -/
def inputs (parts : List Morphism) : List Ty := (parts.filter fun part => 0 < part.arity).map source

/-- Every part that takes an input can be fed one of this type. -/
def Common (parts : List Morphism) (c : Ty) : Prop := ∀ s ∈ inputs parts, s.Accepts c

/-- The parts make a tuple. -/
def Builds (parts : List Morphism) : Prop := ∃ m, ofParts parts = .ok m

/-! ## What is asked of the parts -/

/-- A part without parameters asks for nothing, any other one for an instance of its source. -/
theorem exists_componentTypes_cons {part : Morphism} :
    (∃ types, componentTypes c (part :: parts) = .ok types) ↔
      (0 < part.arity → part.source.Accepts c) ∧ ∃ types, componentTypes c parts = .ok types := by
  have hcons : ∀ x : Except BindError Ty, (∃ types, (do
      let ty ← x
      let rest ← componentTypes c parts
      pure (ty :: rest)) = .ok types) ↔ (∃ ty, x = .ok ty) ∧ ∃ types, componentTypes c parts = .ok types := by
    intro x
    constructor
    · rintro ⟨types, h⟩
      obtain ⟨ty, hty, h⟩ := Except.bind_ok.1 h
      obtain ⟨rest, hrest, -⟩ := Except.bind_ok.1 h
      exact ⟨⟨ty, hty⟩, rest, hrest⟩
    · rintro ⟨⟨ty, hty⟩, rest, hrest⟩
      exact ⟨ty :: rest, Except.bind_ok.2 ⟨ty, hty, Except.bind_ok.2 ⟨rest, hrest, rfl⟩⟩⟩
  rw [componentTypes]
  by_cases hzero : part.arity = 0
  · rw [if_pos hzero]
    refine (hcons (.ok part.result)).trans (and_congr_left fun _ => ?_)
    exact iff_of_true ⟨part.result, rfl⟩ fun hpos => absurd hzero (Nat.ne_of_gt hpos)
  · rw [if_neg hzero, Ty.accepts_iff]
    simp only [Nat.pos_of_ne_zero hzero, true_imp_iff]
    cases part.source.matching c with
    | error e =>
      refine (hcons (.error (.tupleSource part.render e))).trans (and_congr_left fun _ => ?_)
      simp
    | ok s =>
      refine (hcons (.ok (s.apply part.target))).trans (and_congr_left fun _ => ?_)
      simp

theorem exists_componentTypes_iff :
    (∃ types, componentTypes c parts = .ok types) ↔ Common parts c := by
  induction parts with
  | nil => simp [componentTypes, Common, inputs]
  | cons part parts ih =>
    rw [exists_componentTypes_cons, ih]
    by_cases hpos : 0 < part.arity <;> simp [Common, inputs, hpos]

/-- The tuple is built if every part accepts the source that was chosen. -/
theorem builds_iff : Builds parts ↔ ∀ source ∈ sharedSource parts, Common parts source := by
  unfold Builds ofParts
  cases hshared : sharedSource parts with
  | none => simp
  | some source =>
    simp only [Option.mem_def, Option.some.injEq, forall_eq', ← exists_componentTypes_iff]
    constructor
    · rintro ⟨m, hm⟩
      obtain ⟨types, htypes, -⟩ := Except.bind_ok.1 hm
      exact ⟨types, htypes⟩
    · rintro ⟨types, htypes⟩
      exact ⟨_, Except.bind_ok.2 ⟨types, htypes, rfl⟩⟩

theorem sharedSource_eq (parts : List Morphism) :
    sharedSource parts = ((inputs parts).find? Ty.isGround).or (inputs parts).head? := rfl

theorem mem_inputs_of_sharedSource (h : sharedSource parts = some c) : c ∈ inputs parts := by
  rw [sharedSource_eq, Option.or_eq_some_iff] at h
  rcases h with h | ⟨-, h⟩
  · exact List.mem_of_find?_eq_some h
  · exact List.mem_of_mem_head? h

/-- The source that was chosen suits all parts of a tuple. -/
theorem Builds.exists_common (h : Builds parts) : inputs parts = [] ∨ ∃ c ∈ inputs parts, Common parts c := by
  cases hshared : sharedSource parts with
  | none =>
    rw [sharedSource_eq, Option.or_eq_none_iff, List.head?_eq_none_iff] at hshared
    exact Or.inl hshared.2
  | some c => exact Or.inr ⟨c, mem_inputs_of_sharedSource hshared, builds_iff.1 h c hshared⟩

theorem builds_of_common (h : ∀ c ∈ inputs parts, Common parts c) : Builds parts :=
  builds_iff.2 fun c hc => h c (mem_inputs_of_sharedSource hc)

/-- A ground source is chosen wherever it stands, and nothing else can suit its own part. -/
theorem builds_iff_of_ground (hground : ∃ s ∈ inputs parts, s.isGround = true) :
    Builds parts ↔ ∃ c ∈ inputs parts, Common parts c := by
  constructor
  · intro h
    obtain ⟨s, hs, -⟩ := hground
    exact h.exists_common.resolve_left (List.ne_nil_of_mem hs)
  · rintro ⟨c, -, hcommon⟩
    obtain ⟨g, hfind⟩ : ∃ g, (inputs parts).find? Ty.isGround = some g := by
      simpa only [← Option.isSome_iff_exists, List.find?_isSome] using hground
    obtain rfl := (hcommon g (List.mem_of_find?_eq_some hfind)).eq_of_isGround (List.find?_some hfind)
    rw [builds_iff, sharedSource_eq, hfind]
    rintro _ ⟨⟩
    exact hcommon

/-- Without a ground source the first one is chosen. -/
theorem builds_iff_of_not_ground (hground : ¬ ∃ s ∈ inputs parts, s.isGround = true) :
    Builds parts ↔ ∀ source ∈ (inputs parts).head?, Common parts source := by
  have hnone : (inputs parts).find? Ty.isGround = none := by
    simpa [List.find?_eq_none] using hground
  rw [builds_iff, sharedSource_eq, hnone, Option.none_or]

/-! ## Other orders -/

theorem inputs_perm (h : parts'.Perm parts) : (inputs parts').Perm (inputs parts) := (h.filter _).map _

theorem common_perm (h : parts'.Perm parts) : Common parts' c ↔ Common parts c :=
  forall_congr' fun _ => imp_congr_left (inputs_perm h).mem_iff

theorem ground_perm (h : parts'.Perm parts) :
    (∃ s ∈ inputs parts', s.isGround = true) ↔ ∃ s ∈ inputs parts, s.isGround = true :=
  exists_congr fun _ => and_congr_left fun _ => (inputs_perm h).mem_iff

theorem builds_perm_of_ground (hground : ∃ s ∈ inputs parts, s.isGround = true) (hperm : parts'.Perm parts) :
    Builds parts' ↔ Builds parts := by
  rw [builds_iff_of_ground hground, builds_iff_of_ground ((ground_perm hperm).2 hground)]
  simp only [common_perm hperm, (inputs_perm hperm).mem_iff]

/-- If no source is ground, every source is the chosen one in some order of the parts. -/
theorem exists_perm_builds_iff (hground : ¬ ∃ s ∈ inputs parts, s.isGround = true) (hc : c ∈ inputs parts) :
    ∃ parts', parts'.Perm parts ∧ (Builds parts' ↔ Common parts c) := by
  obtain ⟨part, hpart, rfl⟩ := List.mem_map.1 hc
  obtain ⟨hmem, harity⟩ := List.mem_filter.1 hpart
  obtain ⟨before, behind, rfl⟩ := List.append_of_mem hmem
  have hperm : (part :: (before ++ behind)).Perm (before ++ part :: behind) := List.perm_middle.symm
  have hhead : (inputs (part :: (before ++ behind))).head? = some part.source := by
    simp only [inputs, List.filter_cons, harity, if_true, List.map_cons, List.head?_cons]
  refine ⟨_, hperm, ?_⟩
  rw [builds_iff_of_not_ground (mt (ground_perm hperm).1 hground), hhead]
  simp only [Option.mem_def, Option.some.injEq, forall_eq', common_perm hperm]

theorem exists_builds_of_common (hc : c ∈ inputs parts) (hcommon : Common parts c) :
    ∃ parts', parts'.Perm parts ∧ Builds parts' := by
  by_cases hground : ∃ s ∈ inputs parts, s.isGround = true
  · exact ⟨parts, .refl parts, (builds_iff_of_ground hground).2 ⟨c, hc, hcommon⟩⟩
  · obtain ⟨parts', hperm, hiff⟩ := exists_perm_builds_iff hground hc
    exact ⟨parts', hperm, hiff.2 hcommon⟩

/-- If one source suits all parts only where each of them does, one order is built only where each is. -/
theorem Builds.perm (h : ∀ c ∈ inputs parts, ∀ c' ∈ inputs parts, Common parts c → Common parts c')
    (hbuilds : Builds parts) (hperm : parts'.Perm parts) : Builds parts' := by
  refine builds_of_common fun c' hc' => ?_
  have hc' := (inputs_perm hperm).mem_iff.1 hc'
  obtain ⟨c, hc, hcommon⟩ := hbuilds.exists_common.resolve_left (List.ne_nil_of_mem hc')
  exact (common_perm hperm).2 (h c hc c' hc' hcommon)

/-- **When the order of the parts matters.** Some order of the parts is built exactly if one of the
sources suits all parts. All orders are built or none is exactly if a source is ground, or if every source
suits all parts as soon as one of them does. -/
theorem ofParts_order (parts : List Morphism) :
    ((∃ parts', parts'.Perm parts ∧ Builds parts') ↔ inputs parts = [] ∨ ∃ c ∈ inputs parts, Common parts c) ∧
    ((∀ parts', parts'.Perm parts → (Builds parts' ↔ Builds parts)) ↔
      (∃ s ∈ inputs parts, s.isGround = true) ∨
        ∀ c ∈ inputs parts, ∀ c' ∈ inputs parts, Common parts c → Common parts c') := by
  refine ⟨⟨?_, ?_⟩, ⟨fun hsame => ?_, ?_⟩⟩
  · rintro ⟨parts', hperm, hbuilds⟩
    refine hbuilds.exists_common.imp (fun hnil => ?_) fun ⟨c, hc, hcommon⟩ => ?_
    · exact List.nil_perm.1 (hnil ▸ inputs_perm hperm)
    · exact ⟨c, (inputs_perm hperm).mem_iff.1 hc, (common_perm hperm).1 hcommon⟩
  · rintro (hnil | ⟨c, hc, hcommon⟩)
    · exact ⟨parts, .refl parts, builds_of_common (by simp [hnil])⟩
    · exact exists_builds_of_common hc hcommon
  · refine or_iff_not_imp_left.2 fun hground c hc c' hc' hcommon => ?_
    obtain ⟨one, hone, hbuildsOne⟩ := exists_perm_builds_iff hground hc
    obtain ⟨other, hother, hbuildsOther⟩ := exists_perm_builds_iff hground hc'
    have hbuilds := (hsame one hone).1 (hbuildsOne.2 hcommon)
    exact hbuildsOther.1 ((hsame other hother).2 hbuilds)
  · rintro (hground | hconstant) parts' hperm
    · exact builds_perm_of_ground hground hperm
    · refine ⟨fun hbuilds => ?_, fun hbuilds => hbuilds.perm hconstant hperm⟩
      refine hbuilds.perm (fun c hc c' hc' => ?_) hperm.symm
      rw [common_perm hperm, common_perm hperm]
      exact hconstant c ((inputs_perm hperm).mem_iff.1 hc) c' ((inputs_perm hperm).mem_iff.1 hc')

/-- The first component of a pair beside the pair itself: the tuple is built if the component stands first
and refused if the pair does, though both parts accept every pair. -/
theorem ofParts_order_matters :
    let pair : Ty := .tuple [.var "a", .var "b"]
    let component := ofFunction "fst" (.func pair (.var "a"))
    let whole : Morphism := .slot none
    [whole, component].Perm [component, whole] ∧
    ofParts [component, whole] =
      .ok (.tuple [component, whole] [pair] (.tuple [.var "a", pair])) ∧
    ofParts [whole, component] = .error (.tupleSource "fst" (.mismatch pair (.var "a"))) := by
  intro pair component whole
  exact ⟨.swap _ _ _, rfl, rfl⟩

end Morphism

end Dataflow
