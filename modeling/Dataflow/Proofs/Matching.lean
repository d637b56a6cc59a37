import Dataflow.Proofs.Variables
import Dataflow.Ty.Subst

/-!
# Matching finds substitutions

When a pattern matches a type, the substitution that comes out turns the pattern into that type
(`Ty.matching_ok`), and so does every substitution that extends it. Substitutions are finite tables;
`Ty.inst` puts a type for every variable at once, and the two are composed by `Ty.inst_apply`.
-/

namespace Dataflow

namespace Ty

mutual

/-- The type with types in place of all its variables. -/
def inst (ρ : String → Ty) : Ty → Ty
  | .atom a => .atom a
  | .var x => ρ x
  | .tuple ts => .tuple (instList ρ ts)
  | .con name ts => .con name (instList ρ ts)
  | .func a b => .func (inst ρ a) (inst ρ b)
termination_by structural t => t

def instList (ρ : String → Ty) : List Ty → List Ty
  | [] => []
  | t :: ts => inst ρ t :: instList ρ ts
termination_by structural ts => ts

end

variable {ρ : String → Ty}

theorem instList_eq_map (ts : List Ty) : instList ρ ts = ts.map (inst ρ) := by
  induction ts with
  | nil => rfl
  | cons t ts ih => simp [instList, ih]

mutual

theorem inst_var : ∀ t : Ty, t.inst .var = t
  | .atom _ | .var _ => rfl
  | .tuple ts => congrArg tuple (instList_var ts)
  | .con name ts => congrArg (con name) (instList_var ts)
  | .func a b => by rw [inst, inst_var a, inst_var b]

theorem instList_var : ∀ ts : List Ty, instList .var ts = ts
  | [] => rfl
  | t :: ts => by rw [instList, inst_var t, instList_var ts]

end

mutual

/-- A substitution is carried out first, and what it leaves is put in afterwards. -/
theorem inst_apply (s : Subst) : ∀ t : Ty,
    (s.apply t).inst ρ = t.inst fun x => ((s.get? x).getD (.var x)).inst ρ
  | .atom _ | .var _ => rfl
  | .tuple ts => congrArg tuple (instList_applyList s ts)
  | .con name ts => congrArg (con name) (instList_applyList s ts)
  | .func a b => by rw [Subst.apply, inst, inst, inst_apply s a, inst_apply s b]

theorem instList_applyList (s : Subst) : ∀ ts : List Ty,
    instList ρ (s.applyList ts) = instList (fun x => ((s.get? x).getD (.var x)).inst ρ) ts
  | [] => rfl
  | t :: ts => by rw [Subst.applyList, instList, instList, inst_apply s t, instList_applyList s ts]

end

end Ty

/-! ## Substitutions that extend each other -/

namespace Subst

/-- Every type that is recorded stays recorded. -/
def Extends (s' s : Subst) : Prop := ∀ x t, s.get? x = some t → s'.get? x = some t

theorem Extends.refl (s : Subst) : s.Extends s := fun _ _ h => h

theorem Extends.trans {s₁ s₂ s₃ : Subst} (h₂ : s₃.Extends s₂) (h₁ : s₂.Extends s₁) : s₃.Extends s₁ :=
  fun x t h => h₂ x t (h₁ x t h)

theorem bind_ok {s s' : Subst} {x : String} {t : Ty} (h : s.bind x t = .ok s') :
    s'.Extends s ∧ s'.get? x = some t := by
  unfold bind at h
  split at h
  · rename_i hnew
    cases h
    constructor
    · intro y u hy
      have hne : y ≠ x := by
        rintro rfl
        rw [hnew] at hy
        cases hy
      simpa [get?, Assoc.get?_insert, hne] using hy
    · simp [get?, Assoc.get?_insert]
  · rename_i bound hbound
    split at h
    · rename_i heq
      cases h
      exact ⟨.refl s, heq ▸ hbound⟩
    · cases h

theorem bindAll_ok : ∀ {entries : List (String × Ty)} {s s' : Subst}, s.bindAll entries = .ok s' →
    s'.Extends s ∧ ∀ x t, (x, t) ∈ entries → s'.get? x = some t
  | [], s, s', h => by
    cases h
    exact ⟨.refl s, by simp⟩
  | (x, t) :: rest, s, s', h => by
    simp only [bindAll] at h
    split at h
    · rename_i s₁ hs₁
      obtain ⟨hext₁, hx⟩ := bind_ok hs₁
      obtain ⟨hext, hrest⟩ := bindAll_ok h
      refine ⟨hext.trans hext₁, fun y u hmem => ?_⟩
      rcases List.mem_cons.1 hmem with heq | hmem
      · cases heq
        exact hext x t hx
      · exact hrest y u hmem
    · cases h

theorem merge_ok {s other s' : Subst} (h : s.merge other = .ok s') : s'.Extends s ∧ s'.Extends other := by
  obtain ⟨hext, hall⟩ := bindAll_ok h
  exact ⟨hext, fun x t hx => hall x t (Assoc.get?_mem hx)⟩

end Subst

/-! ## Matching -/

namespace Ty

mutual

theorem matchInto_ok : ∀ {p c : Ty} {s s' : Subst}, matchInto s p c = .ok s' →
    s'.Extends s ∧ ∀ s'' : Subst, s''.Extends s' → s''.apply p = c
  | .var x, c, s, s', h => by
    obtain ⟨hext, hx⟩ := Subst.bind_ok h
    refine ⟨hext, fun s'' hs'' => ?_⟩
    rw [Subst.apply, hs'' x c hx, Option.getD_some]
  | .atom a, c, s, s', h => by
    simp only [matchInto] at h
    split at h
    · rename_i heq
      cases h
      exact ⟨.refl s, fun _ _ => heq.symm⟩
    · cases h
  | .tuple ps, c, s, s', h => by
    simp only [matchInto] at h
    split at h
    · split at h
      · rename_i cs hlen
        obtain ⟨hext, happly⟩ := matchList_ok hlen h
        exact ⟨hext, fun s'' hs'' => congrArg tuple (happly s'' hs'')⟩
      · cases h
    · cases h
  | .con n ps, c, s, s', h => by
    simp only [matchInto] at h
    split at h
    · split at h
      · rename_i cs hsame
        obtain ⟨rfl, hlen⟩ := hsame
        obtain ⟨hext, happly⟩ := matchList_ok hlen h
        exact ⟨hext, fun s'' hs'' => congrArg (con n) (happly s'' hs'')⟩
      · cases h
    · cases h
  | .func p q, c, s, s', h => by
    simp only [matchInto] at h
    split at h
    · split at h
      · rename_i s₁ hs₁
        obtain ⟨hext₁, harg⟩ := matchInto_ok hs₁
        obtain ⟨hext, hresult⟩ := matchInto_ok h
        refine ⟨hext.trans hext₁, fun s'' hs'' => ?_⟩
        rw [Subst.apply, harg s'' (hs''.trans hext), hresult s'' hs'']
      · cases h
    · cases h

theorem matchList_ok : ∀ {ps cs : List Ty} {s s' : Subst}, ps.length = cs.length → matchList s ps cs = .ok s' →
    s'.Extends s ∧ ∀ s'' : Subst, s''.Extends s' → s''.applyList ps = cs
  | [], [], s, s', _, h => by
    cases h
    exact ⟨.refl s, fun _ _ => rfl⟩
  | p :: ps, c :: cs, s, s', hlen, h => by
    simp only [matchList] at h
    split at h
    · rename_i s₁ hs₁
      obtain ⟨hext₁, hp⟩ := matchInto_ok hs₁
      obtain ⟨hext, hps⟩ := matchList_ok (by simpa using hlen) h
      refine ⟨hext.trans hext₁, fun s'' hs'' => ?_⟩
      rw [Subst.applyList, hp s'' (hs''.trans hext), hps s'' hs'']
    · cases h

end

/-- A substitution that matching gives turns the pattern into the type. -/
theorem matching_ok {p c : Ty} {s : Subst} (h : p.matching c = .ok s) : s.apply p = c :=
  (matchInto_ok h).2 s (.refl s)

/-- Matching on top of a substitution, as arguments are matched one after the other. -/
theorem matching_merge_ok {p c : Ty} {s s' : Subst} (h : (p.matching c).bind s.merge = .ok s') :
    s'.Extends s ∧ ∀ s'' : Subst, s''.Extends s' → s''.apply p = c := by
  cases hm : p.matching c with
  | error e =>
    rw [hm] at h
    cases h
  | ok found =>
    rw [hm] at h
    obtain ⟨hext, hfound⟩ := Subst.merge_ok h
    exact ⟨hext, fun s'' hs'' => (matchInto_ok hm).2 s'' (hs''.trans hfound)⟩

end Ty

end Dataflow
