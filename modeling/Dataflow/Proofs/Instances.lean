import Dataflow.Proofs.Matching
import Mathlib.Data.List.Sort

/-!
# Matching decides instances

A type is an instance of a pattern if some substitution turns the pattern into it. Matching succeeds on
exactly the instances (`Ty.matching_exact`): the substitution that it finds binds the variables of the
pattern and no others, and every substitution that makes the instance gives these variables the same
types. Variables of the instance are never bound.
-/

namespace Dataflow

/-! ## Names in order -/

namespace Ty

theorem mem_insertName {x y : String} {ys : List String} : x ∈ insertName y ys ↔ x = y ∨ x ∈ ys := by
  induction ys with
  | nil => simp [insertName]
  | cons z zs ih =>
    unfold insertName
    split
    · simp
    · split
      · rename_i heq
        simp [heq]
      · simp only [List.mem_cons, ih]
        tauto

theorem insertName_ascending {x : String} {ys : List String} (h : ys.Pairwise (· < ·)) :
    (insertName x ys).Pairwise (· < ·) := by
  induction ys with
  | nil => simp [insertName]
  | cons y ys ih =>
    have hrest := List.pairwise_cons.1 h
    unfold insertName
    split
    · rename_i hlt
      refine List.pairwise_cons.2 ⟨fun z hz => ?_, h⟩
      rcases List.mem_cons.1 hz with rfl | hz
      · exact hlt
      · exact String.lt_trans hlt (hrest.1 z hz)
    · split
      · exact h
      · rename_i hnot hne
        refine List.pairwise_cons.2 ⟨fun z hz => ?_, ih hrest.2⟩
        rcases mem_insertName.1 hz with rfl | hz
        · by_contra hle
          exact hne (String.le_antisymm (String.not_lt.1 hle) (String.not_lt.1 hnot))
        · exact hrest.1 z hz

theorem mem_freeVars {x : String} {t : Ty} : x ∈ t.freeVars ↔ x ∈ t.vars := by
  unfold freeVars
  induction t.vars with
  | nil => rfl
  | cons y ys ih => simp [mem_insertName, ih]

theorem freeVars_ascending (t : Ty) : t.freeVars.Pairwise (· < ·) := by
  unfold freeVars
  induction t.vars with
  | nil => exact .nil
  | cons y ys ih => exact insertName_ascending ih

end Ty

/-! ## What a substitution binds -/

namespace Subst

/-- The variables that a substitution binds. -/
def names (s : Subst) : List String := s.entries.map (·.1)

theorem exists_get? {s : Subst} {x : String} (h : x ∈ s.names) : ∃ t, s.get? x = some t := Assoc.exists_get? h

/-- Recording a type binds its variable, keeps the other ones and keeps them in order. -/
theorem bind_names {s s' : Subst} {x : String} {t : Ty} (h : s.bind x t = .ok s') :
    (∀ y, y ∈ s'.names ↔ y = x ∨ y ∈ s.names) ∧ (s.names.Pairwise (· < ·) → s'.names.Pairwise (· < ·)) := by
  have hlt : ∀ a b : String, compare a b = .lt ↔ a < b := fun _ _ => compareOfLessAndEq_eq_lt
  unfold bind at h
  split at h
  · cases h
    refine ⟨fun y => ⟨fun hy => ?_, Assoc.mem_keys_insert⟩, fun hs => ?_⟩
    · obtain ⟨entry, hentry, rfl⟩ := List.mem_map.1 hy
      rcases Assoc.mem_insert hentry with rfl | hentry
      · exact Or.inl rfl
      · exact Or.inr (List.mem_map_of_mem hentry)
    · exact (Assoc.insert_ascending (hs.imp (hlt _ _).2)).imp (hlt _ _).1
  · rename_i bound hbound
    split at h
    · cases h
      refine ⟨fun y => ⟨Or.inr, ?_⟩, id⟩
      rintro (rfl | hy)
      · exact List.mem_map_of_mem (Assoc.get?_mem hbound)
      · exact hy
    · cases h

/-- Every type that is recorded is the one that `r` puts in place of its variable. -/
def Within (s r : Subst) : Prop := ∀ x t, s.get? x = some t → r.apply (.var x) = t

theorem empty_within (r : Subst) : empty.Within r := fun _ _ h => by cases h

theorem Within.bind {s r : Subst} (h : s.Within r) (x : String) :
    ∃ s', s.bind x (r.apply (.var x)) = .ok s' ∧ s'.Within r := by
  unfold Subst.bind
  split
  · refine ⟨_, rfl, fun y u hy => ?_⟩
    rw [get?, Assoc.get?_insert] at hy
    split at hy
    · rename_i hyx
      cases hy
      rw [hyx]
    · exact h y u hy
  · rename_i bound hbound
    rw [if_pos (h x bound hbound).symm]
    exact ⟨s, rfl, h⟩

theorem applyList_eq_map (s : Subst) (ts : List Ty) : s.applyList ts = ts.map s.apply := by
  induction ts with
  | nil => rfl
  | cons t ts ih => simp [applyList, ih]

@[simp] theorem length_applyList (s : Subst) (ts : List Ty) : (s.applyList ts).length = ts.length := by
  rw [applyList_eq_map, List.length_map]

end Subst

/-! ## Matching -/

namespace Ty

mutual

theorem matchInto_names : ∀ {p c : Ty} {s s' : Subst}, matchInto s p c = .ok s' →
    (∀ y, y ∈ s'.names ↔ y ∈ p.vars ∨ y ∈ s.names) ∧ (s.names.Pairwise (· < ·) → s'.names.Pairwise (· < ·))
  | .var x, c, s, s', h => by
    obtain ⟨hnames, hascending⟩ := Subst.bind_names h
    exact ⟨fun y => by rw [hnames, vars, List.mem_singleton], hascending⟩
  | .atom a, c, s, s', h => by
    simp only [matchInto] at h
    split at h
    · cases h
      exact ⟨fun y => by simp [vars], id⟩
    · cases h
  | .tuple ps, c, s, s', h => by
    simp only [matchInto] at h
    split at h
    · split at h
      · rename_i cs hlen
        exact matchList_names hlen h
      · cases h
    · cases h
  | .con n ps, c, s, s', h => by
    simp only [matchInto] at h
    split at h
    · split at h
      · rename_i cs hsame
        exact matchList_names hsame.2 h
      · cases h
    · cases h
  | .func p q, c, s, s', h => by
    simp only [matchInto] at h
    split at h
    · split at h
      · rename_i s₁ hs₁
        obtain ⟨hnames₁, hascending₁⟩ := matchInto_names hs₁
        obtain ⟨hnames, hascending⟩ := matchInto_names h
        refine ⟨fun y => ?_, fun hs => hascending (hascending₁ hs)⟩
        rw [hnames, hnames₁, vars, List.mem_append]
        tauto
      · cases h
    · cases h

theorem matchList_names : ∀ {ps cs : List Ty} {s s' : Subst}, ps.length = cs.length → matchList s ps cs = .ok s' →
    (∀ y, y ∈ s'.names ↔ y ∈ varsList ps ∨ y ∈ s.names) ∧ (s.names.Pairwise (· < ·) → s'.names.Pairwise (· < ·))
  | [], [], s, s', _, h => by
    cases h
    exact ⟨fun y => by simp [varsList], id⟩
  | p :: ps, c :: cs, s, s', hlen, h => by
    simp only [matchList] at h
    split at h
    · rename_i s₁ hs₁
      obtain ⟨hnames₁, hascending₁⟩ := matchInto_names hs₁
      obtain ⟨hnames, hascending⟩ := matchList_names (by simpa using hlen) h
      refine ⟨fun y => ?_, fun hs => hascending (hascending₁ hs)⟩
      rw [hnames, hnames₁, varsList, List.mem_append]
      tauto
    · cases h

end

mutual

/-- An instance is matched, on top of anything that agrees with the substitution that makes it. -/
theorem matchInto_apply (r : Subst) : ∀ (p : Ty) {s : Subst}, s.Within r →
    ∃ s', matchInto s p (r.apply p) = .ok s' ∧ s'.Within r
  | .var x, s, h => h.bind x
  | .atom a, s, h => ⟨s, by simp [matchInto, Subst.apply], h⟩
  | .tuple ps, s, h => by
    obtain ⟨s', hmatch, hwithin⟩ := matchList_applyList r ps h
    exact ⟨s', by simp [matchInto, Subst.apply, hmatch], hwithin⟩
  | .con n ps, s, h => by
    obtain ⟨s', hmatch, hwithin⟩ := matchList_applyList r ps h
    exact ⟨s', by simp [matchInto, Subst.apply, hmatch], hwithin⟩
  | .func p q, s, h => by
    obtain ⟨s₁, hfirst, hwithin₁⟩ := matchInto_apply r p h
    obtain ⟨s', hsecond, hwithin⟩ := matchInto_apply r q hwithin₁
    exact ⟨s', by simp [matchInto, Subst.apply, hfirst, hsecond], hwithin⟩

theorem matchList_applyList (r : Subst) : ∀ (ps : List Ty) {s : Subst}, s.Within r →
    ∃ s', matchList s ps (r.applyList ps) = .ok s' ∧ s'.Within r
  | [], s, h => ⟨s, by simp [matchList], h⟩
  | p :: ps, s, h => by
    obtain ⟨s₁, hfirst, hwithin₁⟩ := matchInto_apply r p h
    obtain ⟨s', hrest, hwithin⟩ := matchList_applyList r ps hwithin₁
    exact ⟨s', by simp [matchList, Subst.applyList, hfirst, hrest], hwithin⟩

end

/-- The variables that matching binds are those of the pattern. -/
theorem matching_names {p c : Ty} {s : Subst} (h : p.matching c = .ok s) : s.names = p.freeVars := by
  obtain ⟨hnames, hascending⟩ := matchInto_names h
  refine (hascending .nil).eq_of_mem_iff p.freeVars_ascending fun x => ?_
  rw [hnames, mem_freeVars]
  simp [Subst.names, Subst.empty]

/-- Every substitution that makes an instance agrees with the one that is found. -/
theorem matching_apply (r : Subst) (p : Ty) : ∃ s, p.matching (r.apply p) = .ok s ∧
    ∀ x ∈ p.freeVars, r.apply (.var x) = s.apply (.var x) := by
  obtain ⟨s, hmatch, hwithin⟩ := matchInto_apply r p r.empty_within
  refine ⟨s, hmatch, fun x hx => ?_⟩
  obtain ⟨t, ht⟩ := Subst.exists_get? (matching_names hmatch ▸ hx)
  rw [hwithin x t ht, Subst.apply, ht, Option.getD_some]

/-- Matching is exact. What it finds makes the instance and binds the variables of the pattern, in
ascending order and no others; every substitution that makes the instance is found, as far as the
pattern has variables; and matching fails only where there is none. -/
theorem matching_exact (p c : Ty) :
    (∀ s, p.matching c = .ok s → s.apply p = c ∧ s.entries.map (·.1) = p.freeVars) ∧
    (∀ r : Subst, r.apply p = c →
      ∃ s, p.matching c = .ok s ∧ ∀ x ∈ p.freeVars, r.apply (.var x) = s.apply (.var x)) ∧
    ((∃ e, p.matching c = .error e) ↔ ∀ r : Subst, r.apply p ≠ c) := by
  refine ⟨fun s h => ⟨matching_ok h, matching_names h⟩, fun r hr => hr ▸ matching_apply r p, ?_⟩
  constructor
  · rintro ⟨e, he⟩ r rfl
    obtain ⟨s, hs, -⟩ := matching_apply r p
    rw [hs] at he
    cases he
  · intro hnone
    cases h : p.matching c with
    | error e => exact ⟨e, rfl⟩
    | ok s => exact absurd (matching_ok h) (hnone s)

/-- The pattern `(a, a -> b)` and its instance `(b, b -> Int)`: the `b` of the instance is not the
pattern's. -/
theorem matching_exact_threaded :
    let p : Ty := .tuple [.var "a", .func (.var "a") (.var "b")]
    let c : Ty := .tuple [.var "b", .func (.var "b") .int]
    p.matching c = .ok ⟨[("a", .var "b"), ("b", .int)]⟩ ∧
      (Subst.mk [("a", .var "b"), ("b", .int)]).apply p = c ∧
      (∃ s, p.matching c = .ok s ∧
        ∀ x ∈ p.freeVars, (Subst.mk [("c", .bool), ("b", .int), ("a", .var "b")]).apply (.var x) = s.apply (.var x)) ∧
      ∀ r : Subst, r.apply p ≠ .tuple [.bool, .func .char .int] := by
  intro p c
  have hmatch : p.matching c = .ok ⟨[("a", .var "b"), ("b", .int)]⟩ := by decide
  have hother : (Subst.mk [("c", .bool), ("b", .int), ("a", .var "b")]).apply p = c := by decide
  exact ⟨hmatch, ((matching_exact p c).1 _ hmatch).1, (matching_exact p c).2.1 _ hother,
    (matching_exact p (.tuple [.bool, .func .char .int])).2.2.1 ⟨.conflict "a" .bool .char, by decide⟩⟩

end Ty

end Dataflow
