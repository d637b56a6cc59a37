import Dataflow.Eval.Env
import Dataflow.Plan.Basic
import Dataflow.Program.Basic
import Mathlib.Tactic.Common

/-!
# Variables

Different nodes have different variables, and so have the components of a tuple: the name of a
component is told from the name of a node by the underscore in it. A name means what was bound to it
last, whatever other names were bound since.
-/

namespace Dataflow

/-! ## Names -/

theorem toDigits_injective {m n : Nat} (h : Nat.toDigits 10 m = Nat.toDigits 10 n) : m = n := by
  have hvalue := congrArg (fun ds => Nat.ofDigitChars 10 ds 0) h
  simpa only [Nat.ofDigitChars_ten_toDigits] using hvalue

theorem underscore_not_mem_toDigits (n : Nat) : '_' ∉ Nat.toDigits 10 n := by
  intro h
  exact absurd (Nat.isDigit_of_mem_toDigits (by omega) (by omega) h) (by decide)

theorem nodeVar_toList (n : Nat) : (nodeVar n).toList = 'v' :: Nat.toDigits 10 n := by
  simp [nodeVar]

theorem componentVar_toList (n k : Nat) :
    (componentVar (nodeVar n) k).toList = 'v' :: Nat.toDigits 10 n ++ '_' :: Nat.toDigits 10 k := by
  simp [componentVar, nodeVar_toList]

theorem nodeVar_injective {m n : Nat} (h : nodeVar m = nodeVar n) : m = n := by
  have hlist := congrArg String.toList h
  rw [nodeVar_toList, nodeVar_toList] at hlist
  exact toDigits_injective (List.cons.inj hlist).2

theorem componentVar_ne_nodeVar (m k n : Nat) : componentVar (nodeVar m) k ≠ nodeVar n := by
  intro h
  have hlist := congrArg String.toList h
  rw [componentVar_toList, nodeVar_toList] at hlist
  refine underscore_not_mem_toDigits n ?_
  rw [← (List.cons.inj hlist).2]
  simp

/-- The underscore ends the number of the node, which has none in it. -/
theorem componentVar_injective {m n j k : Nat} (h : componentVar (nodeVar m) j = componentVar (nodeVar n) k) :
    m = n ∧ j = k := by
  have hlist := congrArg String.toList h
  simp only [componentVar_toList, List.cons_append, List.cons.injEq, true_and] at hlist
  have hbefore := congrArg (List.takeWhile (· != '_')) hlist
  have hdigits : ∀ i l, (Nat.toDigits 10 i ++ '_' :: l).takeWhile (· != '_') = Nat.toDigits 10 i := by
    intro i l
    rw [List.takeWhile_append_of_pos]
    · simp
    · intro c hc
      simpa using fun hu : c = '_' => underscore_not_mem_toDigits i (hu ▸ hc)
  rw [hdigits, hdigits] at hbefore
  obtain rfl := toDigits_injective hbefore
  have hafter := List.append_cancel_left hlist
  exact ⟨rfl, toDigits_injective (List.cons.inj hafter).2⟩

/-- The variables of a node: its own, and those of its components. -/
def Program.vars (p : Program) (n : Nat) : List String :=
  nodeVar n ::
    match (p.node n).ty with
    | .tuple items => (List.range items.length).map (componentVar (nodeVar n))
    | _ => []

theorem Program.nodeVar_mem_vars (p : Program) (n : Nat) : nodeVar n ∈ p.vars n := List.mem_cons_self

theorem Program.nodeVar_not_mem_tail (p : Program) (n : Nat) : nodeVar n ∉ (p.vars n).tail := by
  intro h
  simp only [vars, List.tail_cons] at h
  split at h
  · obtain ⟨k, _, heq⟩ := List.mem_map.1 h
    exact componentVar_ne_nodeVar n k n heq
  · cases h

theorem Program.mem_vars {p : Program} {n : Nat} {x : String} (h : x ∈ p.vars n) :
    x = nodeVar n ∨ ∃ k, x = componentVar (nodeVar n) k := by
  rcases List.mem_cons.1 h with rfl | h
  · exact Or.inl rfl
  · split at h
    · obtain ⟨k, _, rfl⟩ := List.mem_map.1 h
      exact Or.inr ⟨k, rfl⟩
    · cases h

/-- Different nodes share no variable. -/
theorem Program.vars_disjoint {p : Program} {m n : Nat} (hne : m ≠ n) {x : String} (hm : x ∈ p.vars m) :
    x ∉ p.vars n := by
  intro hn
  rcases mem_vars hm with rfl | ⟨j, rfl⟩ <;> rcases mem_vars hn with heq | ⟨k, heq⟩
  · exact hne (nodeVar_injective heq)
  · exact componentVar_ne_nodeVar n k m heq.symm
  · exact componentVar_ne_nodeVar m j n heq
  · exact hne (componentVar_injective heq).1

/-! ## Tables -/

namespace Assoc

variable {κ α : Type} [Ord κ] [Std.LawfulEqOrd κ] [DecidableEq κ]

theorem get?_cons (k j : κ) (a : α) (rest : List (κ × α)) :
    get? k ((j, a) :: rest) = if k = j then some a else get? k rest := by
  by_cases h : k = j
  · simp [get?, h]
  · have hne : compare k j ≠ .eq := fun heq => h (Std.LawfulEqOrd.eq_of_compare heq)
    simp [get?, h, hne]

theorem get?_insert (k j : κ) (a : α) (table : List (κ × α)) :
    get? k (insert j a table) = if k = j then some a else get? k table := by
  induction table with
  | nil => simp [insert, get?_cons]
  | cons entry rest ih =>
    obtain ⟨i, b⟩ := entry
    unfold insert
    split
    · exact get?_cons k j a _
    · rename_i heq
      obtain rfl := Std.LawfulEqOrd.eq_of_compare heq
      by_cases h : k = j <;> simp [get?_cons, h]
    · rename_i hgt
      have hne : j ≠ i := by
        rintro rfl
        simp at hgt
      by_cases h : k = i
      · subst h
        simp [get?_cons, Ne.symm hne]
      · simp [get?_cons, h, ih]

theorem get?_mem {k : κ} {a : α} {table : List (κ × α)} (h : get? k table = some a) : (k, a) ∈ table := by
  induction table with
  | nil => cases h
  | cons entry rest ih =>
    obtain ⟨j, b⟩ := entry
    rw [get?_cons] at h
    split at h
    · rename_i hkj
      cases h
      simp [hkj]
    · exact List.mem_cons_of_mem _ (ih h)

theorem exists_get? {k : κ} {table : List (κ × α)} (h : k ∈ table.map (·.1)) : ∃ a, get? k table = some a := by
  induction table with
  | nil => cases h
  | cons entry rest ih =>
    obtain ⟨j, b⟩ := entry
    rw [get?_cons]
    by_cases hkj : k = j
    · exact ⟨b, if_pos hkj⟩
    · rw [if_neg hkj]
      exact ih ((List.mem_cons.1 h).resolve_left hkj)

omit [Std.LawfulEqOrd κ] [DecidableEq κ] in
theorem mem_insert {k : κ} {a : α} {table : List (κ × α)} {entry : κ × α} (h : entry ∈ insert k a table) :
    entry = (k, a) ∨ entry ∈ table := by
  induction table with
  | nil => exact Or.inl (List.mem_singleton.1 h)
  | cons first rest ih =>
    unfold insert at h
    split at h
    · exact List.mem_cons.1 h
    · exact (List.mem_cons.1 h).imp_right (List.mem_cons_of_mem _)
    · rcases List.mem_cons.1 h with rfl | h
      · exact Or.inr (by simp)
      · exact (ih h).imp_right (List.mem_cons_of_mem _)

omit [DecidableEq κ] in
theorem mem_keys_insert {k j : κ} {a : α} {table : List (κ × α)} (h : j = k ∨ j ∈ table.map (·.1)) :
    j ∈ (insert k a table).map (·.1) := by
  induction table with
  | nil => simpa [insert] using h
  | cons first rest ih =>
    unfold insert
    split
    · simpa using h
    · rename_i heq
      obtain rfl := Std.LawfulEqOrd.eq_of_compare heq
      rcases h with rfl | h
      · simp
      · simpa using h
    · simp only [List.map_cons, List.mem_cons] at h ⊢
      rcases h with rfl | rfl | h
      · exact Or.inr (ih (Or.inl rfl))
      · exact Or.inl rfl
      · exact Or.inr (ih (Or.inr h))

omit [DecidableEq κ] in
/-- The keys of a table stay in ascending order. -/
theorem insert_ascending [Std.TransOrd κ] {k : κ} {a : α} {table : List (κ × α)}
    (h : (table.map (·.1)).Pairwise fun i j => compare i j = .lt) :
    ((insert k a table).map (·.1)).Pairwise fun i j => compare i j = .lt := by
  induction table with
  | nil => simp [insert]
  | cons first rest ih =>
    simp only [List.map_cons, List.pairwise_cons] at h
    unfold insert
    split
    · rename_i hlt
      simp only [List.map_cons, List.pairwise_cons, List.mem_cons, forall_eq_or_imp]
      exact ⟨⟨hlt, fun j hj => Std.TransCmp.lt_trans hlt (h.1 j hj)⟩, h⟩
    · rename_i heq
      obtain rfl := Std.LawfulEqOrd.eq_of_compare heq
      simpa only [List.map_cons, List.pairwise_cons] using h
    · rename_i hgt
      simp only [List.map_cons, List.pairwise_cons]
      refine ⟨fun j hj => ?_, ih h.2⟩
      obtain ⟨entry, hentry, rfl⟩ := List.mem_map.1 hj
      rcases mem_insert hentry with rfl | hentry
      · exact Std.OrientedCmp.gt_iff_lt.1 hgt
      · exact h.1 _ (List.mem_map_of_mem hentry)

end Assoc

/-! ## Environments -/

namespace Env

theorem find?_add (e : Env) (x y : String) (v : Value) :
    (e.add y v).find? x = if x = y then some v else e.find? x := by
  unfold add find?
  split
  · rename_i hframes
    by_cases h : x = y <;> simp [hframes, Assoc.get?, h]
  · rename_i frame rest hframes
    by_cases h : x = y <;> simp [hframes, List.findSome?_cons, Assoc.get?_insert, h]

@[simp] theorem find?_enter (e : Env) (x : String) : e.enter.find? x = e.find? x := by
  simp [enter, find?, List.findSome?_cons, Assoc.get?]

theorem find?_addAll_of_not_mem {x : String} : ∀ {vars : List (String × Value)} (e : Env),
    x ∉ vars.map (·.1) → (e.addAll vars).find? x = e.find? x
  | [], _, _ => rfl
  | (y, v) :: vars, e, h => by
    simp only [List.map_cons, List.mem_cons, not_or] at h
    refine (find?_addAll_of_not_mem (e.add y v) h.2).trans ?_
    rw [find?_add, if_neg h.1]

/-- Of names that are bound together, each is bound to its own value. -/
theorem find?_addAll_of_mem {x : String} {v : Value} : ∀ {vars : List (String × Value)} (e : Env),
    (vars.map (·.1)).Nodup → (x, v) ∈ vars → (e.addAll vars).find? x = some v
  | (y, u) :: vars, e, hnodup, h => by
    rw [List.map_cons, List.nodup_cons] at hnodup
    rcases List.mem_cons.1 h with heq | h
    · cases heq
      refine (find?_addAll_of_not_mem (e.add x v) hnodup.1).trans ?_
      rw [find?_add, if_pos rfl]
    · exact find?_addAll_of_mem (e.add y u) hnodup.2 h

end Env

end Dataflow
