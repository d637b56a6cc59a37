import Dataflow.Proofs.Variables
import Mathlib.Data.List.Sort

/-!
# Tables in order

A table whose keys ascend holds each key once, so it is known by what it answers (`Assoc.Ascending.ext`), and
putting its entries one by one into an empty table gives it back (`Assoc.ofList_ascending`).
-/

namespace Dataflow.Assoc

variable {κ α : Type} [Ord κ]

/-- The keys of a table ascend. -/
def Ascending (table : List (κ × α)) : Prop := (table.map (·.1)).Pairwise fun i j => compare i j = .lt

theorem Ascending.filter {table : List (κ × α)} (h : Ascending table) (q : κ × α → Bool) : Ascending (table.filter q) :=
  h.sublist (List.filter_sublist.map _)

theorem ascending_cons {x : κ × α} {rest : List (κ × α)} :
    Ascending (x :: rest) ↔ (∀ y ∈ rest, compare x.1 y.1 = .lt) ∧ Ascending rest := by
  simp [Ascending, List.pairwise_cons]

/-- A key behind all others goes to the end. -/
theorem insert_last [Std.OrientedOrd κ] {k : κ} {a : α} {table : List (κ × α)}
    (h : ∀ x ∈ table, compare x.1 k = .lt) : insert k a table = table ++ [(k, a)] := by
  induction table with
  | nil => rfl
  | cons x rest ih =>
    have hgt : compare k x.1 = .gt := Std.OrientedCmp.gt_iff_lt.2 (h x (by simp))
    simp only [insert, hgt, List.cons_append]
    rw [ih fun y hy => h y (List.mem_cons_of_mem _ hy)]

/-- Entries whose keys ascend from behind those of a table are appended to it. -/
theorem foldl_insert_last [Std.OrientedOrd κ] {added table : List (κ × α)} (h : Ascending (table ++ added)) :
    added.foldl (fun table x => insert x.1 x.2 table) table = table ++ added := by
  induction added generalizing table with
  | nil => simp
  | cons x added ih =>
    have hlast : ∀ y ∈ table, compare y.1 x.1 = .lt := by
      intro y hy
      unfold Ascending at h
      rw [List.map_append, List.pairwise_append] at h
      exact h.2.2 y.1 (List.mem_map_of_mem hy) x.1 (by simp)
    rw [List.foldl_cons, insert_last hlast, ih (by simpa using h), List.append_assoc, List.singleton_append]

theorem ofList_ascending [Std.OrientedOrd κ] {table : List (κ × α)} (h : Ascending table) : ofList table = table :=
  foldl_insert_last h

theorem ofList_append [Std.OrientedOrd κ] {table added : List (κ × α)} (h : Ascending table) :
    ofList (table ++ added) = added.foldl (fun table x => insert x.1 x.2 table) table := by
  have htable := ofList_ascending h
  unfold ofList at htable ⊢
  rw [List.foldl_append, htable]

section
variable [Std.LawfulEqOrd κ] [DecidableEq κ]

theorem get?_eq_none {k : κ} {table : List (κ × α)} : get? k table = none ↔ k ∉ table.map (·.1) := by
  constructor
  · intro hnone hmem
    obtain ⟨a, ha⟩ := exists_get? hmem
    simp [ha] at hnone
  · intro hmem
    cases h : get? k table with
    | none => rfl
    | some a => exact absurd (List.mem_map_of_mem (get?_mem h)) hmem

/-- Entries under other keys stay as they are. -/
theorem get?_foldl_insert {k : κ} {added table : List (κ × α)} (h : k ∉ added.map (·.1)) :
    get? k (added.foldl (fun table x => insert x.1 x.2 table) table) = get? k table := by
  induction added generalizing table with
  | nil => rfl
  | cons x added ih =>
    simp only [List.map_cons, List.mem_cons, not_or] at h
    rw [List.foldl_cons, ih h.2, get?_insert, if_neg h.1]

theorem Ascending.get?_of_mem {k : κ} {a : α} {table : List (κ × α)} (h : Ascending table) (hmem : (k, a) ∈ table) :
    get? k table = some a := by
  induction table with
  | nil => cases hmem
  | cons x rest ih =>
    obtain ⟨hfirst, hrest⟩ := ascending_cons.1 h
    obtain ⟨j, b⟩ := x
    rw [get?_cons]
    rcases List.mem_cons.1 hmem with heq | hmem
    · cases heq
      exact if_pos rfl
    · have hlt := hfirst (k, a) hmem
      have hne : k ≠ j := by
        rintro rfl
        simp at hlt
      rw [if_neg hne]
      exact ih hrest hmem

omit [DecidableEq κ] in
theorem Ascending.nodup_keys {table : List (κ × α)} (h : Ascending table) : (table.map (·.1)).Nodup := by
  refine List.Pairwise.imp ?_ h
  rintro i _ hlt rfl
  simp at hlt

/-- Tables in order that answer alike are equal. -/
theorem Ascending.ext [Std.TransOrd κ] {s t : List (κ × α)} (hs : Ascending s) (ht : Ascending t)
    (h : ∀ k, get? k s = get? k t) : s = t := by
  have hmem : ∀ {t : List (κ × α)}, Ascending t → ∀ x : κ × α, x ∈ t ↔ get? x.1 t = some x.2 := fun ht _ =>
    ⟨ht.get?_of_mem, get?_mem⟩
  let before (x y : κ × α) : Prop := compare x.1 y.1 = .lt
  have : Std.Irrefl before := ⟨fun x hlt => by simp [before] at hlt⟩
  have : Std.Antisymm before := ⟨fun x y hxy hyx => by
    have := Std.OrientedCmp.gt_iff_lt.2 hxy
    simp_all [before]⟩
  exact (List.pairwise_map.1 hs).eq_of_mem_iff (r := before) (List.pairwise_map.1 ht) fun x => by
    rw [hmem hs, hmem ht, h]

end

end Dataflow.Assoc
