import Dataflow.Text.Split
import Mathlib.Data.List.Infix
import Mathlib.Tactic.Common

/-!
# Occurrences of a separator

A list is cut at the first occurrence of a separator (`Text.splitOnce_eq_some`), and by cutting again at
all of them, from the left and without overlaps (`Text.Divided`). Whether an occurrence is the first one
depends only on what comes before it (`Text.First`). So a cut stays where it is when more is appended, which
matters where a list arrives bit by bit.
-/

namespace Dataflow.Text

variable {α : Type} {sep : List α}

section
variable [DecidableEq α]

theorem dropStart?_eq_some : ∀ {start cs rest : List α}, dropStart? start cs = some rest ↔ cs = start ++ rest
  | [], cs, rest => by simp [dropStart?]
  | _ :: _, [], _ => by simp [dropStart?]
  | p :: ps, c :: cs, rest => by
    rw [dropStart?]
    split
    · rename_i hpc
      rw [dropStart?_eq_some]
      simp [hpc]
    · rename_i hpc
      simp [Ne.symm hpc]

theorem dropStart?_eq_none {start cs : List α} : dropStart? start cs = none ↔ ¬ start <+: cs := by
  rw [Option.eq_none_iff_forall_ne_some]
  constructor
  · rintro h ⟨rest, hrest⟩
    exact h rest (dropStart?_eq_some.2 hrest.symm)
  · intro h rest hrest
    exact h ⟨rest, (dropStart?_eq_some.1 hrest).symm⟩

end

/-! ## Elements that a list does not have -/

section
variable {p : List α} {d : α}

theorem prefix_of_divided {ys : List α} : ∀ {p xs : List α}, d ∉ p → p <+: xs ++ d :: ys → p <+: xs
  | [], _, _, _ => List.nil_prefix
  | x :: p, [], hd, h => by
    obtain ⟨rfl, _⟩ := List.cons_prefix_cons.1 h
    exact absurd List.mem_cons_self hd
  | x :: p, c :: xs, hd, h => by
    obtain ⟨rfl, hrest⟩ := List.cons_prefix_cons.1 h
    exact List.cons_prefix_cons.2 ⟨rfl, prefix_of_divided (List.not_mem_of_not_mem_cons hd) hrest⟩

theorem infix_cons_of_notMem (hp : p ≠ []) (hd : d ∉ p) {cs : List α} : p <:+: d :: cs ↔ p <:+: cs := by
  rw [List.infix_cons_iff, or_iff_right]
  intro h
  have hnil : p <+: [] := prefix_of_divided hd h
  exact hp (List.prefix_nil.1 hnil)

theorem infix_concat_of_notMem (hp : p ≠ []) (hd : d ∉ p) {cs : List α} : p <:+: cs ++ [d] ↔ p <:+: cs := by
  rw [List.infix_concat_iff, or_iff_right]
  intro h
  rcases List.suffix_concat_iff.1 h with rfl | ⟨t, rfl, _⟩
  · exact hp rfl
  · exact hd (by simp)

end

/-! ## The first occurrence -/

/-- A separator behind the list is the first one: it does not begin earlier. -/
def First (sep before : List α) : Prop := ∀ b a, before ++ sep = b ++ (sep ++ a) → a = []

theorem First.nil : First sep [] := by
  intro b a h
  have hlen := congrArg List.length h
  simp only [List.nil_append, List.length_append] at hlen
  exact List.length_eq_zero_iff.1 (by omega)

theorem First.tail {c : α} {before : List α} (h : First sep (c :: before)) : First sep before := by
  intro b a heq
  exact h (c :: b) a (by rw [List.cons_append, heq, List.cons_append])

/-- With one more element in front, the separator must not begin there. -/
theorem First.cons {c : α} {before : List α} (h : First sep before) (hc : ¬ sep <+: c :: (before ++ sep)) :
    First sep (c :: before) := by
  intro b a heq
  cases b with
  | nil => exact absurd ⟨a, heq.symm⟩ hc
  | cons d b =>
    rw [List.cons_append, List.cons_append, List.cons.injEq] at heq
    exact h b a heq.2

theorem First.of_notMem {d : α} {before : List α} (h : d ∉ before) : First [d] before := by
  induction before with
  | nil => exact .nil
  | cons c before ih =>
    rw [List.mem_cons, not_or] at h
    refine (ih h.2).cons fun hstart => h.1 ?_
    exact (List.cons_prefix_cons.1 hstart).1

/-- A first separator is not found at the start as well. -/
theorem First.not_start {c : α} {before : List α} (h : First sep (c :: before)) (after : List α) :
    ¬ sep <+: c :: (before ++ (sep ++ after)) := by
  intro hstart
  have hshort : sep <+: c :: (before ++ sep) := by
    refine List.prefix_of_prefix_length_le hstart ⟨after, by simp⟩ ?_
    simp only [List.length_cons, List.length_append]
    omega
  obtain ⟨a, ha⟩ := hshort
  have hnil := h [] a ha.symm
  have hlen := congrArg List.length ha
  simp only [hnil, List.append_nil, List.length_cons, List.length_append] at hlen
  omega

section
variable [DecidableEq α]

/-- **A list is cut at the first occurrence of the separator.** -/
theorem splitOnce_eq_some : ∀ {cs before after : List α},
    splitOnce sep cs = some (before, after) ↔ cs = before ++ (sep ++ after) ∧ First sep before
  | [], before, after => by
    cases sep with
    | nil =>
      constructor
      · intro h
        cases h
        exact ⟨rfl, .nil⟩
      · rintro ⟨heq, -⟩
        obtain ⟨rfl, rfl⟩ := List.append_eq_nil_iff.1 heq.symm
        rfl
    | cons s sep => simp [splitOnce]
  | c :: cs, before, after => by
    rw [splitOnce]
    cases hstart : dropStart? sep (c :: cs) with
    | some rest =>
      have hcs := dropStart?_eq_some.1 hstart
      rw [hcs]
      constructor
      · intro h
        cases h
        exact ⟨rfl, .nil⟩
      · rintro ⟨heq, hfirst⟩
        cases before with
        | nil =>
          rw [List.nil_append, List.append_cancel_left_eq] at heq
          rw [heq]
        | cons d before =>
          have hstarts : sep <+: d :: (before ++ (sep ++ after)) := ⟨rest, heq⟩
          exact absurd hstarts (hfirst.not_start after)
    | none =>
      have hnot := dropStart?_eq_none.1 hstart
      simp only [Option.map_eq_some_iff, Prod.exists, Prod.mk.injEq]
      constructor
      · rintro ⟨b, a, hsplit, rfl, rfl⟩
        obtain ⟨rfl, hfirst⟩ := splitOnce_eq_some.1 hsplit
        refine ⟨rfl, hfirst.cons fun hstarts => hnot ?_⟩
        exact hstarts.trans ⟨a, by simp⟩
      · rintro ⟨heq, hfirst⟩
        cases before with
        | nil => exact absurd ⟨after, heq.symm⟩ hnot
        | cons d before =>
          rw [List.cons_append, List.cons.injEq] at heq
          obtain ⟨rfl, rfl⟩ := heq
          exact ⟨before, after, splitOnce_eq_some.2 ⟨rfl, hfirst.tail⟩, rfl, rfl⟩

theorem splitOnce_eq_none : ∀ {cs : List α}, splitOnce sep cs = none ↔ ¬ sep <:+: cs
  | [] => by cases sep <;> simp [splitOnce]
  | c :: cs => by
    rw [splitOnce, List.infix_cons_iff, not_or, ← splitOnce_eq_none, ← dropStart?_eq_none]
    cases dropStart? sep (c :: cs) <;> simp

/-- Where the separator occurs there is a first occurrence. -/
theorem exists_first {cs : List α} (h : sep <:+: cs) : ∃ before after, cs = before ++ (sep ++ after) ∧ First sep before := by
  cases hsplit : splitOnce sep cs with
  | none => exact absurd h (splitOnce_eq_none.1 hsplit)
  | some cut => exact ⟨cut.1, cut.2, splitOnce_eq_some.1 hsplit⟩

theorem First.unique {before before' after after' : List α} (h : First sep before) (h' : First sep before')
    (heq : before ++ (sep ++ after) = before' ++ (sep ++ after')) : before = before' ∧ after = after' := by
  have hcut : splitOnce sep (before ++ (sep ++ after)) = some (before, after) := splitOnce_eq_some.2 ⟨rfl, h⟩
  rw [heq, splitOnce_eq_some.2 ⟨rfl, h'⟩] at hcut
  cases hcut
  exact ⟨rfl, rfl⟩

end

/-! ## All occurrences -/

/-- The pieces of a list between the occurrences of the separator, taken from the left and without
overlaps, and what follows the last one. -/
structure Divided (sep cs : List α) (pieces : List (List α)) (rest : List α) : Prop where
  joined : cs = pieces.flatMap (· ++ sep) ++ rest
  first : ∀ piece ∈ pieces, First sep piece
  rest : ¬ sep <:+: rest

theorem Divided.piece {cs : List α} {pieces : List (List α)} {before after rest : List α}
    (hcs : cs = before ++ (sep ++ after)) (hfirst : First sep before) (h : Divided sep after pieces rest) :
    Divided sep cs (before :: pieces) rest where
  joined := by simp [hcs, h.joined]
  first := by
    intro piece hpiece
    rcases List.mem_cons.1 hpiece with rfl | hpiece
    · exact hfirst
    · exact h.first piece hpiece
  rest := h.rest

theorem Divided.occurs {cs : List α} {pieces : List (List α)} {rest : List α} (h : Divided sep cs pieces rest)
    (hne : pieces ≠ []) : sep <:+: cs := by
  obtain ⟨piece, more, rfl⟩ := List.exists_cons_of_ne_nil hne
  exact ⟨piece, more.flatMap (· ++ sep) ++ rest, by simp [h.joined]⟩

/-- Every list is divided, by cutting it at the first occurrence as long as there is one. -/
theorem exists_divided [DecidableEq α] (hsep : sep ≠ []) (cs : List α) : ∃ pieces rest, Divided sep cs pieces rest := by
  induction hlen : cs.length using Nat.strongRecOn generalizing cs with
  | _ n ih =>
    by_cases hoccurs : sep <:+: cs
    · obtain ⟨before, after, hcs, hfirst⟩ := exists_first hoccurs
      have hshorter : after.length < n := by
        have hpos := List.length_pos_iff.2 hsep
        rw [← hlen, hcs]
        simp only [List.length_append]
        omega
      obtain ⟨pieces, rest, h⟩ := ih after.length hshorter after rfl
      exact ⟨before :: pieces, rest, h.piece hcs hfirst⟩
    · exact ⟨[], cs, by simp, by simp, hoccurs⟩

/-- What is divided and begins with a piece has it as its first one. -/
theorem Divided.of_piece [DecidableEq α] {cs : List α} {pieces : List (List α)} {before after rest : List α}
    (h : Divided sep cs pieces rest) (hcs : cs = before ++ (sep ++ after)) (hfirst : First sep before) :
    ∃ more, pieces = before :: more ∧ Divided sep after more rest := by
  obtain ⟨hjoined, hpieces, hrest⟩ := h
  cases pieces with
  | nil =>
    refine absurd ⟨before, after, ?_⟩ hrest
    rw [List.append_assoc, ← hcs, hjoined]
    rfl
  | cons piece more =>
    have heq : before ++ (sep ++ after) = piece ++ (sep ++ (more.flatMap (· ++ sep) ++ rest)) := by
      rw [← hcs, hjoined]
      simp
    obtain ⟨rfl, rfl⟩ := hfirst.unique (hpieces piece (by simp)) heq
    exact ⟨more, rfl, rfl, fun piece hpiece => hpieces piece (List.mem_cons_of_mem _ hpiece), hrest⟩

end Dataflow.Text
