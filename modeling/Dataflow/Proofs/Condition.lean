import Dataflow.Condition
import Mathlib.Tactic.Common

/-!
# What conditions say

A condition holds on a set of literals once every literal of one of its terms is in the set. Under
this reading `and` and `or` are conjunction and disjunction, and for the condition of a scope, which
has at most one term, the test `implies` decides whether a condition holds on its literals.

Conditions are built while branches are numbered. `Known n c` says that `c` mentions only branches
numbered before `n`, so literals from `n` on cannot change whether it holds.
-/

namespace Dataflow.Condition

/-- The literals of all terms. -/
def literals (c : Condition) : List Int := c.terms.flatten

/-- All literals of some term are in `S`. -/
def HoldsOn (S : Int → Prop) (c : Condition) : Prop :=
  c.terms = [] ∨ ∃ t ∈ c.terms, ∀ k ∈ t, S k

/-- No term is empty. Whatever `literal`, `and` and `or` build is proper. -/
def Proper (c : Condition) : Prop := ∀ t ∈ c.terms, t ≠ []

/-- At most one term, as the conditions of scopes have. -/
def IsPath (s : Condition) : Prop := s.terms.length ≤ 1

@[simp] theorem mem_literals {c : Condition} {k : Int} : k ∈ c.literals ↔ ∃ t ∈ c.terms, k ∈ t := by
  simp [literals]

/-! ## Terms -/

@[simp] theorem mem_insertLiteral {k j : Int} {t : List Int} : j ∈ insertLiteral k t ↔ j = k ∨ j ∈ t := by
  induction t with
  | nil => simp [insertLiteral]
  | cons i t ih =>
    unfold insertLiteral
    split
    · simp
    · split
      · simp_all
      · simp only [List.mem_cons, ih]
        tauto

@[simp] theorem mem_union {k : Int} {s t : List Int} : k ∈ union s t ↔ k ∈ s ∨ k ∈ t := by
  unfold union
  induction t with
  | nil => simp
  | cons j t ih =>
    simp only [List.foldr_cons, mem_insertLiteral, List.mem_cons, ih]
    tauto

theorem mem_addTerm {ts : List (List Int)} {t u : List Int} : u ∈ addTerm ts t ↔ u ∈ ts ∨ u = t := by
  unfold addTerm
  split
  · constructor
    · exact Or.inl
    · rintro (h | rfl) <;> assumption
  · simp

theorem mem_foldl_addTerm {us ts : List (List Int)} {u : List Int} :
    u ∈ us.foldl addTerm ts ↔ u ∈ ts ∨ u ∈ us := by
  induction us generalizing ts with
  | nil => simp
  | cons t us ih =>
    simp only [List.foldl_cons, ih, mem_addTerm, List.mem_cons]
    tauto

theorem mem_terms_and {a b : Condition} (ha : a.terms ≠ []) (hb : b.terms ≠ []) {u : List Int} :
    u ∈ (a.and b).terms ↔ ∃ s ∈ a.terms, ∃ t ∈ b.terms, u = union s t := by
  have hau : a.isAlways = false := by simpa [isAlways] using ha
  have hbu : b.isAlways = false := by simpa [isAlways] using hb
  simp only [Condition.and, hau, hbu, Bool.false_eq_true, if_false, mem_foldl_addTerm, List.not_mem_nil,
    false_or, List.mem_flatMap, List.mem_map]
  constructor
  · rintro ⟨s, hs, t, ht, rfl⟩; exact ⟨s, hs, t, ht, rfl⟩
  · rintro ⟨s, hs, t, ht, rfl⟩; exact ⟨s, hs, t, ht, rfl⟩

theorem mem_terms_or {a b : Condition} (ha : a.terms ≠ []) (hb : b.terms ≠ []) {u : List Int} :
    u ∈ (a.or b).terms ↔ u ∈ a.terms ∨ u ∈ b.terms := by
  have hau : a.isAlways = false := by simpa [isAlways] using ha
  have hbu : b.isAlways = false := by simpa [isAlways] using hb
  simp [Condition.or, hau, hbu, mem_foldl_addTerm]

theorem and_of_always {a b : Condition} (ha : a.terms = []) : a.and b = b := by
  simp [Condition.and, isAlways, ha]

theorem and_always {a b : Condition} (hb : b.terms = []) : a.and b = a := by
  by_cases ha : a.terms = []
  · rw [and_of_always ha]
    cases a; cases b; simp_all
  · simp [Condition.and, isAlways, ha, hb]

theorem or_always {a b : Condition} (h : a.terms = [] ∨ b.terms = []) : a.or b = always := by
  rcases h with h | h <;> simp [Condition.or, isAlways, h]

theorem implies_self (c : Condition) : c.implies c = true := by
  cases hterms : c.terms with
  | nil => simp [implies, isAlways, hterms]
  | cons t ts => simp [implies, hterms]

/-! ## The reading of conditions -/

section
variable {S : Int → Prop} {a b c : Condition}

@[simp] theorem holdsOn_always : HoldsOn S always := Or.inl rfl

@[simp] theorem holdsOn_literal {k : Int} : HoldsOn S (literal k) ↔ S k := by
  simp [HoldsOn, literal]

/-- Only the literals of a condition matter to it. -/
theorem holdsOn_congr {T : Int → Prop} (hST : ∀ k ∈ c.literals, S k ↔ T k) : HoldsOn S c ↔ HoldsOn T c := by
  have hterm : ∀ t ∈ c.terms, (∀ k ∈ t, S k) ↔ ∀ k ∈ t, T k := by
    intro t ht
    exact forall₂_congr fun k hk => hST k (mem_literals.2 ⟨t, ht, hk⟩)
  unfold HoldsOn
  constructor
  · rintro (h | ⟨t, ht, hS⟩)
    · exact Or.inl h
    · exact Or.inr ⟨t, ht, (hterm t ht).1 hS⟩
  · rintro (h | ⟨t, ht, hT⟩)
    · exact Or.inl h
    · exact Or.inr ⟨t, ht, (hterm t ht).2 hT⟩

@[simp] theorem holdsOn_and : HoldsOn S (a.and b) ↔ HoldsOn S a ∧ HoldsOn S b := by
  by_cases ha : a.terms = []
  · rw [and_of_always ha]
    exact ⟨fun h => ⟨Or.inl ha, h⟩, And.right⟩
  by_cases hb : b.terms = []
  · rw [and_always hb]
    exact ⟨fun h => ⟨h, Or.inl hb⟩, And.left⟩
  obtain ⟨s₀, hs₀⟩ := List.exists_mem_of_ne_nil _ ha
  obtain ⟨t₀, ht₀⟩ := List.exists_mem_of_ne_nil _ hb
  have hne : (a.and b).terms ≠ [] :=
    List.ne_nil_of_mem ((mem_terms_and ha hb).2 ⟨s₀, hs₀, t₀, ht₀, rfl⟩)
  simp only [HoldsOn, hne, ha, hb, false_or]
  constructor
  · rintro ⟨u, hu, hS⟩
    obtain ⟨s, hs, t, ht, rfl⟩ := (mem_terms_and ha hb).1 hu
    exact ⟨⟨s, hs, fun k hk => hS k (by simp [hk])⟩, ⟨t, ht, fun k hk => hS k (by simp [hk])⟩⟩
  · rintro ⟨⟨s, hs, hSs⟩, ⟨t, ht, hSt⟩⟩
    refine ⟨union s t, (mem_terms_and ha hb).2 ⟨s, hs, t, ht, rfl⟩, fun k hk => ?_⟩
    rcases mem_union.1 hk with hk | hk
    · exact hSs k hk
    · exact hSt k hk

@[simp] theorem holdsOn_or : HoldsOn S (a.or b) ↔ HoldsOn S a ∨ HoldsOn S b := by
  by_cases ha : a.terms = []
  · rw [or_always (Or.inl ha)]
    exact ⟨fun _ => Or.inl (Or.inl ha), fun _ => holdsOn_always⟩
  by_cases hb : b.terms = []
  · rw [or_always (Or.inr hb)]
    exact ⟨fun _ => Or.inr (Or.inl hb), fun _ => holdsOn_always⟩
  obtain ⟨s₀, hs₀⟩ := List.exists_mem_of_ne_nil _ ha
  have hne : (a.or b).terms ≠ [] := List.ne_nil_of_mem ((mem_terms_or ha hb).2 (Or.inl hs₀))
  simp only [HoldsOn, hne, ha, hb, false_or, mem_terms_or ha hb]
  constructor
  · rintro ⟨t, ht | ht, hS⟩
    · exact Or.inl ⟨t, ht, hS⟩
    · exact Or.inr ⟨t, ht, hS⟩
  · rintro (⟨t, ht, hS⟩ | ⟨t, ht, hS⟩)
    · exact ⟨t, Or.inl ht, hS⟩
    · exact ⟨t, Or.inr ht, hS⟩

/-- A conjunction of many holds where each of them does. -/
theorem holdsOn_foldl_and {cs : List Condition} {c : Condition} :
    HoldsOn S (cs.foldl .and c) ↔ HoldsOn S c ∧ ∀ d ∈ cs, HoldsOn S d := by
  induction cs generalizing c with
  | nil => simp
  | cons d cs ih => simp [ih, and_assoc]

/-- A disjunction of many holds where one of them does. -/
theorem holdsOn_foldl_or {cs : List Condition} {c : Condition} :
    HoldsOn S (cs.foldl .or c) ↔ HoldsOn S c ∨ ∃ d ∈ cs, HoldsOn S d := by
  induction cs generalizing c with
  | nil => simp
  | cons d cs ih => simp [ih, or_assoc]

end

/-- The condition of a scope implies another one when that one holds on its literals. -/
theorem implies_iff_holdsOn {s c : Condition} (hs : s.IsPath) (hc : c.Proper) :
    s.implies c = true ↔ HoldsOn (· ∈ s.literals) c := by
  have halways : c.isAlways = true ↔ c.terms = [] := by simp [isAlways]
  match s, hs with
  | ⟨[]⟩, _ =>
    simp only [implies, List.any_nil, Bool.or_false, halways, HoldsOn, literals, List.flatten_nil,
      List.not_mem_nil]
    refine ⟨Or.inl, ?_⟩
    rintro (h | ⟨t, ht, hk⟩)
    · exact h
    · exact absurd (List.eq_nil_iff_forall_not_mem.2 hk) (hc t ht)
  | ⟨[u]⟩, _ => simp [implies, halways, HoldsOn, literals]
  | ⟨_ :: _ :: _⟩, hs => simp [IsPath] at hs

/-! ## Conditions over numbered branches -/

/-- The condition of a scope and one literal more. -/
theorem IsPath.and_literal {s : Condition} (hs : s.IsPath) (k : Int) :
    (s.and (literal k)).IsPath ∧ ∀ j, j ∈ (s.and (literal k)).literals ↔ j ∈ s.literals ∨ j = k := by
  match s, hs with
  | ⟨[]⟩, _ => simp [Condition.and, isAlways, IsPath, literals, literal]
  | ⟨[u]⟩, _ => simp [Condition.and, isAlways, IsPath, literals, literal, addTerm]
  | ⟨_ :: _ :: _⟩, hs => simp [IsPath] at hs

/-- A proper condition whose literals are smaller than `n`. -/
structure Known (n : Nat) (c : Condition) : Prop where
  proper : c.Proper
  below : ∀ k ∈ c.literals, k < n

namespace Known

variable {n m : Nat} {a b : Condition}

theorem always : Known n always := by
  constructor <;> simp [Proper, Condition.always]

theorem literal {k : Int} (hk : k < n) : Known n (literal k) := by
  constructor <;> simp [Proper, Condition.literal, hk]

theorem mono (hnm : n ≤ m) (h : Known n a) : Known m a :=
  ⟨h.proper, fun k hk => by have := h.below k hk; omega⟩

theorem and (ha : Known n a) (hb : Known n b) : Known n (a.and b) := by
  by_cases hae : a.terms = []
  · rwa [and_of_always hae]
  by_cases hbe : b.terms = []
  · rwa [and_always hbe]
  constructor
  · intro u hu
    obtain ⟨s, hs, t, ht, rfl⟩ := (mem_terms_and hae hbe).1 hu
    obtain ⟨k, hk⟩ := List.exists_mem_of_ne_nil _ (ha.proper s hs)
    exact List.ne_nil_of_mem (mem_union.2 (Or.inl hk))
  · intro k hk
    obtain ⟨u, hu, hku⟩ := mem_literals.1 hk
    obtain ⟨s, hs, t, ht, rfl⟩ := (mem_terms_and hae hbe).1 hu
    rcases mem_union.1 hku with hk | hk
    · exact ha.below k (mem_literals.2 ⟨s, hs, hk⟩)
    · exact hb.below k (mem_literals.2 ⟨t, ht, hk⟩)

theorem or (ha : Known n a) (hb : Known n b) : Known n (a.or b) := by
  by_cases hae : a.terms = []
  · rw [or_always (Or.inl hae)]; exact always
  by_cases hbe : b.terms = []
  · rw [or_always (Or.inr hbe)]; exact always
  constructor
  · intro u hu
    rcases (mem_terms_or hae hbe).1 hu with hu | hu
    · exact ha.proper u hu
    · exact hb.proper u hu
  · intro k hk
    obtain ⟨u, hu, hku⟩ := mem_literals.1 hk
    rcases (mem_terms_or hae hbe).1 hu with hu | hu
    · exact ha.below k (mem_literals.2 ⟨u, hu, hku⟩)
    · exact hb.below k (mem_literals.2 ⟨u, hu, hku⟩)

theorem foldl_and {cs : List Condition} (ha : Known n a) (hcs : ∀ c ∈ cs, Known n c) :
    Known n (cs.foldl .and a) := by
  induction cs generalizing a with
  | nil => exact ha
  | cons c cs ih =>
    exact ih (ha.and (hcs c (by simp))) fun d hd => hcs d (by simp [hd])

theorem foldl_or {cs : List Condition} (ha : Known n a) (hcs : ∀ c ∈ cs, Known n c) :
    Known n (cs.foldl .or a) := by
  induction cs generalizing a with
  | nil => exact ha
  | cons c cs ih =>
    exact ih (ha.or (hcs c (by simp))) fun d hd => hcs d (by simp [hd])

end Known

/-- Literals numbered from `n` on do not change whether a known condition holds. -/
theorem Known.holdsOn_congr {n : Nat} {c : Condition} (hc : c.Known n) {S T : Int → Prop}
    (hST : ∀ k < (n : Int), S k ↔ T k) : HoldsOn S c ↔ HoldsOn T c :=
  Condition.holdsOn_congr fun k hk => hST k (hc.below k hk)

end Dataflow.Condition
