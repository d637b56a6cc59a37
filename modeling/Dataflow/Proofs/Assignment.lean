import Dataflow.Proofs.Condition

/-!
# Conditions under assignments

An assignment says of every branch whether it was taken. Conditions made by `always`, `literal`, `and`
and `or` mean under it what their names say, and for a condition of at most one term `implies` is sound:
what it accepts holds wherever the condition does. On branches that are taken, without negated ones, it
misses nothing either (`Condition.eval_laws`).
-/

namespace Dataflow.Condition

/-- The truth of a literal: `k` says that branch `k` was taken, `-k` that it was not. -/
def literalHolds (taken : Nat → Bool) (k : Int) : Bool :=
  if k < 0 then !taken k.natAbs else taken k.natAbs

/-- The truth of a condition. -/
def eval (taken : Nat → Bool) (c : Condition) : Bool :=
  c.isAlways || c.terms.any fun t => t.all (literalHolds taken)

/-- `b` holds wherever `a` does. -/
def Entails (a b : Condition) : Prop := ∀ taken, a.eval taken = true → b.eval taken = true

/-- The conditions that can be made. -/
inductive Built : Condition → Prop
  | always : Built always
  | literal (k : Int) : Built (literal k)
  | and {a b : Condition} (ha : Built a) (hb : Built b) : Built (a.and b)
  | or {a b : Condition} (ha : Built a) (hb : Built b) : Built (a.or b)

variable {taken : Nat → Bool} {a b c : Condition}

/-- The literals of a condition that was made are bounded. -/
theorem Built.known (h : c.Built) : ∃ n, c.Known n := by
  induction h with
  | always => exact ⟨0, .always⟩
  | literal k => exact ⟨(k + 1).toNat, .literal (by omega)⟩
  | and _ _ iha ihb =>
    obtain ⟨n, hn⟩ := iha
    obtain ⟨m, hm⟩ := ihb
    exact ⟨max n m, (hn.mono (by omega)).and (hm.mono (by omega))⟩
  | or _ _ iha ihb =>
    obtain ⟨n, hn⟩ := iha
    obtain ⟨m, hm⟩ := ihb
    exact ⟨max n m, (hn.mono (by omega)).or (hm.mono (by omega))⟩

/-! ## Truth and the literals that are true -/

theorem eval_iff_holdsOn : c.eval taken = true ↔ HoldsOn (fun k => literalHolds taken k = true) c := by
  simp [eval, isAlways, HoldsOn]

theorem eval_and : (a.and b).eval taken = (a.eval taken && b.eval taken) := by
  rw [Bool.eq_iff_iff, Bool.and_eq_true, eval_iff_holdsOn, eval_iff_holdsOn, eval_iff_holdsOn, holdsOn_and]

theorem eval_or : (a.or b).eval taken = (a.eval taken || b.eval taken) := by
  rw [Bool.eq_iff_iff, Bool.or_eq_true, eval_iff_holdsOn, eval_iff_holdsOn, eval_iff_holdsOn, holdsOn_or]

theorem HoldsOn.mono {S T : Int → Prop} (hST : ∀ k, S k → T k) (h : HoldsOn S c) : HoldsOn T c :=
  h.imp_right fun ⟨t, ht, hS⟩ => ⟨t, ht, fun k hk => hST k (hS k hk)⟩

/-- A condition of at most one term holds where all its literals do. -/
theorem IsPath.eval_iff (h : c.IsPath) : c.eval taken = true ↔ ∀ k ∈ c.literals, literalHolds taken k = true := by
  match c, h with
  | ⟨[]⟩, _ => simp [eval, isAlways, literals]
  | ⟨[u]⟩, _ => simp [eval, isAlways, literals]
  | ⟨_ :: _ :: _⟩, h => simp [IsPath] at h

/-- The assignment that takes the branches among the literals of `c` and no others. -/
def branches (c : Condition) (n : Nat) : Bool := (n : Int) ∈ c.literals

theorem literalHolds_branches {k : Int} (hk : 0 < k) : literalHolds c.branches k = true ↔ k ∈ c.literals := by
  have habs : (k.natAbs : Int) = k := by omega
  rw [literalHolds, if_neg (by omega), branches, habs, decide_eq_true_iff]

/-! ## Implication -/

/-- What the test on terms accepts holds wherever the condition does. -/
theorem IsPath.entails (ha : a.IsPath) (hb : b.Proper) (h : a.implies b = true) : a.Entails b := by
  intro taken hold
  have hliterals := ha.eval_iff.1 hold
  exact eval_iff_holdsOn.2 (((implies_iff_holdsOn ha hb).1 h).mono hliterals)

/-- Where no literal is negated, the branches that `a` names decide what follows from it. -/
theorem IsPath.implies_of_entails (ha : a.IsPath) (hb : b.Proper) (hpos : ∀ k ∈ a.literals ++ b.literals, 0 < k)
    (h : a.Entails b) : a.implies b = true := by
  have hold : a.eval a.branches = true := by
    refine ha.eval_iff.2 fun k hk => ?_
    exact (literalHolds_branches (hpos k (List.mem_append_left _ hk))).2 hk
  have hagree : ∀ k ∈ b.literals, literalHolds a.branches k = true ↔ k ∈ a.literals := fun k hk =>
    literalHolds_branches (hpos k (List.mem_append_right _ hk))
  exact (implies_iff_holdsOn ha hb).2 ((holdsOn_congr hagree).1 (eval_iff_holdsOn.1 (h a.branches hold)))

/-- **Conditions mean what they say.** Under every assignment `and` and `or` are conjunction and
disjunction. If `a` has at most one term, what it implies holds wherever `a` does; and without negated
literals it implies exactly that. -/
theorem eval_laws (a : Condition) (hb : b.Built) :
    (∀ taken, (a.and b).eval taken = true ↔ a.eval taken = true ∧ b.eval taken = true) ∧
    (∀ taken, (a.or b).eval taken = true ↔ a.eval taken = true ∨ b.eval taken = true) ∧
    (a.terms.length ≤ 1 → a.implies b = true → a.Entails b) ∧
    (a.terms.length ≤ 1 → (∀ k ∈ a.literals ++ b.literals, 0 < k) → (a.implies b = true ↔ a.Entails b)) := by
  obtain ⟨_, hknown⟩ := hb.known
  refine ⟨fun _ => by rw [eval_and, Bool.and_eq_true], fun _ => by rw [eval_or, Bool.or_eq_true], fun hone => ?_,
    fun hone hpos => ?_⟩
  · exact IsPath.entails hone hknown.proper
  · exact ⟨IsPath.entails hone hknown.proper, IsPath.implies_of_entails hone hknown.proper hpos⟩

/-- The path through branches 1 and 2 implies "1 and 2, or 3", and does not imply "2 and 3, or 4", which
fails when only 1 and 2 are taken. -/
theorem eval_laws_forked :
    let path := (literal 1).and (literal 2)
    let near := ((literal 1).and (literal 2)).or (literal 3)
    let far := ((literal 2).and (literal 3)).or (literal 4)
    near.Built ∧ far.Built ∧ path.terms.length ≤ 1 ∧ path.implies near = true ∧ path.Entails near ∧
      (∀ k ∈ path.literals ++ far.literals, 0 < k) ∧ path.implies far = false ∧ ¬ path.Entails far := by
  intro path near far
  have hnear : near.Built := .or (.and (.literal 1) (.literal 2)) (.literal 3)
  have hfar : far.Built := .or (.and (.literal 2) (.literal 3)) (.literal 4)
  have hpos : ∀ k ∈ path.literals ++ far.literals, 0 < k := by decide
  have hentails := (eval_laws path hnear).2.2.1 (by decide) (by decide)
  have hexact := (eval_laws path hfar).2.2.2 (by decide) hpos
  refine ⟨hnear, hfar, by decide, by decide, hentails, hpos, by decide, fun h => ?_⟩
  exact absurd (hexact.2 h) (by decide)

/-- Neither restriction can go: of two terms one may imply what the other does not, and a branch that is
taken or not taken follows from anything. -/
example :
    (((literal 1).or (literal 2)).implies (literal 1) = true ∧ ((literal 1).or (literal 2)).eval (· == 2) = true ∧
      (literal 1).eval (· == 2) = false) ∧
    (literal 1).implies ((literal 2).or (literal (-2))) = false ∧
      ((literal 2).or (literal (-2))).eval (· == 2) = true ∧ ((literal 2).or (literal (-2))).eval (· == 1) = true := by
  decide

end Dataflow.Condition
