import Dataflow.Proofs.Reaching

/-!
# Dividing a program into functions

There is one function for each named root and one for all roots without a name. `Program.seeds_exact`
says that a program is divided exactly if the roots without a name hold the unit value and no node is
reached from the roots of two functions, and that a refusal names a node and two functions that reach
it. What the division can do is said once, in `Program.seeds_cases`.
-/

namespace Dataflow

namespace Program

variable {p : Program}

/-! ## The functions of the roots -/

/-- One function for each named root, and the main function for the others if there are any. -/
def functionSeeds (p : Program) : List Seed :=
  if (p.unnamed p.roots).isEmpty then p.namedSeeds p.roots
  else p.namedSeeds p.roots ++ [⟨mainName, p.unnamed p.roots, none⟩]

/-- The roots of the function with that number reach the node. -/
def Owns (p : Program) (k n : Nat) : Prop :=
  ∃ s, p.functionSeeds[k]? = some s ∧ ∃ i ∈ s.roots, p.Reaches i n

/-! ## Shared nodes -/

/-- A refusal names a node that two of the functions reach, the one that was looked at first and the one
at which the node was met again. -/
theorem checkShared_error : ∀ {seeds : List Seed} (done : List Seed) {e : PlanError},
    p.checkShared (done.map fun s => (s, p.reachOf s)) seeds = .error e →
      ∃ (n k l : Nat) (s t : Seed), k < l ∧ (done ++ seeds)[k]? = some s ∧ (done ++ seeds)[l]? = some t ∧
        n ∈ p.reachOf s ∧ n ∈ p.reachOf t ∧ e = .sharedNode n s.name t.name
  | [], _, _, h => by cases h
  | t :: rest, done, e, h => by
    simp only [checkShared] at h
    split at h
    · rename_i n first hshared
      cases h
      obtain ⟨m, hm, hfind⟩ := List.exists_of_findSome?_eq_some hshared
      obtain ⟨owner, howner, heq⟩ := Option.map_eq_some_iff.1 hfind
      cases heq
      obtain ⟨s, hs, rfl⟩ := List.mem_map.1 (List.mem_of_find?_eq_some howner)
      obtain ⟨k, hk, rfl⟩ := List.mem_iff_getElem.1 hs
      refine ⟨n, k, done.length, done[k], t, hk, ?_, by simp, by simpa using List.find?_some howner, hm, rfl⟩
      rw [List.getElem?_append_left hk, List.getElem?_eq_getElem hk]
    · have hnext : done.map (fun s => (s, p.reachOf s)) ++ [(t, p.reachOf t)] =
          (done ++ [t]).map fun s => (s, p.reachOf s) := by simp
      rw [hnext] at h
      simpa using checkShared_error (done ++ [t]) h

theorem owns_iff (hp : p.Consistent) {k n : Nat} :
    p.Owns k n ↔ ∃ s, p.functionSeeds[k]? = some s ∧ n ∈ p.reachOf s := by
  simp only [Owns, mem_reachOf hp]

/-- What was not refused is owned once. -/
theorem owns_unique (hp : p.Consistent) (h : p.checkShared [] p.functionSeeds = .ok ()) {k l n : Nat}
    (hk : p.Owns k n) (hl : p.Owns l n) : k = l := by
  obtain ⟨s, hs, hns⟩ := (owns_iff hp).1 hk
  obtain ⟨t, ht, hnt⟩ := (owns_iff hp).1 hl
  obtain ⟨hk', rfl⟩ := List.getElem?_eq_some_iff.1 hs
  obtain ⟨hl', rfl⟩ := List.getElem?_eq_some_iff.1 ht
  have hapart := List.pairwise_iff_getElem.1 (checkShared_ok h).2
  rcases Nat.lt_trichotomy k l with hlt | heq | hlt
  · exact absurd hnt (hapart k l hk' hl' hlt n hns)
  · exact heq
  · exact absurd hns (hapart l k hl' hk' hlt n hnt)

/-! ## The division -/

/-- **What the division can do:** refuse a root without a name for its type, refuse a node that two
functions reach, or give the functions. -/
theorem seeds_cases (hp : p.Consistent) :
    (∃ i ∈ p.roots, (p.node i).name = none ∧ (p.node i).ty ≠ .unit ∧
      p.seeds = .error (.mainInput i (p.node i).ty)) ∨
    (p.StartsAtUnit p.roots ∧ ∃ (n k l : Nat) (s t : Seed), k < l ∧
      p.functionSeeds[k]? = some s ∧ p.functionSeeds[l]? = some t ∧
      p.Owns k n ∧ p.Owns l n ∧ p.seeds = .error (.sharedNode n s.name t.name)) ∨
    (p.StartsAtUnit p.roots ∧ (∀ k l n, p.Owns k n → p.Owns l n → k = l) ∧ p.seeds = .ok p.functionSeeds) := by
  rcases p.splitRoots_cases p.roots with ⟨hunit, hsplit⟩ | ⟨i, hi, hname, hty, hsplit⟩
  · have hseeds : p.seeds = (p.checkShared [] p.functionSeeds).bind fun _ => .ok p.functionSeeds := by
      rw [seeds, hsplit]
      rfl
    cases hshared : p.checkShared [] p.functionSeeds with
    | ok u => exact Or.inr (Or.inr ⟨hunit, fun k l n => owns_unique hp hshared, by rw [hseeds, hshared]; rfl⟩)
    | error e =>
      obtain ⟨n, k, l, s, t, hlt, hk, hl, hns, hnt, rfl⟩ := checkShared_error [] hshared
      exact Or.inr (Or.inl ⟨hunit, n, k, l, s, t, hlt, hk, hl, (owns_iff hp).2 ⟨s, hk, hns⟩,
        (owns_iff hp).2 ⟨t, hl, hnt⟩, by rw [hseeds, hshared]; rfl⟩)
  · exact Or.inl ⟨i, hi, hname, hty, by rw [seeds, hsplit]; rfl⟩

/-- **Programs are divided into functions exactly.** -/
theorem seeds_exact {d : Draft} (hread : d.ReadsAs p) :
    ((∃ seeds, p.seeds = .ok seeds) ↔
      (∀ i ∈ p.roots, (p.node i).name = none → (p.node i).ty = .unit) ∧
        ∀ k l n, p.Owns k n → p.Owns l n → k = l) ∧
    (∀ seeds, p.seeds = .ok seeds →
      seeds = p.functionSeeds ∧ ∀ i ∈ p.roots, ∀ n, p.Reaches i n → ∃! k, p.Owns k n) ∧
    ∀ e, p.seeds = .error e →
      (∃ i ∈ p.roots, (p.node i).name = none ∧ (p.node i).ty ≠ .unit ∧ e = .mainInput i (p.node i).ty) ∨
      ∃ (n k l : Nat) (s t : Seed), k < l ∧ p.functionSeeds[k]? = some s ∧ p.functionSeeds[l]? = some t ∧
        p.Owns k n ∧ p.Owns l n ∧ e = .sharedNode n s.name t.name := by
  rcases seeds_cases hread.consistent with ⟨i, hi, hname, hty, herr⟩ |
    ⟨hunit, n, k, l, s, t, hlt, hk, hl, hkn, hln, herr⟩ | ⟨hunit, hapart, hok⟩
  · rw [herr]
    refine ⟨⟨fun h => by simp at h, fun h => absurd (h.1 i hi hname) hty⟩, by simp, fun e he => ?_⟩
    cases he
    exact Or.inl ⟨i, hi, hname, hty, rfl⟩
  · rw [herr]
    refine ⟨⟨fun h => by simp at h, fun h => ?_⟩, by simp, fun e he => ?_⟩
    · exact absurd (h.2 k l n hkn hln) (Nat.ne_of_lt hlt)
    · cases he
      exact Or.inr ⟨n, k, l, s, t, hlt, hk, hl, hkn, hln, rfl⟩
  · refine ⟨⟨fun _ => ⟨hunit, hapart⟩, fun _ => ⟨_, hok⟩⟩, fun seeds hseeds => ?_, fun e he => ?_⟩
    · obtain rfl : p.functionSeeds = seeds := by simpa [hok] using hseeds
      refine ⟨rfl, fun i hi n hreach => ?_⟩
      obtain ⟨s, hs, his⟩ := exists_seed hok hi
      obtain ⟨k, hk⟩ := List.mem_iff_getElem?.1 hs
      have howns : p.Owns k n := ⟨s, hk, i, his, hreach⟩
      exact ⟨k, howns, fun l hl => hapart l k n hl howns⟩
    · rw [hok] at he
      cases he

end Program

/-- The roots without a name meet in a pair; the named root has a function of its own. -/
def Draft.pairedRoots : Draft where
  nodes := [⟨"()", none, ["_"], false⟩, ⟨"()", none, ["_"], false⟩, ⟨"((), ())", none, ["_"], true⟩,
    ⟨"Int", none, [], true⟩, ⟨"Int", some "f", ["_"], false⟩, ⟨"Int", none, [], true⟩]
  connections := [⟨0, 2, 0, "$0"⟩, ⟨1, 2, 0, "$1"⟩, ⟨2, 3, 0, "1"⟩, ⟨4, 5, 0, "+ 1"⟩]

/-- Two named roots meet in a sink. -/
def Draft.sharedSink : Draft where
  nodes := [⟨"Int", some "f", ["_"], false⟩, ⟨"Int", some "g", ["_"], false⟩, ⟨"Int", none, [], true⟩]
  connections := [⟨0, 2, 0, "$"⟩, ⟨1, 2, 0, "$"⟩]

theorem Program.seeds_exact_pairedRoots :
    (∃ p seeds, Draft.pairedRoots.ReadsAs p ∧ p.seeds = .ok seeds ∧ p.Reaches 0 3 ∧ p.Reaches 1 3 ∧ ∃! k, p.Owns k 3) ∧
    ∃ p e, Draft.sharedSink.ReadsAs p ∧ p.seeds = .error e ∧
      ∃ (n k l : Nat) (s t : Seed), k < l ∧ p.Owns k n ∧ p.Owns l n ∧ e = .sharedNode n s.name t.name := by
  constructor
  · obtain ⟨p, hp, hfacts⟩ := Except.any_toOption.1 (show (Draft.pairedRoots.readWith .prelude).toOption.any
      (fun p => p.seeds.toOption.any (fun _ => true) && decide (0 ∈ p.roots ∧ 2 ∈ p.successors 0 ∧ 2 ∈ p.successors 1 ∧
        3 ∈ p.successors 2)) = true by decide +kernel)
    rw [Bool.and_eq_true, decide_eq_true_eq, Except.any_toOption] at hfacts
    obtain ⟨⟨seeds, hseeds, -⟩, hroot, hfirst, hsecond, hsink⟩ := hfacts
    have hread : Draft.pairedRoots.ReadsAs p := Draft.readsAs_of_readWith hp
    have hreach : p.Reaches 0 3 := .tail (.single hfirst) hsink
    exact ⟨p, seeds, hread, hseeds, hreach, .tail (.single hsecond) hsink,
      ((seeds_exact hread).2.1 seeds hseeds).2 0 hroot 3 hreach⟩
  · obtain ⟨p, hp, hfacts⟩ := Except.any_toOption.1 (show (Draft.sharedSink.readWith .prelude).toOption.any
      (fun p => p.seeds.toOption.isNone && p.roots.all fun i => (p.node i).name.isSome) = true by decide +kernel)
    have hread : Draft.sharedSink.ReadsAs p := Draft.readsAs_of_readWith hp
    rw [Bool.and_eq_true, List.all_eq_true] at hfacts
    cases hseeds : p.seeds with
    | ok seeds =>
      rw [hseeds] at hfacts
      cases hfacts.1
    | error e =>
      rcases (seeds_exact hread).2.2 e hseeds with ⟨i, hi, hname, -⟩ | ⟨n, k, l, s, t, hlt, -, -, hk, hl, he⟩
      · have hsome := hfacts.2 i hi
        rw [hname] at hsome
        cases hsome
      · exact ⟨p, e, hread, hseeds, n, k, l, s, t, hlt, hk, hl, he⟩

end Dataflow
