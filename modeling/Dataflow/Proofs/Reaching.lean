import Dataflow.Proofs.Declared
import Mathlib.Data.List.Pairwise
import Mathlib.Logic.Relation

/-!
# What roots reach

The search through a graph ends with an empty queue, so it finds the nodes that lie on a way from the
starts and no others (`mem_reach`). The functions of a program that has been divided reach different
nodes (`Program.seeds_apart`), and every root belongs to one of them.
-/

namespace Dataflow

/-! ## The search -/

section
variable {next : Nat → List Nat}

/-- The node lies on a way from one of the starts. -/
def Reached (next : Nat → List Nat) (starts : List Nat) (n : Nat) : Prop :=
  ∃ i ∈ starts, Relation.ReflTransGen (fun i j => j ∈ next i) i n

/-- What is found was found before or is reached from the queue. -/
theorem reachWithin_sound : ∀ {fuel : Nat} {queue seen : List Nat} {n : Nat},
    n ∈ reachWithin next fuel queue seen → n ∈ seen ∨ Reached next queue n
  | 0, _, _, _, h => Or.inl h
  | _ + 1, [], _, _, h => Or.inl h
  | fuel + 1, first :: queue, seen, n, h => by
    have hlater : ∀ {more : List Nat}, Reached next (queue ++ more) n →
        (∀ m ∈ more, m ∈ next first) → Reached next (first :: queue) n := by
      rintro more ⟨i, hi, hway⟩ hmore
      rcases List.mem_append.1 hi with hi | hi
      · exact ⟨i, List.mem_cons_of_mem _ hi, hway⟩
      · exact ⟨first, List.mem_cons_self, .head (hmore i hi) hway⟩
    unfold reachWithin at h
    split at h
    · rcases reachWithin_sound h with h | h
      · exact Or.inl h
      · exact Or.inr (@hlater [] (by rwa [List.append_nil]) (by simp))
    · rcases reachWithin_sound h with h | h
      · rcases List.mem_append.1 h with h | h
        · exact Or.inl h
        · exact Or.inr ⟨first, List.mem_cons_self, by rw [List.mem_singleton.1 h]⟩
      · exact Or.inr (hlater h fun m hm => hm)

/-- The state of a search that can go on until its queue is empty: every edge out of a node that was
found leads to one that was found or waits, and there are steps for all that may still join the queue. -/
structure Searching (next : Nat → List Nat) (edges fuel : Nat) (queue seen : List Nat) : Prop where
  nodup : seen.Nodup
  closed : ∀ n ∈ seen, ∀ m ∈ next n, m ∈ seen ∨ m ∈ queue
  fuel : queue.length + edges ≤ fuel + (seen.flatMap next).length

/-- Distinct nodes have no more edges than there are. -/
def Bounds (next : Nat → List Nat) (edges : Nat) : Prop :=
  ∀ l : List Nat, l.Nodup → (l.flatMap next).length ≤ edges

namespace Searching

variable {edges fuel first : Nat} {queue seen : List Nat}

/-- A node that was found before leaves the queue. -/
theorem skip (h : Searching next edges (fuel + 1) (first :: queue) seen) (hseen : first ∈ seen) :
    Searching next edges fuel queue seen := by
  obtain ⟨hnodup, hclosed, hfuel⟩ := h
  refine ⟨hnodup, fun n hn m hm => ?_, ?_⟩
  · rcases hclosed n hn m hm with hm | hm
    · exact Or.inl hm
    · rcases List.mem_cons.1 hm with rfl | hm
      · exact Or.inl hseen
      · exact Or.inr hm
  · rw [List.length_cons] at hfuel
    omega

/-- A new node is noted, and its successors wait. -/
theorem note (h : Searching next edges (fuel + 1) (first :: queue) seen) (hnew : first ∉ seen) :
    Searching next edges fuel (queue ++ next first) (seen ++ [first]) := by
  obtain ⟨hnodup, hclosed, hfuel⟩ := h
  refine ⟨?_, fun n hn m hm => ?_, ?_⟩
  · rw [List.nodup_append]
    refine ⟨hnodup, by simp, ?_⟩
    intro a ha b hb
    rw [List.mem_singleton.1 hb]
    exact fun heq => hnew (heq ▸ ha)
  · rw [List.mem_append, List.mem_append, List.mem_singleton]
    rcases List.mem_append.1 hn with hn | hn
    · rcases hclosed n hn m hm with hm | hm
      · exact Or.inl (Or.inl hm)
      · rcases List.mem_cons.1 hm with rfl | hm
        · exact Or.inl (Or.inr rfl)
        · exact Or.inr (Or.inl hm)
    · rw [List.mem_singleton.1 hn] at hm
      exact Or.inr (Or.inr hm)
  · rw [List.length_cons] at hfuel
    rw [List.flatMap_append, List.length_append, List.length_append, List.flatMap_singleton]
    omega

end Searching

/-- What was found or waits is found in the end, with all that follows it. -/
theorem reachWithin_closed {edges : Nat} (hedges : Bounds next edges) : ∀ {fuel : Nat} {queue seen : List Nat},
    Searching next edges fuel queue seen →
      (∀ n, n ∈ seen ∨ n ∈ queue → n ∈ reachWithin next fuel queue seen) ∧
        ∀ n ∈ reachWithin next fuel queue seen, ∀ m ∈ next n, m ∈ reachWithin next fuel queue seen
  | fuel, [], seen, h => by
    have hdone : reachWithin next fuel [] seen = seen := by cases fuel <;> rfl
    rw [hdone]
    exact ⟨fun n hn => by simpa using hn, fun n hn m hm => by simpa using h.closed n hn m hm⟩
  | 0, first :: queue, seen, h => by
    have hfuel := h.fuel
    have hbound := hedges seen h.nodup
    rw [List.length_cons] at hfuel
    omega
  | fuel + 1, first :: queue, seen, h => by
    unfold reachWithin
    split
    · rename_i hseen
      obtain ⟨hkeeps, hclosed⟩ := reachWithin_closed hedges (h.skip hseen)
      refine ⟨fun n hn => hkeeps n ?_, hclosed⟩
      rcases hn with hn | hn
      · exact Or.inl hn
      · rcases List.mem_cons.1 hn with rfl | hn
        · exact Or.inl hseen
        · exact Or.inr hn
    · rename_i hnew
      obtain ⟨hkeeps, hclosed⟩ := reachWithin_closed hedges (h.note hnew)
      refine ⟨fun n hn => hkeeps n ?_, hclosed⟩
      rw [List.mem_append, List.mem_append, List.mem_singleton]
      rcases hn with hn | hn
      · exact Or.inl (Or.inl hn)
      · rcases List.mem_cons.1 hn with rfl | hn
        · exact Or.inl (Or.inr rfl)
        · exact Or.inr (Or.inl hn)

/-- **The search finds what the starts reach.** -/
theorem mem_reach {edges : Nat} (hedges : Bounds next edges) {starts : List Nat} {n : Nat} :
    n ∈ reach next edges starts ↔ Reached next starts n := by
  constructor
  · intro h
    exact (reachWithin_sound h).resolve_left (by simp)
  · rintro ⟨i, hi, hway⟩
    have hstart : Searching next edges (starts.length + edges) starts [] := ⟨List.nodup_nil, by simp, by simp⟩
    obtain ⟨hkeeps, hclosed⟩ := reachWithin_closed hedges hstart
    induction hway with
    | refl => exact hkeeps i (Or.inr hi)
    | tail _ hedge ih => exact hclosed _ ih _ hedge

/-- What one node reaches, where a relation says which nodes follow which. -/
theorem mem_reach_single {edges : Nat} (hedges : Bounds next edges) {R : Nat → Nat → Prop}
    (hnext : ∀ i j, j ∈ next i ↔ R i j) {i n : Nat} :
    n ∈ reach next edges [i] ↔ Relation.ReflTransGen R i n := by
  have hedge : (fun i j => j ∈ next i) = R := by
    funext i j
    exact propext (hnext i j)
  rw [mem_reach hedges, Reached, hedge]
  simp

/-- Sorting things by their keys gives none of them twice. -/
theorem length_flatMap_filter_le {α : Type} (key : α → Nat) : ∀ {l : List Nat} (xs : List α), l.Nodup →
    (l.flatMap fun i => xs.filter fun x => key x = i).length ≤ xs.length
  | [], _, _ => by simp
  | i :: l, xs, hl => by
    rw [List.nodup_cons] at hl
    have hothers : (l.flatMap fun j => xs.filter fun x => key x = j) =
        l.flatMap fun j => (xs.filter fun x => !decide (key x = i)).filter fun x => key x = j := by
      refine List.flatMap_congr fun j hj => ?_
      rw [List.filter_filter]
      refine List.filter_congr fun x _ => ?_
      by_cases hx : key x = j
      · have hne : j ≠ i := fun heq => hl.1 (heq ▸ hj)
        simp [hx, hne]
      · simp [hx]
    have hrest := length_flatMap_filter_le key (xs.filter fun x => !decide (key x = i)) hl.2
    have hsplit := List.length_eq_length_filter_add (l := xs) fun x => decide (key x = i)
    rw [List.flatMap_cons, List.length_append, hothers]
    omega

end

/-! ## The graph of a program -/

namespace Program

/-- An arrow leads from the first node to the second. -/
abbrev Edge (p : Program) (i j : Nat) : Prop := j ∈ p.successors i

/-- Arrows lead from the first node to the second. -/
abbrev Reaches (p : Program) : Nat → Nat → Prop := Relation.ReflTransGen p.Edge

variable {p : Program}

section
variable (hp : p.Consistent)
include hp

theorem mem_outgoing {a i : Nat} : a ∈ (p.node i).outgoing ↔ a < p.arrows.length ∧ (p.arrow a).source = i := by
  constructor
  · intro ha
    obtain ⟨pin, hpin, ha⟩ := List.mem_flatMap.1 ha
    obtain ⟨k, hk⟩ := List.mem_iff_getElem?.1 hpin
    rw [hp.leaving i k pin hk] at ha
    simp only [List.mem_filter, List.mem_range, decide_eq_true_eq] at ha
    exact ⟨ha.1, ha.2.1⟩
  · rintro ⟨ha, rfl⟩
    have hpin := (hp.ends a ha).2.2
    refine List.mem_flatMap.2 ⟨_, List.getElem_mem hpin, ?_⟩
    rw [hp.leaving _ _ _ (List.getElem?_eq_getElem hpin)]
    simp [ha]

theorem edge_iff {i j : Nat} :
    p.Edge i j ↔ ∃ a < p.arrows.length, (p.arrow a).source = i ∧ (p.arrow a).target = j := by
  simp [Edge, successors, mem_outgoing hp, and_assoc]

omit hp in
/-- A sink is a node that nothing follows. -/
theorem isSink_iff {n : Nat} : (p.node n).isSink = true ↔ ∀ j, ¬ p.Edge n j := by
  have hout : (p.node n).isSink = true ↔ (p.node n).outgoing = [] := by
    simp [Node.isSink, Node.outgoing, List.flatMap_eq_nil_iff]
  rw [hout, ← List.eq_nil_iff_forall_not_mem, successors, List.map_eq_nil_iff]

theorem outgoing_perm (i : Nat) :
    (p.node i).outgoing.Perm ((List.range p.arrows.length).filter fun a => (p.arrow a).source = i) := by
  have hnodup : (p.node i).outgoing.Nodup := by
    have hmap := Walk.departures_nodup hp i ((p.node i).pins.map fun _ => Condition.always)
    rwa [Walk.departures_arrows (by simp)] at hmap
  refine (List.perm_ext_iff_of_nodup hnodup (List.nodup_range.filter _)).2 fun a => ?_
  simp [mem_outgoing hp]

theorem successors_bounds : Bounds p.successors p.arrows.length := by
  intro l hl
  have hperm := List.Perm.flatMap_left l fun i _ => outgoing_perm hp i
  have hlen := length_flatMap_filter_le (fun a => (p.arrow a).source) (List.range p.arrows.length) hl
  rw [← hperm.length_eq, List.length_range] at hlen
  have hmap : l.flatMap p.successors = (l.flatMap fun i => (p.node i).outgoing).map fun a => (p.arrow a).target :=
    List.map_flatMap.symm
  rwa [hmap, List.length_map]

theorem mem_reachOf {s : Seed} {n : Nat} : n ∈ p.reachOf s ↔ ∃ i ∈ s.roots, p.Reaches i n :=
  mem_reach (successors_bounds hp)

end

/-! ## The functions of a program -/

theorem checkShared_ok : ∀ {seeds : List Seed} {before : List (Seed × List Nat)}, p.checkShared before seeds = .ok () →
    (∀ s ∈ seeds, ∀ n ∈ p.reachOf s, ∀ owner ∈ before, n ∉ owner.2) ∧
      seeds.Pairwise fun s t => ∀ n, n ∈ p.reachOf s → n ∉ p.reachOf t
  | [], _, _ => ⟨by simp, .nil⟩
  | s :: rest, before, h => by
    simp only [checkShared] at h
    split at h
    · cases h
    · rename_i hshared
      obtain ⟨hbefore, hrest⟩ := checkShared_ok h
      have hfirst : ∀ n ∈ p.reachOf s, ∀ owner ∈ before, n ∉ owner.2 := by
        intro n hn owner howner hmem
        have hfind := List.find?_eq_none.1 (Option.map_eq_none_iff.1 (List.findSome?_eq_none_iff.1 hshared n hn))
        exact hfind owner howner (by simpa using hmem)
      refine ⟨fun t ht n hn owner howner => ?_, List.pairwise_cons.2 ⟨fun t ht n hn hn' => ?_, hrest⟩⟩
      · rcases List.mem_cons.1 ht with rfl | ht
        · exact hfirst n hn owner howner
        · exact hbefore t ht n hn owner (List.mem_append_left _ howner)
      · exact hbefore t ht n hn' (s, p.reachOf s) (by simp) hn

variable {seeds : List Seed}

/-- No node is reached by two functions. -/
theorem seeds_apart (hp : p.Consistent) (hseeds : p.seeds = .ok seeds) {s t : Seed} (hs : s ∈ seeds) (ht : t ∈ seeds)
    {i j n : Nat} (hi : i ∈ s.roots) (hj : j ∈ t.roots) (hin : p.Reaches i n) (hjn : p.Reaches j n) : s = t := by
  obtain ⟨⟨named, unnamed⟩, _, hseeds⟩ := Except.bind_ok.1 hseeds
  obtain ⟨u, hshared, hseeds⟩ := Except.bind_ok.1 hseeds
  cases hseeds
  by_contra hne
  have hsymm : Std.Symm fun s t => ∀ n, n ∈ p.reachOf s → n ∉ p.reachOf t :=
    ⟨fun _ _ h n hn hn' => h n hn' hn⟩
  exact (checkShared_ok hshared).2.forall hs ht hne n ((mem_reachOf hp).2 ⟨i, hi, hin⟩) ((mem_reachOf hp).2 ⟨j, hj, hjn⟩)

/-- Every root belongs to a function. -/
theorem exists_seed (hseeds : p.seeds = .ok seeds) {i : Nat} (hi : i ∈ p.roots) : ∃ s ∈ seeds, i ∈ s.roots := by
  obtain ⟨⟨named, unnamed⟩, hsplit, hseeds⟩ := Except.bind_ok.1 hseeds
  obtain ⟨u, _, hseeds⟩ := Except.bind_ok.1 hseeds
  cases hseeds
  cases hname : (p.node i).name with
  | some name =>
    have hseed : ⟨name, [i], some i⟩ ∈ named := by
      rw [splitRoots_named hsplit]
      exact List.mem_filterMap.2 ⟨i, hi, by simp [hname]⟩
    refine ⟨⟨name, [i], some i⟩, ?_, List.mem_singleton_self i⟩
    split
    · exact hseed
    · exact List.mem_append_left _ hseed
  | none =>
    have hun : i ∈ unnamed := by
      rw [(splitRoots_ok hsplit).1]
      simp [hi, hname]
    refine ⟨⟨mainName, unnamed, none⟩, ?_, hun⟩
    rw [if_neg (by simpa using List.ne_nil_of_mem hun)]
    simp

theorem seed_roots (hseeds : p.seeds = .ok seeds) {s : Seed} (hs : s ∈ seeds) : ∀ i ∈ s.roots, i ∈ p.roots := by
  intro i hi
  rcases seeds_ok hseeds hs with ⟨j, hj, hroots, _⟩ | ⟨hroots, _, _⟩
  · rw [hroots, List.mem_singleton] at hi
    rwa [hi]
  · rw [hroots] at hi
    exact (List.mem_filter.1 hi).1

end Program

end Dataflow
