import Dataflow.Proofs.Reaching

/-!
# Walks are exhaustive

A node that can be visited waits until it is (`Walk.Queued`), and a walk has a step for every node, so
it goes on until nothing waits (`Walk.run_exhausted`). When a function has been planned, every node
that all arrows have entered was visited and every arrow out of it followed
(`Program.planFunction_exhausted`).
-/

namespace Dataflow

/-! ## The queue -/

namespace Walk

open Events History

variable {p : Program} {s : Seed} {w w' : Walk} {h : Events} {done : List Nat}

/-- Every node that can be visited has been or waits: the roots, and the nodes all of whose arrows
have been followed. -/
structure Queued (p : Program) (s : Seed) (done : List Nat) (w : Walk) : Prop where
  roots : ∀ i ∈ s.roots, i ∈ done ∨ i ∈ w.waiting.map (·.1)
  full : ∀ n, (p.node n).incoming ≠ [] → w.Full p n → n ∈ done ∨ n ∈ w.waiting.map (·.1)

theorem Queued.congr (h : Queued p s done w) (hwaiting : w'.waiting = w.waiting) (hfollowed : w'.followed = w.followed) :
    Queued p s done w' := by
  have hfull : ∀ n, w'.Full p n ↔ w.Full p n := by
    intro n
    rw [Full, Full, arrivals, arrivals, hfollowed]
  refine ⟨fun i hi => ?_, fun n hn hall => ?_⟩
  · rw [hwaiting]
    exact h.roots i hi
  · rw [hwaiting]
    exact h.full n hn ((hfull n).1 hall)

theorem arrive_waiting {n : Nat} (harrive : w.arrive p n = .ok w') :
    w'.followed = w.followed ∧ ∃ c, w'.waiting.Perm ((n, c) :: w.waiting) := by
  have henqueue : ∀ (w : Walk) (c : Condition), (w.enqueue p n c).followed = w.followed := by
    intro w c
    unfold enqueue
    split <;> rfl
  unfold arrive at harrive
  dsimp only at harrive
  split at harrive
  · obtain ⟨slots, _, harrive⟩ := Except.bind_ok.1 harrive
    obtain ⟨w₁, hdefine, harrive⟩ := Except.bind_ok.1 harrive
    cases harrive
    obtain ⟨_, rfl⟩ := define_ok hdefine
    exact ⟨henqueue _ _, _, enqueue_perm p _ n _⟩
  · cases harrive
    exact ⟨henqueue _ _, _, enqueue_perm p _ n _⟩

/-- An arrow that is followed is noted. Its target waits if it was the last arrow into it. -/
theorem follow_waiting {a : Nat} {c : Condition} (hfollow : w.follow p a c = .ok w') :
    w'.followed = w.followed ++ [(a, c)] ∧ (∀ n ∈ w.waiting.map (·.1), n ∈ w'.waiting.map (·.1)) ∧
      (w'.Full p (p.arrow a).target → (p.arrow a).target ∈ w'.waiting.map (·.1)) := by
  obtain ⟨w₁, hbind, hfollow⟩ := follow_ok hfollow
  obtain ⟨hfollowed, hwaiting⟩ : w₁.followed = w.followed ∧ w₁.waiting = w.waiting := by
    rcases hbind with ⟨_, rfl⟩ | ⟨_, hbind⟩
    · exact ⟨rfl, rfl⟩
    · unfold bindTarget at hbind
      split at hbind
      · cases hbind
      · split at hbind
        · obtain ⟨_, rfl⟩ := define_ok hbind
          exact ⟨rfl, rfl⟩
        · cases hbind
  have hnoted : (w₁.note (a, c)).followed = w.followed ++ [(a, c)] := by rw [← hfollowed]; rfl
  rcases hfollow with ⟨_, harrive⟩ | ⟨hopen, rfl⟩
  · obtain ⟨hsame, d, hperm⟩ := arrive_waiting harrive
    have hmem : ∀ n, n ∈ w'.waiting.map (·.1) ↔ n = (p.arrow a).target ∨ n ∈ w.waiting.map (·.1) := by
      intro n
      rw [(hperm.map (·.1)).mem_iff, List.map_cons, List.mem_cons, ← hwaiting]
      rfl
    refine ⟨hsame.trans hnoted, fun n hn => ?_, fun _ => ?_⟩
    · exact (hmem n).2 (Or.inr hn)
    · exact (hmem _).2 (Or.inl rfl)
  · refine ⟨hnoted, fun n hn => ?_, fun hfull => absurd hfull hopen⟩
    rw [← hwaiting] at hn
    exact hn

theorem follow_queued (h : Queued p s done w) {a : Nat} {c : Condition} (hfollow : w.follow p a c = .ok w') :
    Queued p s done w' := by
  obtain ⟨hfollowed, hkeeps, hlast⟩ := follow_waiting hfollow
  refine ⟨fun i hi => (h.roots i hi).imp_right (hkeeps i), fun n hn hfull => ?_⟩
  by_cases htarget : (p.arrow a).target = n
  · subst htarget
    exact Or.inr (hlast hfull)
  · have hsame : w'.arrivals p n = w.arrivals p n := by
      simp [arrivals, hfollowed, List.filter_append, htarget]
    rw [Full, hsame] at hfull
    exact (h.full n hn hfull).imp_right (hkeeps n)

theorem followAll_queued : ∀ {items : List (Nat × Condition)} {w : Walk}, Queued p s done w →
    w.followAll p items = .ok w' → Queued p s done w'
  | [], w, h, hfollow => by
    cases hfollow
    exact h
  | (a, c) :: rest, w, h, hfollow => by
    simp only [followAll] at hfollow
    split at hfollow
    · rename_i w₁ hfirst
      exact followAll_queued (follow_queued h hfirst) hfollow
    · cases hfollow

/-- A node that is taken from the queue is done. -/
theorem next?_queued (h : Queued p s done w) {n : Nat} {c : Condition} (hnext : w.next? = some ((n, c), w')) :
    Queued p s (n :: done) w' := by
  obtain ⟨hwaiting, _, hfollowed, _⟩ := next?_ok hnext
  have hmem : ∀ m, m ∈ done ∨ m ∈ w.waiting.map (·.1) → m ∈ n :: done ∨ m ∈ w'.waiting.map (·.1) := by
    intro m hm
    rw [hwaiting, List.map_cons, List.mem_cons] at hm
    rw [List.mem_cons]
    rcases hm with hm | rfl | hm
    · exact Or.inl (Or.inr hm)
    · exact Or.inl (Or.inl rfl)
    · exact Or.inr hm
  refine ⟨fun i hi => hmem i (h.roots i hi), fun m hm hfull => hmem m (h.full m hm ?_)⟩
  rwa [Full, arrivals, hfollowed] at hfull

theorem sink_queued (h : Queued p s done w) {f : String} {n : Nat} {c : Condition} (hsink : w.sink p f n c = .ok w') :
    Queued p s done w' := by
  obtain ⟨_, _, hfollowed, hwaiting, _⟩ := sink_ok (s := s) hsink
  exact h.congr hwaiting hfollowed

theorem branch_queued (h : Queued p s done w) {n : Nat} {c : Condition} {conditions : List Condition}
    (hbranch : w.branch p n c = .ok (w', conditions)) : Queued p s done w' := by
  rcases branch_ok hbranch with ⟨_, rfl, _⟩ | ⟨_, labels, _, _, rfl, _⟩
  · exact h
  · exact h.congr rfl rfl

/-- A node that is visited leaves the queue, and the nodes that become ready join it. -/
theorem visit_queued (h : Queued p s done w) {f : String} {n : Nat} {c : Condition} {w₁ : Walk}
    (hnext : w.next? = some ((n, c), w₁)) (hvisit : w₁.visit p f n c = .ok w') : Queued p s (n :: done) w' := by
  have hpopped := next?_queued h hnext
  unfold visit at hvisit
  dsimp only at hvisit
  split at hvisit
  · exact sink_queued hpopped hvisit
  · obtain ⟨⟨w₂, conditions⟩, hbranch, hfollow⟩ := Except.bind_ok.1 hvisit
    exact followAll_queued (branch_queued hpopped hbranch) hfollow

/-- At the start the roots wait. -/
theorem mem_atRoots : ∀ {rest : List Nat} {w : Walk} {i : Nat}, i ∈ rest ∨ i ∈ w.waiting.map (·.1) →
    i ∈ (atRoots p s rest w).waiting.map (·.1)
  | [], w, i, hi => by simpa [atRoots] using hi
  | j :: rest, w, i, hi => by
    unfold atRoots
    refine mem_atRoots ?_
    rw [((enqueue_perm p _ j .always).map (·.1)).mem_iff, List.map_cons, List.mem_cons]
    have hsame : ∀ w' : Walk, w'.waiting = w.waiting → i ∈ rest ∨ i = j ∨ i ∈ w'.waiting.map (·.1) := by
      intro w' heq
      rw [heq]
      rcases hi with hi | hi
      · rcases List.mem_cons.1 hi with rfl | hi
        · exact Or.inr (Or.inl rfl)
        · exact Or.inl hi
      · exact Or.inr (Or.inr hi)
    cases s.param with
    | none => exact hsame _ rfl
    | some _ => exact hsame _ (by rw [unpack_eq]; rfl)

end Walk

/-! ## Walks to the end -/

/-- Nothing is left to do: every node that could be visited has been, and every arrow out of it was
followed. -/
structure Exhausted (p : Program) (s : Seed) (h : Events) : Prop where
  roots : ∀ i ∈ s.roots, i ∈ h.visited
  full : ∀ n, (p.node n).incoming ≠ [] → History.AllIn p h n → n ∈ h.visited
  left : ∀ a < p.arrows.length, (p.arrow a).source ∈ h.visited → a ∈ h.followed.map (·.1)

namespace History

open Events

variable {p : Program} {s : Seed} {h : Events}

theorem visited_nodup (hist : History p s h) : h.visited.Nodup := by
  induction hist with
  | start => simp [visited]
  | @step e h before allowed ih =>
    cases hvisit : e.visit? with
    | none => simpa [visited, hvisit] using ih
    | some x =>
      have hnew := (visit_allowed hvisit allowed).2
      simpa [visited, hvisit] using ⟨by simpa [visited] using hnew, ih⟩

/-- When all arrows into a node have been followed, there are as many arrivals as arrows. -/
theorem length_of_allIn (hp : p.Consistent) (hist : History p s h) {n : Nat} (hall : AllIn p h n) :
    (h.arrivals p n).length = (p.node n).incoming.length := by
  have hincoming : (p.node n).incoming.Nodup := by
    rw [hp.incoming]
    exact List.nodup_range.filter _
  have hsub : (p.node n).incoming ⊆ (h.arrivals p n).map (·.1) := by
    intro a ha
    obtain ⟨halt, ht⟩ := (mem_incoming hp).1 ha
    obtain ⟨x, hx, rfl⟩ := List.mem_map.1 (hall a halt ht)
    exact List.mem_map_of_mem (mem_arrivals.2 ⟨hx, ht⟩)
  have hle := (arrivals_subperm hp hist n).length_le
  have hge := (hincoming.subperm hsub).length_le
  rw [List.length_map] at hle hge
  omega

section
variable (hp : p.Consistent) (hroots : ∀ i ∈ s.roots, i ∈ p.roots)
include hp hroots

/-- Only nodes of the program become ready. -/
theorem ready_lt (hist : History p s h) {n : Nat} {c : Condition} (hready : Ready p h n c) : n < p.nodes.length := by
  have hentered : ∀ a ∈ (p.node n).incoming, n < p.nodes.length := by
    intro a ha
    obtain ⟨halt, rfl⟩ := (mem_incoming hp).1 ha
    exact (hp.ends a halt).2.1
  cases hready with
  | root hroot _ =>
    obtain ⟨_, _, _, _, hallowed⟩ := hist.exists_allowed hroot
    exact (Program.mem_roots.1 (hroots n hallowed.1)).1
  | met items hmeet =>
    obtain ⟨a, ha, _⟩ := met_positional hp hist (meet_met hp hist hmeet)
    exact hentered a ha
  | joined hjoin =>
    obtain ⟨a, ha⟩ := List.exists_mem_of_ne_nil _ hjoin.entered
    exact hentered a ha

theorem visited_lt (hist : History p s h) {n : Nat} (hn : n ∈ h.visited) : n < p.nodes.length := by
  obtain ⟨e, he, c, hvisit⟩ := mem_visited.1 hn
  obtain ⟨_, _, _, hbefore, hallowed⟩ := hist.exists_allowed he
  exact ready_lt hp hroots hbefore (visit_allowed hvisit hallowed).1

end

end History

namespace Walk

open Events History

variable {p : Program} {s : Seed} {w w' : Walk} {h : Events}

/-- As long as no node was visited, no arrow has been followed. -/
theorem Tracks.followed_eq_nil (ht : Tracks p s w h) (hnone : h.visited = []) : w.followed = [] := by
  rw [ht.followed]
  refine List.eq_nil_iff_forall_not_mem.2 fun x hx => ?_
  have hvisited := leaves_visited (ht.history.followed_leaves hx).2
  rw [hnone] at hvisited
  cases hvisited

/-- At the start the roots wait, and no node that arrows enter is ready. -/
theorem Tracks.atRoots_queued (ht : Tracks p s (atRoots p s s.roots {}) h) (hnone : h.visited = []) :
    Queued p s [] (atRoots p s s.roots {}) := by
  refine ⟨fun i hi => Or.inr (mem_atRoots (Or.inl hi)), fun n hn hfull => ?_⟩
  rw [Full, arrivals, ht.followed_eq_nil hnone] at hfull
  exact absurd (List.length_eq_zero_iff.1 hfull.symm) hn

section
variable (hp : p.Consistent) (hroots : ∀ i ∈ s.roots, i ∈ p.roots)
include hp hroots

/-- The nodes that were visited and those that wait are different nodes of the program. -/
theorem Tracks.length_le (ht : Tracks p s w h) : h.visited.length + w.waiting.length ≤ p.nodes.length := by
  have hnodup : (h.visited ++ w.waiting.map (·.1)).Nodup := by
    refine List.nodup_append.2 ⟨ht.history.visited_nodup, ht.nodup, ?_⟩
    intro a ha b hb hab
    obtain ⟨x, hx, rfl⟩ := List.mem_map.1 hb
    exact (ht.ready x hx).2 (hab ▸ ha)
  have hsub : h.visited ++ w.waiting.map (·.1) ⊆ List.range p.nodes.length := by
    intro n hn
    rw [List.mem_range]
    rcases List.mem_append.1 hn with hn | hn
    · exact visited_lt hp hroots ht.history hn
    · obtain ⟨x, hx, rfl⟩ := List.mem_map.1 hn
      exact ready_lt hp hroots ht.history (ht.ready x hx).1
  simpa using (hnodup.subperm hsub).length_le

omit hroots in
/-- A walk whose queue is empty has done all there is to do. -/
theorem Tracks.exhausted (ht : Tracks p s w h) (hq : Queued p s h.visited w) (hempty : w.waiting = [])
    (hleft : ∀ a < p.arrows.length, (p.arrow a).source ∈ h.visited → a ∈ h.followed.map (·.1)) : Exhausted p s h := by
  refine ⟨fun i hi => ?_, fun n hn hall => ?_, hleft⟩
  · simpa [hempty] using hq.roots i hi
  · have hfull : w.Full p n := by
      rw [Full, arrivals_eq ht]
      exact length_of_allIn hp ht.history hall
    simpa [hempty] using hq.full n hn hfull

omit hp hroots in
theorem next?_eq_none (hnext : w.next? = none) : w.waiting = [] := by
  unfold next? at hnext
  unfold waiting
  split at hnext
  · cases hnext
  · cases hnext
  · rename_i hready hforks
    rw [hready, hforks, List.append_nil]

omit hroots in
/-- If all arrows out of visited nodes are followed, they still are after a visit. -/
theorem Visits.leaves_followed {n : Nat} {h' : Events} (hvisits : Visits p n h h')
    (hleft : ∀ a < p.arrows.length, (p.arrow a).source ∈ h.visited → a ∈ h.followed.map (·.1)) :
    ∀ a < p.arrows.length, (p.arrow a).source ∈ h'.visited → a ∈ h'.followed.map (·.1) := by
  intro a ha hsource
  rw [hvisits.followed, List.mem_append]
  rw [hvisits.visited, List.mem_cons] at hsource
  rcases hsource with hsource | hsource
  · exact Or.inr ((Program.mem_outgoing hp).2 ⟨ha, hsource⟩)
  · exact Or.inl (hleft a ha hsource)

/-- A walk with as many steps as there are nodes to visit ends with an empty queue. -/
theorem run_exhausted {f : String} : ∀ {fuel : Nat} {w : Walk} {h : Events}, Tracks p s w h →
    Queued p s h.visited w → (∀ a < p.arrows.length, (p.arrow a).source ∈ h.visited → a ∈ h.followed.map (·.1)) →
    p.nodes.length ≤ fuel + h.visited.length → w.run p f fuel = .ok w' →
      ∃ h', Tracks p s w' h' ∧ h <:+ h' ∧ Exhausted p s h'
  | 0, w, h, ht, hq, hleft, hfuel, hrun => by
    obtain rfl : w = w' := Except.ok.inj hrun
    have hlen := ht.length_le hp hroots
    have hempty : w.waiting = [] := List.length_eq_zero_iff.1 (by omega)
    exact ⟨h, ht, List.suffix_refl h, ht.exhausted hp hq hempty hleft⟩
  | fuel + 1, w, h, ht, hq, hleft, hfuel, hrun => by
    simp only [run] at hrun
    split at hrun
    · rename_i hnext
      obtain rfl : w = w' := Except.ok.inj hrun
      exact ⟨h, ht, List.suffix_refl h, ht.exhausted hp hq (next?_eq_none hnext) hleft⟩
    · rename_i n c w₁ hnext
      split at hrun
      · rename_i w₂ hvisit
        have hentered : ∀ i ∈ s.roots, (p.node i).incoming = [] := fun i hi => (Program.mem_roots.1 (hroots i hi)).2
        obtain ⟨h₂, ht₂, hvisits⟩ := visit_tracks hp hentered ht hnext hvisit
        have hq₂ : Queued p s h₂.visited w₂ := by
          rw [hvisits.visited]
          exact visit_queued hq hnext hvisit
        have hleft₂ := hvisits.leaves_followed hp hleft
        have hfuel₂ : p.nodes.length ≤ fuel + h₂.visited.length := by
          rw [hvisits.visited, List.length_cons]
          omega
        obtain ⟨h', ht', hkeeps, hdone⟩ := run_exhausted ht₂ hq₂ hleft₂ hfuel₂ hrun
        exact ⟨h', ht', hvisits.keeps.trans hkeeps, hdone⟩
      · cases hrun

end

end Walk

/-- A function is planned by a walk to the end. -/
theorem Program.planFunction_exhausted {p : Program} (hp : p.Consistent) {seeds : List Seed}
    (hseeds : p.seeds = .ok seeds) {s : Seed} (hs : s ∈ seeds) {f : FunctionPlan} (hplan : p.planFunction s = .ok f) :
    ∃ h, Planned p s f h ∧ Exhausted p s h := by
  have hrooted := seed_rooted hseeds hs
  obtain ⟨w, hrun, hplan⟩ := Except.bind_ok.1 hplan
  obtain ⟨h₀, ht₀, hnone, hall⟩ := hrooted.atRoots_history hp
  have hqueued : Walk.Queued p s h₀.visited (Walk.atRoots p s s.roots {}) := by
    rw [hnone]
    exact ht₀.atRoots_queued hnone
  obtain ⟨h, ht, hkeeps, hdone⟩ := Walk.run_exhausted hp (seed_roots hseeds hs) ht₀ hqueued
    (by simp [hnone]) (by simp) hrun
  split at hplan
  · cases hplan
  · rename_i body hbody
    cases hplan
    exact ⟨h, planned_of_tracks hseeds hs ht ⟨h₀, hkeeps, hnone, hall⟩ hbody, hdone⟩

/-- Every function of a plan belongs to a seed of the program and was walked to the end. -/
theorem Program.plan_exhausted {p : Program} (hp : p.Consistent) {plan : ProgramPlan} (hplan : p.plan = .ok plan)
    {f : FunctionPlan} (hf : f ∈ plan.functions) :
    ∃ seeds s h, p.seeds = .ok seeds ∧ s ∈ seeds ∧ Planned p s f h ∧ Exhausted p s h := by
  obtain ⟨seeds, hseeds, hplan⟩ := Except.bind_ok.1 hplan
  obtain ⟨functions, hfunctions, hplan⟩ := Except.bind_ok.1 hplan
  cases hplan
  obtain ⟨s, hs, hfs⟩ := planFunctions_ok hfunctions f hf
  obtain ⟨h, hplanned, hdone⟩ := planFunction_exhausted hp hseeds hs hfs
  exact ⟨seeds, s, h, hseeds, hs, hplanned, hdone⟩

/-- Every root belongs to a function of the plan. -/
theorem Program.plan_rootsOf {p : Program} (hp : p.Consistent) {plan : ProgramPlan} (hplan : p.plan = .ok plan)
    {i : Nat} (hi : i ∈ p.roots) : ∃ f ∈ plan.functions, i ∈ p.rootsOf f := by
  obtain ⟨seeds, hseeds, hplan⟩ := Except.bind_ok.1 hplan
  obtain ⟨functions, hfunctions, hplan⟩ := Except.bind_ok.1 hplan
  cases hplan
  obtain ⟨s, hs, hroot⟩ := exists_seed hseeds hi
  have hall := planFunctions_forall₂ hfunctions
  obtain ⟨k, hk, rfl⟩ := List.mem_iff_getElem.1 hs
  have hk' : k < functions.length := hall.length_eq ▸ hk
  obtain ⟨h, hplanned, _⟩ := planFunction_exhausted hp hseeds hs (hall.get hk hk')
  exact ⟨_, List.getElem_mem hk', (hplanned.roots i).2 hroot⟩

end Dataflow
