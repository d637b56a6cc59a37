import Dataflow.Proofs.Exhaustive
import Mathlib.Data.Set.Basic
import Mathlib.Order.Bounds.Defs

/-!
# The moments of a walk

A walk goes on in small steps: it follows one arrow out of the node it is at, or it takes the next node
from its queues. `Moment.after` counts these steps, with nothing else to stop them, and gives what the
walk itself gives (`Moment.run_walk`). Every step visits a node or follows an arrow that was not visited
or followed before, so there are at most as many steps as nodes and arrows together, on cyclic programs
too, and the arrows into a node are counted down to zero and no further. The nodes visited when nothing
is left to do are those that have to be: the roots, and every node that only such nodes lead to
(`Moment.after_exact`).
-/

namespace Dataflow

/-- How many arrows into a node are still to be followed. -/
def Walk.countdown (p : Program) (w : Walk) (n : Nat) : Int := (p.node n).incoming.length - (w.arrivals p n).length

/-- An arrow that is followed counts its target down by one. -/
theorem Walk.follow_countdown {p : Program} {w w' : Walk} {a : Nat} {c : Condition}
    (hfollow : w.follow p a c = .ok w') (n : Nat) :
    w'.countdown p n = w.countdown p n - if (p.arrow a).target = n then 1 else 0 := by
  have hfollowed := (Walk.follow_waiting hfollow).1
  by_cases htarget : (p.arrow a).target = n
  · simp only [countdown, arrivals, hfollowed, List.filter_append, List.length_append, htarget, if_true, decide_true,
      List.filter_cons_of_pos, List.filter_nil, List.length_singleton]
    omega
  · simp [countdown, arrivals, hfollowed, List.filter_append, htarget]

/-- How far a walk has come within a visit. -/
structure Moment where
  walk : Walk
  /-- The nodes visited, the latest first. -/
  visited : List Nat := []
  /-- The arrows out of the latest of them that are still to be followed. -/
  pending : List (Nat × Condition) := []

namespace Moment

open Walk (departures Tracks Queued Leaving)

/-- The next moment, unless nothing is left to do. -/
def next? (p : Program) (f : String) (m : Moment) : Except PlanError (Option Moment) :=
  match m.pending with
  | (a, c) :: rest => (m.walk.follow p a c).map fun w => some ⟨w, m.visited, rest⟩
  | [] =>
    match m.walk.next? with
    | none => .ok none
    | some ((n, c), w) =>
      if (p.node n).isSink then (w.sink p f n c).map fun w => some ⟨w, n :: m.visited, []⟩
      else (w.branch p n c).map fun x => some ⟨x.1, n :: m.visited, departures p n x.2⟩

/-- At most `k` steps. -/
def run (p : Program) (f : String) : (k : Nat) → Moment → Except PlanError Moment
  | 0, m => .ok m
  | k + 1, m =>
    match m.next? p f with
    | .error e => .error e
    | .ok none => .ok m
    | .ok (some m) => run p f k m

/-- The moment that at most `k` steps lead to from the roots of a function. -/
def after (p : Program) (s : Seed) (k : Nat) : Except PlanError Moment :=
  run p s.name k { walk := Walk.atRoots p s s.roots {} }

/-! ## What a step does -/

section
variable {p : Program} {f : String} {m m' : Moment}

/-- Nothing is left to do when no arrow is pending and no node waits. -/
theorem next?_none_iff : m.next? p f = .ok none ↔ m.pending = [] ∧ m.walk.waiting = [] := by
  constructor
  · intro h
    unfold next? at h
    split at h
    · obtain ⟨_, _, hm⟩ := Except.map_ok.1 h
      cases hm
    · rename_i hpending
      split at h
      · rename_i hnext
        exact ⟨hpending, Walk.next?_eq_none hnext⟩
      · split at h <;> (obtain ⟨_, _, hm⟩ := Except.map_ok.1 h; cases hm)
  · rintro ⟨hpending, hwaiting⟩
    have hnext : m.walk.next? = none := by
      obtain ⟨hready, hforks⟩ := List.append_eq_nil_iff.1 hwaiting
      rw [Walk.next?, hready, hforks]
    rw [next?, hpending]
    simp only [hnext]

/-- A step follows a pending arrow. When there is none, it visits the next node: a sink gives its
result, and the arrows of any other node become pending. -/
theorem next?_some (h : m.next? p f = .ok (some m')) :
    (∃ a c, m.pending = (a, c) :: m'.pending ∧ m.walk.follow p a c = .ok m'.walk ∧ m'.visited = m.visited) ∨
    ∃ n c w, m.pending = [] ∧ m.walk.next? = some ((n, c), w) ∧ m'.visited = n :: m.visited ∧
      ((p.node n).isSink = true ∧ w.sink p f n c = .ok m'.walk ∧ m'.pending = [] ∨
        (p.node n).isSink = false ∧
          ∃ conditions, w.branch p n c = .ok (m'.walk, conditions) ∧ m'.pending = departures p n conditions) := by
  unfold next? at h
  split at h
  · rename_i a c rest hpending
    obtain ⟨w, hfollow, hm⟩ := Except.map_ok.1 h
    cases hm
    exact Or.inl ⟨a, c, hpending, hfollow, rfl⟩
  · rename_i hpending
    split at h
    · cases h
    · rename_i n c w hnext
      refine Or.inr ⟨n, c, w, hpending, hnext, ?_⟩
      split at h
      · rename_i hsink
        obtain ⟨w', hw', hm⟩ := Except.map_ok.1 h
        cases hm
        exact ⟨rfl, Or.inl ⟨hsink, hw', rfl⟩⟩
      · rename_i hsink
        obtain ⟨x, hbranch, hm⟩ := Except.map_ok.1 h
        cases hm
        exact ⟨rfl, Or.inr ⟨by simpa using hsink, x.2, hbranch, rfl⟩⟩

end

/-! ## What steps keep -/

/-- The events of `h` have led to the moment: what can be visited was or waits, and every arrow out of a
visited node was followed or is pending. -/
structure Kept (p : Program) (s : Seed) (m : Moment) (h : Events) : Prop where
  tracks : Tracks p s m.walk h
  visited : h.visited = m.visited
  queued : Queued p s m.visited m.walk
  leaves : ∀ x ∈ m.pending, x.1 < p.arrows.length ∧ Events.Leaves p h x.1 x.2
  fresh : ∀ x ∈ m.pending, x.1 ∉ h.followed.map (·.1)
  nodup : (m.pending.map (·.1)).Nodup
  left : ∀ a < p.arrows.length, (p.arrow a).source ∈ m.visited →
    a ∈ h.followed.map (·.1) ∨ a ∈ m.pending.map (·.1)

/-- How many nodes were visited and arrows followed. -/
def steps (m : Moment) : Nat := m.visited.length + m.walk.followed.length

section
variable {p : Program} {s : Seed} {f : String} {m m' : Moment} {h : Events}

section
variable (hp : p.Consistent) (hentered : ∀ i ∈ s.roots, (p.node i).incoming = [])
include hp hentered

theorem Kept.follow (hm : Kept p s m h) {a : Nat} {c : Condition} (hpending : m.pending = (a, c) :: m'.pending)
    (hfollow : m.walk.follow p a c = .ok m'.walk) (hvisited : m'.visited = m.visited) :
    (∃ h', Kept p s m' h') ∧ m'.steps = m.steps + 1 := by
  have hmem : (a, c) ∈ m.pending := by rw [hpending]; exact List.mem_cons_self
  obtain ⟨ha, hl⟩ := hm.leaves (a, c) hmem
  obtain ⟨h', ht', hext⟩ := Walk.follow_tracks hp hentered hm.tracks ha hl (hm.fresh (a, c) hmem) hfollow
  have hnodup := hm.nodup
  rw [hpending, List.map_cons, List.nodup_cons] at hnodup
  have hrest : ∀ x ∈ m'.pending, x ∈ m.pending := fun x hx => by rw [hpending]; exact List.mem_cons_of_mem _ hx
  refine ⟨⟨h', ht', ?_, ?_, fun x hx => ?_, fun x hx => ?_, hnodup.2, fun b hb hsource => ?_⟩, ?_⟩
  · rw [hext.visited, hm.visited, hvisited]
  · rw [hvisited]
    exact Walk.follow_queued hm.queued hfollow
  · obtain ⟨hlt, hlx⟩ := hm.leaves x (hrest x hx)
    exact ⟨hlt, History.leaves_mono hext.keeps.subset hlx⟩
  · rw [hext.followed, List.mem_append]
    rintro (hmem | hmem)
    · exact hm.fresh x (hrest x hx) hmem
    · exact hnodup.1 (by rw [← List.mem_singleton.1 hmem]; exact List.mem_map_of_mem hx)
  · rw [hvisited] at hsource
    have hbefore := hm.left b hb hsource
    rw [hpending, List.map_cons, List.mem_cons] at hbefore
    rw [hext.followed, List.mem_append, List.mem_singleton, or_assoc]
    exact hbefore
  · rw [steps, steps, hvisited, (Walk.follow_waiting hfollow).1, List.length_append, List.length_singleton]
    omega

omit hentered in
theorem Kept.visit {h' : Events} {n : Nat} (hm : Kept p s m h) (hpending : m.pending = [])
    (ht' : Tracks p s m'.walk h') (hleaving : Leaving p n h h' m'.pending) (hvisited : m'.visited = n :: m.visited)
    (hqueued : Queued p s m'.visited m'.walk) : (∃ h', Kept p s m' h') ∧ m'.steps = m.steps + 1 := by
  refine ⟨⟨h', ht', ?_, hqueued, hleaving.leaves, hleaving.fresh, ?_, fun a ha hsource => ?_⟩, ?_⟩
  · rw [hleaving.visited, hm.visited, hvisited]
  · rw [hleaving.arrows]
    exact (Program.outgoing_perm hp n).nodup_iff.2 (List.nodup_range.filter _)
  · rw [hleaving.followed, hleaving.arrows]
    rw [hvisited, List.mem_cons] at hsource
    rcases hsource with hsource | hsource
    · exact Or.inr ((Program.mem_outgoing hp).2 ⟨ha, hsource⟩)
    · have hbefore := hm.left a ha hsource
      rw [hpending, List.map_nil] at hbefore
      exact Or.inl (hbefore.resolve_right List.not_mem_nil)
  · rw [steps, steps, hvisited, ht'.followed, hleaving.followed, ← hm.tracks.followed, List.length_cons]
    omega

/-- **One step** keeps the moment in order, and visits a node or follows an arrow. -/
theorem Kept.next (hm : Kept p s m h) (hnext : m.next? p f = .ok (some m')) :
    (∃ h', Kept p s m' h') ∧ m'.steps = m.steps + 1 := by
  rcases next?_some hnext with ⟨a, c, hpending, hfollow, hvisited⟩ |
    ⟨n, c, w, hpending, hpop, hvisited, ⟨hsink, hw, hnone⟩ | ⟨hsink, conditions, hbranch, hdepart⟩⟩
  · exact hm.follow hp hentered hpending hfollow hvisited
  · obtain ⟨h', ht', hleaving⟩ := Walk.sink_tracks hp hentered hm.tracks hpop hsink hw
    refine hm.visit hp hpending ht' (by rwa [hnone]) hvisited ?_
    rw [hvisited]
    exact Walk.sink_queued (Walk.next?_queued hm.queued hpop) hw
  · obtain ⟨h', ht', hleaving⟩ := Walk.branch_tracks hp hentered hm.tracks hpop hsink hbranch
    refine hm.visit hp hpending ht' (by rwa [hdepart]) hvisited ?_
    rw [hvisited]
    exact Walk.branch_queued (Walk.next?_queued hm.queued hpop) hbranch

/-- **Many steps.** They end early only when nothing is left to do. -/
theorem Kept.run : ∀ {k : Nat} {m : Moment} {h : Events}, Kept p s m h → m.run p f k = .ok m' →
    (∃ h', Kept p s m' h') ∧ (m'.next? p f = .ok none ∨ m'.steps = m.steps + k)
  | 0, m, h, hm, hrun => by
    obtain rfl := Except.ok.inj hrun
    exact ⟨⟨h, hm⟩, Or.inr rfl⟩
  | k + 1, m, h, hm, hrun => by
    rw [Moment.run] at hrun
    split at hrun
    · cases hrun
    · rename_i hnone
      obtain rfl := Except.ok.inj hrun
      exact ⟨⟨h, hm⟩, Or.inl hnone⟩
    · rename_i m₁ hnext
      obtain ⟨⟨h₁, hm₁⟩, hsteps⟩ := hm.next hp hentered hnext
      obtain ⟨hkept, hend⟩ := Kept.run hm₁ hrun
      refine ⟨hkept, hend.imp_right fun hcount => ?_⟩
      omega

end

/-! ## What kept moments are like -/

section
variable (hp : p.Consistent)
include hp

/-- An arrow that is not followed yet counts. -/
theorem Kept.countdown_pos (hm : Kept p s m h) {x : Nat × Condition} (hx : x ∈ m.pending) :
    0 < m.walk.countdown p (p.arrow x.1).target := by
  have hsub := History.arrivals_subperm hp hm.tracks.history (p.arrow x.1).target
  have hnot : x.1 ∉ (h.arrivals p (p.arrow x.1).target).map (·.1) := by
    intro hmem
    obtain ⟨y, hy, heq⟩ := List.mem_map.1 hmem
    exact hm.fresh x hx (heq ▸ List.mem_map_of_mem (Events.mem_arrivals.1 hy).1)
  have hin := (History.mem_incoming hp).2 ⟨(hm.leaves x hx).1, rfl⟩
  -- if nothing were left to count, all arrows into the target would have been followed
  have hlt : (h.arrivals p (p.arrow x.1).target).length < (p.node (p.arrow x.1).target).incoming.length := by
    by_contra hle
    exact hnot ((hsub.perm_of_length_le (by simpa using hle)).mem_iff.2 hin)
  rw [Walk.countdown, Walk.arrivals_eq hm.tracks]
  omega

theorem Kept.countdown_nonneg (hm : Kept p s m h) (n : Nat) : 0 ≤ m.walk.countdown p n := by
  have hle := (History.arrivals_subperm hp hm.tracks.history n).length_le
  rw [List.length_map] at hle
  rw [Walk.countdown, Walk.arrivals_eq hm.tracks]
  omega

omit hp in
/-- A node that comes next was not visited before. -/
theorem Kept.next_notMem (hm : Kept p s m h) {n : Nat} {c : Condition} {w : Walk}
    (hnext : m.walk.next? = some ((n, c), w)) : n ∉ m.visited := by
  have hwaits : (n, c) ∈ m.walk.waiting := by
    rw [(Walk.next?_ok hnext).1]
    exact List.mem_cons_self
  rw [← hm.visited]
  exact (hm.tracks.ready _ hwaits).2

omit hp in
theorem Kept.pending_notMem (hm : Kept p s m h) {x : Nat × Condition} (hx : x ∈ m.pending) :
    x.1 ∉ m.walk.followed.map (·.1) := by
  rw [hm.tracks.followed]
  exact hm.fresh x hx

omit hp in
/-- The arrows that were followed and those that are pending are different arrows of the program. -/
theorem Kept.followed_le (hm : Kept p s m h) : m.walk.followed.length + m.pending.length ≤ p.arrows.length := by
  have hnodup : (h.followed.map (·.1) ++ m.pending.map (·.1)).Nodup := by
    refine List.nodup_append.2 ⟨hm.tracks.history.followed_nodup, hm.nodup, ?_⟩
    intro a ha b hb hab
    obtain ⟨x, hx, rfl⟩ := List.mem_map.1 hb
    exact hm.fresh x hx (hab ▸ ha)
  have hsub : h.followed.map (·.1) ++ m.pending.map (·.1) ⊆ List.range p.arrows.length := by
    intro a ha
    rw [List.mem_range]
    rcases List.mem_append.1 ha with ha | ha
    · obtain ⟨x, hx, rfl⟩ := List.mem_map.1 ha
      exact (hm.tracks.history.followed_leaves hx).1
    · obtain ⟨x, hx, rfl⟩ := List.mem_map.1 ha
      exact (hm.leaves x hx).1
  simpa [hm.tracks.followed] using (hnodup.subperm hsub).length_le

/-- After as many steps as there are nodes and arrows, nothing is left to do. -/
theorem Kept.halts (hroots : ∀ i ∈ s.roots, i ∈ p.roots) (hm : Kept p s m h)
    (hsteps : m.steps = p.nodes.length + p.arrows.length) : m.next? p f = .ok none := by
  have hnodes := hm.tracks.length_le hp hroots
  have harrows := hm.followed_le
  rw [hm.visited] at hnodes
  rw [steps] at hsteps
  exact next?_none_iff.2 ⟨List.length_eq_zero_iff.1 (by omega), List.length_eq_zero_iff.1 (by omega)⟩

end

end

/-! ## The walk and its moments -/

section
variable {p : Program} {s : Seed} {f : String}

theorem run_of_halted {m : Moment} (hnone : m.next? p f = .ok none) : ∀ k : Nat, m.run p f k = .ok m
  | 0 => rfl
  | k + 1 => by rw [run, hnone]

theorem run_add : ∀ (k j : Nat) (m : Moment), m.run p f (k + j) = (m.run p f k) >>= fun m => m.run p f j
  | 0, j, m => by rw [Nat.zero_add]; rfl
  | k + 1, j, m => by
    rw [Nat.add_right_comm, run, run]
    cases hnext : m.next? p f with
    | error e => rfl
    | ok next =>
      cases next with
      | none => exact (run_of_halted hnext j).symm
      | some m' => exact run_add k j m'

/-- Following the pending arrows takes a step for each. -/
theorem run_followAll (visited : List Nat) (k : Nat) : ∀ (items : List (Nat × Condition)) (w : Walk),
    run p f (items.length + k) ⟨w, visited, items⟩ = (w.followAll p items) >>= fun w => run p f k ⟨w, visited, []⟩
  | [], w => by rw [List.length_nil, Nat.zero_add]; rfl
  | (a, c) :: rest, w => by
    rw [List.length_cons, Nat.add_right_comm, run, Walk.followAll]
    simp only [next?]
    cases w.follow p a c with
    | error e => rfl
    | ok w' => exact run_followAll visited k rest w'

/-- A visit takes a step, and one for each arrow out of the node. -/
theorem run_visit {w w₁ : Walk} {n : Nat} {c : Condition} (hnext : w.next? = some ((n, c), w₁)) (visited : List Nat)
    (k : Nat) : run p f ((p.node n).outgoing.length + k + 1) ⟨w, visited, []⟩ =
      (w₁.visit p f n c) >>= fun w => run p f k ⟨w, n :: visited, []⟩ := by
  rw [run]
  simp only [next?, hnext, Walk.visit]
  by_cases hsink : (p.node n).isSink = true
  · have hnone : (p.node n).outgoing = [] := by
      simpa [Node.isSink, Node.outgoing, List.flatMap_eq_nil_iff] using hsink
    rw [if_pos hsink, if_pos hsink, hnone, List.length_nil, Nat.zero_add]
    cases w₁.sink p f n c <;> rfl
  · rw [if_neg hsink, if_neg hsink]
    cases hbranch : w₁.branch p n c with
    | error e => rfl
    | ok x =>
      have hlen := congrArg List.length (Walk.departures_arrows (Walk.branch_length hbranch))
      rw [List.length_map] at hlen
      rw [← hlen]
      exact run_followAll (n :: visited) k (departures p n x.2) x.1

/-- Enough steps give what the walk gives, an error or its end. -/
theorem run_walk (hp : p.Consistent) (hroots : ∀ i ∈ s.roots, i ∈ p.roots) :
    ∀ (fuel : Nat) {w : Walk} {h : Events}, Tracks p s w h → p.nodes.length ≤ fuel + h.visited.length →
      ∃ enough, ∀ k, enough ≤ k → (run p f k ⟨w, h.visited, []⟩).map (·.walk) = w.run p f fuel
  | 0, w, h, ht, hfuel => by
    have hlen := ht.length_le hp hroots
    have hempty : w.waiting = [] := List.length_eq_zero_iff.1 (by omega)
    refine ⟨0, fun k _ => ?_⟩
    rw [run_of_halted (next?_none_iff.2 ⟨rfl, hempty⟩) k]
    rfl
  | fuel + 1, w, h, ht, hfuel => by
    rw [Walk.run]
    cases hnext : w.next? with
    | none =>
      refine ⟨0, fun k _ => ?_⟩
      rw [run_of_halted (next?_none_iff.2 ⟨rfl, Walk.next?_eq_none hnext⟩) k]
      rfl
    | some x =>
      obtain ⟨⟨n, c⟩, w₁⟩ := x
      dsimp only
      cases hvisit : w₁.visit p f n c with
      | error e =>
        -- the error comes at the latest with the last arrow
        refine ⟨(p.node n).outgoing.length + 1, fun k hk => ?_⟩
        obtain ⟨j, rfl⟩ := Nat.exists_eq_add_of_le hk
        rw [Nat.add_right_comm, run_visit hnext, hvisit]
        rfl
      | ok w₂ =>
        have hentered : ∀ i ∈ s.roots, (p.node i).incoming = [] := fun i hi => (Program.mem_roots.1 (hroots i hi)).2
        obtain ⟨h₂, ht₂, hvisits⟩ := Walk.visit_tracks hp hentered ht hnext hvisit
        have hfuel₂ : p.nodes.length ≤ fuel + h₂.visited.length := by
          rw [hvisits.visited, List.length_cons]
          omega
        obtain ⟨enough, hrest⟩ := run_walk hp hroots fuel ht₂ hfuel₂
        refine ⟨(p.node n).outgoing.length + enough + 1, fun k hk => ?_⟩
        obtain ⟨j, rfl⟩ := Nat.exists_eq_add_of_le hk
        rw [Nat.add_right_comm, Nat.add_assoc _ enough j, run_visit hnext, hvisit]
        rw [hvisits.visited] at hrest
        exact hrest (enough + j) (by omega)

end

end Moment

/-! ## The nodes that are visited -/

/-- The sets that hold the roots and every node that arrows enter, all of them from nodes of the set. -/
def Program.closedSets (p : Program) (roots : List Nat) : Set (Set Nat) :=
  { S | (∀ i ∈ roots, i ∈ S) ∧
    ∀ n, (p.node n).incoming ≠ [] → (∀ a ∈ (p.node n).incoming, (p.arrow a).source ∈ S) → n ∈ S }

/-- A node is visited for a reason. -/
theorem History.visited_subset {p : Program} (hp : p.Consistent) {s : Seed}
    (hentered : ∀ i ∈ s.roots, (p.node i).incoming = []) {S : Set Nat} (hS : S ∈ p.closedSets s.roots) {h : Events}
    (hist : History p s h) : { n | n ∈ h.visited } ⊆ S := by
  induction hist with
  | start => intro n hn; cases hn
  | @step e h before allowed ih =>
    intro n hn
    obtain ⟨e', he', c, hvisit⟩ := Events.mem_visited.1 hn
    rcases List.mem_cons.1 he' with rfl | he'
    · have hready := (visit_allowed hvisit allowed).1
      -- what entered the node came from nodes visited before
      have hsources : ∀ a ∈ (p.node n).incoming, (p.arrow a).source ∈ S := by
        intro a ha
        obtain ⟨hlt, htarget⟩ := (mem_incoming hp).1 ha
        obtain ⟨x, hx, rfl⟩ := List.mem_map.1 (ready_allIn hp hentered before hready a hlt htarget)
        exact ih (leaves_visited (before.followed_leaves hx).2)
      cases hready with
      | root hroot _ =>
        obtain ⟨_, _, _, _, hallowed⟩ := before.exists_allowed hroot
        exact hS.1 n hallowed.1
      | met items hmeet =>
        obtain ⟨a, ha, _⟩ := met_positional hp before (meet_met hp before hmeet)
        exact hS.2 n (List.ne_nil_of_mem ha) hsources
      | joined hjoin => exact hS.2 n hjoin.entered hsources
    · exact ih (Events.mem_visited.2 ⟨e', he', c, hvisit⟩)

namespace Moment

variable {p : Program} {s : Seed} {m : Moment} {h : Events}

/-- When nothing is left to do, the nodes that had to be visited were, and no others. -/
theorem Kept.isLeast (hp : p.Consistent) (hentered : ∀ i ∈ s.roots, (p.node i).incoming = []) (hm : Kept p s m h)
    (hpending : m.pending = []) (hwaiting : m.walk.waiting = []) :
    IsLeast (p.closedSets s.roots) { n | n ∈ m.visited } := by
  have hleft : ∀ a < p.arrows.length, (p.arrow a).source ∈ h.visited → a ∈ h.followed.map (·.1) := by
    intro a ha hsource
    rw [hm.visited] at hsource
    have hor := hm.left a ha hsource
    rw [hpending, List.map_nil] at hor
    exact hor.resolve_right List.not_mem_nil
  have hqueued : Walk.Queued p s h.visited m.walk := by
    rw [hm.visited]
    exact hm.queued
  have hdone := hm.tracks.exhausted hp hqueued hwaiting hleft
  rw [← hm.visited]
  refine ⟨⟨hdone.roots, fun n hn hsources => hdone.full n hn fun a ha htarget => ?_⟩,
    fun S hS => hm.tracks.history.visited_subset hp hentered hS⟩
  exact hdone.left a ha (hsources a ((History.mem_incoming hp).2 ⟨ha, htarget⟩))

theorem exists_kept (hp : p.Consistent) (hrooted : s.Rooted p) :
    ∃ h, Kept p s { walk := Walk.atRoots p s s.roots {} } h ∧ h.visited = [] := by
  obtain ⟨h, ht, hnone, _⟩ := hrooted.atRoots_history hp
  exact ⟨h, ⟨ht, hnone, ht.atRoots_queued hnone, by simp, by simp, by simp, by simp⟩, hnone⟩

section
variable (hp : p.Consistent) (hrooted : s.Rooted p)
include hp hrooted

theorem after_kept {k : Nat} (hrun : after p s k = .ok m) :
    (∃ h, Kept p s m h) ∧ (m.next? p s.name = .ok none ∨ m.steps = k) := by
  obtain ⟨h, hstart, hnone⟩ := exists_kept hp hrooted
  have hsteps : steps { walk := Walk.atRoots p s s.roots {} } = 0 := by
    rw [steps, hstart.tracks.followed_eq_nil hnone]
    rfl
  have hkept := hstart.run hp hrooted.entered hrun
  rwa [hsteps, Nat.zero_add] at hkept

variable (hroots : ∀ i ∈ s.roots, i ∈ p.roots)
include hroots

theorem after_halts (hrun : after p s (p.nodes.length + p.arrows.length) = .ok m) : m.next? p s.name = .ok none := by
  obtain ⟨⟨h, hm⟩, hend | hend⟩ := after_kept hp hrooted hrun
  · exact hend
  · exact hm.halts hp hroots hend

/-- Further steps change nothing. -/
theorem after_stays {k : Nat} (hk : p.nodes.length + p.arrows.length ≤ k) :
    after p s k = after p s (p.nodes.length + p.arrows.length) := by
  obtain ⟨j, rfl⟩ := Nat.exists_eq_add_of_le hk
  rw [after, run_add, ← after]
  cases hrun : after p s (p.nodes.length + p.arrows.length) with
  | error e => rfl
  | ok m => exact run_of_halted (after_halts hp hrooted hroots hrun) j

theorem after_walk : (after p s (p.nodes.length + p.arrows.length)).map (·.walk) =
    Walk.run p s.name p.nodes.length (Walk.atRoots p s s.roots {}) := by
  obtain ⟨h, hstart, hnone⟩ := exists_kept hp hrooted
  obtain ⟨enough, hwalk⟩ := run_walk (f := s.name) hp hroots p.nodes.length hstart.tracks (by omega)
  rw [hnone] at hwalk
  rw [← after_stays hp hrooted hroots (Nat.le_add_right _ enough)]
  exact hwalk _ (Nat.le_add_left _ _)

end

/-- **The walk is exact.** No node is visited and no arrow followed twice, in whatever comes of the next step: the
node that comes next is not among those visited, and no pending arrow among those followed. An arrow that is to be
followed finds its target above zero and counts it down by one. As many steps as there are nodes and arrows are
always enough, and give what the walk of the planner gives, an error or its end. At the end nothing is
left to do, and the nodes visited are the least set with the roots of the function and every node that is
entered from the set only. -/
theorem after_exact {d : Draft} (hread : d.ReadsAs p) {seeds : List Seed} (hseeds : p.seeds = .ok seeds)
    (hs : s ∈ seeds) :
    (∀ k m, after p s k = .ok m →
      m.visited.Nodup ∧ (m.walk.followed.map (·.1)).Nodup ∧ (∀ n, 0 ≤ m.walk.countdown p n) ∧
        (∀ n c w, m.walk.next? = some ((n, c), w) → n ∉ m.visited) ∧
        ∀ x ∈ m.pending, x.1 ∉ m.walk.followed.map (·.1) ∧ 0 < m.walk.countdown p (p.arrow x.1).target ∧
          ∀ w, m.walk.follow p x.1 x.2 = .ok w → ∀ n, w.countdown p n =
            m.walk.countdown p n - if (p.arrow x.1).target = n then 1 else 0) ∧
    (∀ k, p.nodes.length + p.arrows.length ≤ k → after p s k = after p s (p.nodes.length + p.arrows.length)) ∧
    (after p s (p.nodes.length + p.arrows.length)).map (·.walk) =
      Walk.run p s.name p.nodes.length (Walk.atRoots p s s.roots {}) ∧
    ∀ m, after p s (p.nodes.length + p.arrows.length) = .ok m →
      m.pending = [] ∧ m.walk.ready = [] ∧ m.walk.forks = [] ∧
        IsLeast (p.closedSets s.roots) { n | n ∈ m.visited } := by
  have hp := hread.consistent
  have hrooted := Program.seed_rooted hseeds hs
  have hroots := Program.seed_roots hseeds hs
  refine ⟨fun k m hrun => ?_, fun k => after_stays hp hrooted hroots, after_walk hp hrooted hroots, fun m hrun => ?_⟩
  · obtain ⟨⟨h, hm⟩, -⟩ := after_kept hp hrooted hrun
    have hvisited : m.visited.Nodup := hm.visited ▸ hm.tracks.history.visited_nodup
    have hfollowed : (m.walk.followed.map (·.1)).Nodup := by
      rw [hm.tracks.followed]
      exact hm.tracks.history.followed_nodup
    exact ⟨hvisited, hfollowed, hm.countdown_nonneg hp, fun n c w => hm.next_notMem, fun x hx =>
      ⟨hm.pending_notMem hx, hm.countdown_pos hp hx, fun w => Walk.follow_countdown⟩⟩
  · obtain ⟨hpending, hwaiting⟩ := next?_none_iff.1 (after_halts hp hrooted hroots hrun)
    obtain ⟨⟨h, hm⟩, -⟩ := after_kept hp hrooted hrun
    obtain ⟨hready, hforks⟩ := List.append_eq_nil_iff.1 hwaiting
    exact ⟨hpending, hready, hforks, hm.isLeast hp hrooted.entered hpending hwaiting⟩

end Moment

/-- A sink, and beside it two nodes on a cycle that the root leads to. -/
def Draft.aside : Draft where
  nodes := [⟨"Int", some "f", ["_"], false⟩, ⟨"Int", none, [], true⟩, ⟨"Int", none, ["_"], true⟩,
    ⟨"Int", none, ["_"], true⟩]
  connections := [⟨0, 1, 0, "+ 1"⟩, ⟨0, 2, 0, "$"⟩, ⟨2, 3, 0, "$"⟩, ⟨3, 2, 0, "$"⟩]

/-- The walk ends, and has not visited the nodes on the cycle. -/
theorem Moment.after_exact_aside : ∃ p seeds s m, Draft.aside.ReadsAs p ∧ p.seeds = .ok seeds ∧ s ∈ seeds ∧
    p.nodes.length = 4 ∧ p.arrows.length = 4 ∧ Moment.after p s 8 = .ok m ∧ m.visited = [1, 0] ∧
    IsLeast (p.closedSets s.roots) { n | n ∈ [1, 0] } := by
  obtain ⟨p, plan, hread, _, hcheck⟩ := Draft.aside.exists_planned
    (fun p _ => decide (p.nodes.length = 4 ∧ p.arrows.length = 4) && p.seeds.toOption.any fun seeds =>
      seeds.any fun s => (Moment.after p s 8).toOption.any fun m => m.visited = [1, 0]) (by decide +kernel)
  obtain ⟨hsize, hcheck⟩ := Bool.and_eq_true_iff.1 hcheck
  obtain ⟨hnodes, harrows⟩ := of_decide_eq_true hsize
  obtain ⟨seeds, hseeds, hcheck⟩ := Except.any_toOption.1 hcheck
  obtain ⟨s, hs, hcheck⟩ := List.any_eq_true.1 hcheck
  obtain ⟨m, hafter, hvisited⟩ := Except.any_toOption.1 hcheck
  have hvisited := of_decide_eq_true hvisited
  obtain ⟨_, _, _, hend⟩ := Moment.after_exact hread hseeds hs
  rw [hnodes, harrows] at hend
  obtain ⟨_, _, _, hleast⟩ := hend m hafter
  rw [hvisited] at hleast
  exact ⟨p, seeds, s, m, hread, hseeds, hs, hnodes, harrows, hafter, hvisited, hleast⟩

end Dataflow
