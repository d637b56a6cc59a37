import Dataflow.Proofs.History
import Dataflow.Proofs.Variables
import Dataflow.Symbol

/-!
# Walks have histories

Every step of a walk adds allowed events to its history (`visit_tracks`), so the walk of a function
that is planned has one (`Program.plan_history`). The queue holds nodes that are ready and were not
visited before, each once.
-/

namespace Dataflow

namespace Walk

open Events History

variable {p : Program} {s : Seed} {w w' : Walk} {h : Events}

/-- The nodes that wait, with their conditions. -/
def waiting (w : Walk) : List (Nat × Condition) := w.ready ++ w.forks

/-- The events of `h` have led to the state `w`. -/
structure Tracks (p : Program) (s : Seed) (w : Walk) (h : Events) : Prop where
  history : History p s h
  scopes : w.scopes = h.scopes p s
  followed : w.followed = h.followed
  ready : ∀ x ∈ w.waiting, Ready p h x.1 x.2 ∧ x.1 ∉ h.visited
  nodup : (w.waiting.map (·.1)).Nodup
  result : ∀ t, w.resultType = some t ↔ ∃ n c, .sink n c ∈ h ∧ (p.node n).ty = t

/-! ## The parts of a step -/

theorem enqueue_perm (p : Program) (w : Walk) (n : Nat) (c : Condition) :
    (w.enqueue p n c).waiting.Perm ((n, c) :: w.waiting) := by
  unfold enqueue waiting
  split
  · simpa using (List.perm_append_singleton (n, c) (w.ready ++ w.forks))
  · simp only [List.append_assoc, List.singleton_append]
    exact List.perm_middle

theorem enqueue_tracks (ht : Tracks p s w h) {n : Nat} {c : Condition} (hready : Ready p h n c)
    (hvisited : n ∉ h.visited) (hnew : n ∉ w.waiting.map (·.1)) : Tracks p s (w.enqueue p n c) h := by
  have hperm := enqueue_perm p w n c
  have hsame : (w.enqueue p n c).scopes = w.scopes ∧ (w.enqueue p n c).followed = w.followed ∧
      (w.enqueue p n c).resultType = w.resultType := by
    unfold enqueue
    split <;> exact ⟨rfl, rfl, rfl⟩
  refine ⟨ht.history, by rw [hsame.1, ht.scopes], by rw [hsame.2.1, ht.followed], fun x hx => ?_, ?_,
    by rw [hsame.2.2]; exact ht.result⟩
  · rcases List.mem_cons.1 (hperm.mem_iff.1 hx) with rfl | hx
    · exact ⟨hready, hvisited⟩
    · exact ht.ready x hx
  · rw [(hperm.map (·.1)).nodup_iff]
    exact List.nodup_cons.2 ⟨hnew, ht.nodup⟩

theorem unpack_eq (w : Walk) (n : Nat) (c : Condition) :
    w.unpack p n c = { w with scopes := w.scopes.run ((WalkEvent.unpackSteps p n).map (.define c)) } := by
  unfold unpack WalkEvent.unpackSteps
  cases (p.node n).ty <;> rfl

theorem define_ok {n : Nat} {c : Condition} {e : Expr} (hd : w.define p n c e = .ok w') :
    w.scopes.receiving c ≠ 0 ∧ w' = { w with scopes := w.scopes.run ((WalkEvent.bindSteps p n e).map (.define c)) } := by
  unfold define at hd
  split at hd
  · cases hd
  · rename_i hreceiving
    refine ⟨hreceiving, ?_⟩
    cases hd
    rw [unpack_eq]
    rfl

theorem arrivals_eq (ht : Tracks p s w h) (n : Nat) : w.arrivals p n = h.arrivals p n := by
  unfold arrivals Events.arrivals
  rw [ht.followed]

theorem sink_mem_cons {e : WalkEvent} (he : ∀ n c, e ≠ .sink n c) {t : Ty} :
    (∃ n c, .sink n c ∈ e :: h ∧ (p.node n).ty = t) ↔ ∃ n c, .sink n c ∈ h ∧ (p.node n).ty = t := by
  simp only [List.mem_cons, (he _ _).symm, false_or]

/-- Carrying out the operations of an event that visits nothing. -/
theorem Tracks.event (hp : p.Consistent) (hroots : ∀ i ∈ s.roots, (p.node i).incoming = [])
    (ht : Tracks p s w h) {e : WalkEvent} (hvisit : e.visit? = none) (allowed : h.Allowed p s e)
    (hscopes : w'.scopes = w.scopes.run (e.ops p s)) (hfollowed : w'.followed = w.followed ++ e.arrow?.toList)
    (hwaiting : w'.waiting = w.waiting) (hresult : w'.resultType = w.resultType) : Tracks p s w' (e :: h) := by
  have hvisited : Events.visited (e :: h) = h.visited := by simp [Events.visited, hvisit]
  have hnosink : ∀ n c, e ≠ .sink n c := by
    rintro n c rfl
    cases hvisit
  refine ⟨.step ht.history allowed, ?_, ?_, fun x hx => ?_, by rw [hwaiting]; exact ht.nodup, fun t => ?_⟩
  · rw [hscopes, ht.scopes, scopes_cons]
  · rw [hfollowed, ht.followed, followed_cons]
  · rw [hwaiting] at hx
    obtain ⟨hready, hnot⟩ := ht.ready x hx
    exact ⟨ready_cons hp hroots ht.history allowed hready, by rwa [hvisited]⟩
  · rw [hresult, ht.result, sink_mem_cons hnosink]

/-- A node into which an arrow is still to be followed neither waits nor was visited, and no
intersection was built there. -/
theorem target_open (hp : p.Consistent) (hroots : ∀ i ∈ s.roots, (p.node i).incoming = []) (ht : Tracks p s w h)
    {a : Nat} (ha : a < p.arrows.length) (hnew : a ∉ h.followed.map (·.1)) :
    (p.arrow a).target ∉ w.waiting.map (·.1) ∧ (p.arrow a).target ∉ h.visited ∧
      ∀ c items, .meet (p.arrow a).target c items ∉ h := by
  refine ⟨fun hmem => ?_, fun hmem => ?_, fun c items hmem => ?_⟩
  · obtain ⟨x, hx, heq⟩ := List.mem_map.1 hmem
    exact hnew (ready_allIn hp hroots ht.history (ht.ready x hx).1 a ha heq.symm)
  · exact hnew (visited_allIn hp hroots ht.history hmem a ha rfl)
  · exact hnew (meet_allIn hp ht.history hmem a ha rfl)

/-! ## Following arrows -/

/-- What following arrows adds to a history: events that visit nothing. -/
structure Extends (h h' : Events) (arrows : List Nat) : Prop where
  keeps : h <:+ h'
  visited : h'.visited = h.visited
  followed : h'.followed.map (·.1) = h.followed.map (·.1) ++ arrows

theorem arrive_tracks (hp : p.Consistent) (hroots : ∀ i ∈ s.roots, (p.node i).incoming = []) (ht : Tracks p s w h)
    {n : Nat} (hlen : (h.arrivals p n).length = (p.node n).incoming.length) (hentered : (p.node n).incoming ≠ [])
    (hwaiting : n ∉ w.waiting.map (·.1)) (hvisited : n ∉ h.visited) (hmeet : ∀ c items, .meet n c items ∉ h)
    (harrive : w.arrive p n = .ok w') : ∃ h', Tracks p s w' h' ∧ Extends h h' [] := by
  unfold arrive at harrive
  simp only [arrivals_eq ht] at harrive
  split at harrive
  · rename_i hpositional
    obtain ⟨slots, hslots, harrive⟩ := Except.bind_ok.1 harrive
    obtain ⟨w₁, hdefine, harrive⟩ := Except.bind_ok.1 harrive
    cases harrive
    obtain ⟨hreceiving, hw₁⟩ := define_ok hdefine
    rw [ht.scopes] at hreceiving
    have allowed : h.Allowed p s (.meet n (((h.arrivals p n).map (·.2)).foldl .and .always) (slots.map (·.2))) :=
      ⟨⟨hlen, hpositional, rfl, slots, hslots, rfl⟩, hvisited, hmeet, hreceiving⟩
    have ht₁ : Tracks p s w₁ (_ :: h) :=
      ht.event hp hroots rfl allowed (by rw [hw₁]; rfl) (by simp [hw₁, WalkEvent.arrow?]) (by rw [hw₁]; rfl)
        (by rw [hw₁])
    have hwaiting₁ : n ∉ w₁.waiting.map (·.1) := by rw [hw₁]; exact hwaiting
    refine ⟨_, enqueue_tracks ht₁ (.met _ List.mem_cons_self) (by simpa [Events.visited, WalkEvent.visit?] using hvisited)
      hwaiting₁, List.suffix_cons _ h, by simp [Events.visited, WalkEvent.visit?], by simp [WalkEvent.arrow?]⟩
  · rename_i hplain
    cases harrive
    refine ⟨h, enqueue_tracks ht (.joined ⟨hentered, hlen, fun a ha => ?_, rfl⟩) hvisited hwaiting,
      List.suffix_refl h, rfl, by simp⟩
    simp only [Bool.not_eq_true, List.any_eq_false] at hplain
    simpa using hplain a ha

/-- The walk with an arrow noted as followed. -/
def note (w : Walk) (x : Nat × Condition) : Walk := { w with followed := w.followed ++ [x] }

/-- All arrows into a node have been followed. -/
def Full (p : Program) (w : Walk) (n : Nat) : Prop :=
  (w.arrivals p n).length = (p.node n).incoming.length

instance (p : Program) (w : Walk) (n : Nat) : Decidable (w.Full p n) :=
  inferInstanceAs (Decidable (_ = _))

/-- Following an arrow binds its target, unless it is positional, and notes the arrow. The last arrow
into a node makes it arrive. -/
theorem follow_ok {a : Nat} {c : Condition} (hfollow : w.follow p a c = .ok w') :
    ∃ w₁, ((p.arrow a).isPositional = true ∧ w₁ = w ∨
        (p.arrow a).isPositional = false ∧ w.bindTarget p (p.arrow a) c = .ok w₁) ∧
      ((w₁.note (a, c)).Full p (p.arrow a).target ∧ (w₁.note (a, c)).arrive p (p.arrow a).target = .ok w' ∨
        ¬ (w₁.note (a, c)).Full p (p.arrow a).target ∧ w' = w₁.note (a, c)) := by
  have hrest : ∀ {w₁ : Walk}, (if (w₁.note (a, c)).Full p (p.arrow a).target then
      (w₁.note (a, c)).arrive p (p.arrow a).target else pure (w₁.note (a, c))) = .ok w' →
      ((w₁.note (a, c)).Full p (p.arrow a).target ∧ (w₁.note (a, c)).arrive p (p.arrow a).target = .ok w' ∨
        ¬ (w₁.note (a, c)).Full p (p.arrow a).target ∧ w' = w₁.note (a, c)) := by
    intro w₁ hdone
    split at hdone
    · rename_i hfull
      exact Or.inl ⟨hfull, hdone⟩
    · rename_i hfull
      cases hdone
      exact Or.inr ⟨hfull, rfl⟩
  unfold follow at hfollow
  dsimp only at hfollow
  split at hfollow
  · rename_i hpositional
    exact ⟨w, Or.inl ⟨hpositional, rfl⟩, hrest hfollow⟩
  · rename_i hplain
    obtain ⟨w₁, hbind, hfollow⟩ := Except.bind_ok.1 hfollow
    exact ⟨w₁, Or.inr ⟨by simpa using hplain, hbind⟩, hrest hfollow⟩

theorem follow_tracks (hp : p.Consistent) (hroots : ∀ i ∈ s.roots, (p.node i).incoming = []) (ht : Tracks p s w h)
    {a : Nat} {c : Condition} (ha : a < p.arrows.length) (hl : Leaves p h a c) (hnew : a ∉ h.followed.map (·.1))
    (hfollow : w.follow p a c = .ok w') : ∃ h', Tracks p s w' h' ∧ Extends h h' [a] := by
  obtain ⟨hwaiting, hvisited, hmeet⟩ := target_open hp hroots ht ha hnew
  obtain ⟨w₁, hbind, hfollow⟩ := follow_ok hfollow
  -- the arrow is one event, and the walk after it is `w₁` with the arrow noted
  obtain ⟨e, harrow, hvisit, hnomeet, allowed, hscopes, hfol, hwait, hres⟩ :
      ∃ e : WalkEvent, e.arrow? = some (a, c) ∧ e.visit? = none ∧ (∀ n c items, e ≠ .meet n c items) ∧
        h.Allowed p s e ∧ w₁.scopes = w.scopes.run (e.ops p s) ∧ w₁.followed = w.followed ∧
        w₁.waiting = w.waiting ∧ w₁.resultType = w.resultType := by
    rcases hbind with ⟨hpositional, rfl⟩ | ⟨hplain, hbind⟩
    · exact ⟨.feed a c, rfl, rfl, by simp, ⟨ha, hl, hnew, hpositional⟩, rfl, rfl, rfl, rfl⟩
    · unfold bindTarget at hbind
      split at hbind
      · cases hbind
      · rename_i hclear
        split at hbind
        · rename_i expr hexpr
          obtain ⟨hreceiving, rfl⟩ := define_ok hbind
          rw [ht.scopes] at hreceiving
          refine ⟨.bring a c expr, rfl, rfl, by simp,
            ⟨ha, hl, hnew, hplain, hexpr, hreceiving, fun b hb => ?_⟩, rfl, rfl, rfl, rfl⟩
          simp only [arrivals_eq ht, Bool.not_eq_true, List.any_eq_false, Bool.or_eq_true, not_or] at hclear
          simpa using hclear b hb
        · cases hbind
  have ht₁ : Tracks p s (w₁.note (a, c)) (e :: h) :=
    ht.event hp hroots hvisit allowed hscopes (by rw [harrow, ← hfol]; rfl) hwait hres
  have hext : Extends h (e :: h) [a] :=
    ⟨List.suffix_cons e h, by simp [Events.visited, hvisit], by simp [harrow]⟩
  rcases hfollow with ⟨hfull, harrive⟩ | ⟨_, rfl⟩
  · rw [Full, arrivals_eq ht₁] at hfull
    have hentered : (p.node (p.arrow a).target).incoming ≠ [] :=
      List.ne_nil_of_mem ((mem_incoming hp).2 ⟨ha, rfl⟩)
    have hmeet₁ : ∀ d items, .meet (p.arrow a).target d items ∉ e :: h := by
      intro d items hmem
      rcases List.mem_cons.1 hmem with heq | hmem
      · exact hnomeet _ _ _ heq.symm
      · exact hmeet d items hmem
    obtain ⟨h', ht', hext'⟩ := arrive_tracks hp hroots ht₁ hfull hentered (by rwa [← hwait] at hwaiting)
      (by rwa [hext.visited]) hmeet₁ harrive
    exact ⟨h', ht', hext.keeps.trans hext'.keeps, hext'.visited.trans hext.visited,
      by rw [hext'.followed, hext.followed, List.append_nil]⟩
  · exact ⟨_, ht₁, hext⟩

theorem followAll_tracks (hp : p.Consistent) (hroots : ∀ i ∈ s.roots, (p.node i).incoming = []) :
    ∀ {items : List (Nat × Condition)} {w : Walk} {h : Events}, Tracks p s w h →
      (∀ x ∈ items, x.1 < p.arrows.length ∧ Leaves p h x.1 x.2) → (items.map (·.1)).Nodup →
      (∀ x ∈ items, x.1 ∉ h.followed.map (·.1)) → w.followAll p items = .ok w' →
        ∃ h', Tracks p s w' h' ∧ Extends h h' (items.map (·.1))
  | [], w, h, ht, _, _, _, hfollow => by
    cases hfollow
    exact ⟨h, ht, List.suffix_refl h, rfl, by simp⟩
  | (a, c) :: rest, w, h, ht, hleaves, hnodup, hnew, hfollow => by
    simp only [followAll] at hfollow
    split at hfollow
    · rename_i w₁ hfirst
      obtain ⟨ha, hl⟩ := hleaves (a, c) (by simp)
      obtain ⟨h₁, ht₁, hext⟩ := follow_tracks hp hroots ht ha hl (hnew (a, c) (by simp)) hfirst
      rw [List.map_cons, List.nodup_cons] at hnodup
      have hleaves₁ : ∀ x ∈ rest, x.1 < p.arrows.length ∧ Leaves p h₁ x.1 x.2 := fun x hx => by
        obtain ⟨hlt, hlx⟩ := hleaves x (by simp [hx])
        exact ⟨hlt, leaves_mono hext.keeps.subset hlx⟩
      have hnew₁ : ∀ x ∈ rest, x.1 ∉ h₁.followed.map (·.1) := fun x hx => by
        rw [hext.followed, List.mem_append]
        rintro (hmem | hmem)
        · exact hnew x (by simp [hx]) hmem
        · exact hnodup.1 (by rw [← List.mem_singleton.1 hmem]; exact List.mem_map_of_mem hx)
      obtain ⟨h', ht', hext'⟩ := followAll_tracks hp hroots ht₁ hleaves₁ hnodup.2 hnew₁ hfollow
      exact ⟨h', ht', hext.keeps.trans hext'.keeps, hext'.visited.trans hext.visited,
        by rw [hext'.followed, hext.followed, List.append_assoc]; rfl⟩
    · cases hfollow

/-! ## Visiting nodes -/

/-- The arrows that leave a node, with the conditions of their pins. -/
def departures (p : Program) (n : Nat) (conditions : List Condition) : List (Nat × Condition) :=
  ((p.node n).pins.zip conditions).flatMap fun (pin, c) => pin.arrows.map fun a => (a, c)

/-- Every arrow of the node is among them. -/
theorem departures_arrows {n : Nat} {conditions : List Condition} (hlen : conditions.length = (p.node n).pins.length) :
    (departures p n conditions).map (·.1) = (p.node n).outgoing := by
  unfold departures Node.outgoing
  have hpins : ((p.node n).pins.zip conditions).map Prod.fst = (p.node n).pins :=
    List.map_fst_zip (by omega)
  conv_rhs => rw [← hpins]
  rw [List.map_flatMap, List.flatMap_map]
  refine List.flatMap_congr fun x _ => ?_
  simp [Function.comp_def]

theorem mem_departures (hp : p.Consistent) {n : Nat} {conditions : List Condition} {x : Nat × Condition}
    (hx : x ∈ departures p n conditions) :
    x.1 < p.arrows.length ∧ (p.arrow x.1).source = n ∧ conditions[(p.arrow x.1).pin]? = some x.2 := by
  obtain ⟨⟨pin, c⟩, hpin, hx⟩ := List.mem_flatMap.1 hx
  obtain ⟨a, ha, rfl⟩ := List.mem_map.1 hx
  obtain ⟨k, hk⟩ := List.mem_iff_getElem?.1 hpin
  rw [List.getElem?_zip_eq_some] at hk
  rw [hp.leaving n k pin hk.1] at ha
  simp only [List.mem_filter, List.mem_range, decide_eq_true_eq] at ha
  obtain ⟨hlt, hsource, rfl⟩ := ha
  exact ⟨hlt, hsource, hk.2⟩

theorem departures_nodup (hp : p.Consistent) (n : Nat) (conditions : List Condition) :
    ((departures p n conditions).map (·.1)).Nodup := by
  have harrows : ∀ k pin, (p.node n).pins[k]? = some pin →
      pin.arrows.Nodup ∧ ∀ a ∈ pin.arrows, (p.arrow a).pin = k := by
    intro k pin hk
    rw [hp.leaving n k pin hk]
    refine ⟨List.nodup_range.filter _, fun a ha => ?_⟩
    simp only [List.mem_filter, decide_eq_true_eq] at ha
    exact ha.2.2
  simp only [departures, List.map_flatMap, List.map_map, Function.comp_def, List.map_id']
  refine List.pairwise_flatMap.2 ⟨fun x hx => ?_, ?_⟩
  · obtain ⟨k, hk⟩ := List.mem_iff_getElem?.1 hx
    exact (harrows k x.1 (List.getElem?_zip_eq_some.1 hk).1).1
  · refine List.pairwise_iff_getElem.2 fun i j hi hj hij a ha b hb hab => ?_
    have hpi := List.getElem?_zip_eq_some.1 (List.getElem?_eq_getElem hi)
    have hpj := List.getElem?_zip_eq_some.1 (List.getElem?_eq_getElem hj)
    have h₁ := (harrows i _ hpi.1).2 a ha
    have h₂ := (harrows j _ hpj.1).2 b hb
    rw [hab, h₂] at h₁
    omega

theorem next?_ok {x : Nat × Condition} (hnext : w.next? = some (x, w')) :
    w.waiting = x :: w'.waiting ∧ w'.scopes = w.scopes ∧ w'.followed = w.followed ∧ w'.resultType = w.resultType := by
  unfold next? at hnext
  unfold waiting
  split at hnext
  · rename_i item rest hready
    cases hnext
    exact ⟨by simp [hready], rfl, rfl, rfl⟩
  · rename_i item rest hready hforks
    cases hnext
    exact ⟨by simp [hready, hforks], rfl, rfl, rfl⟩
  · cases hnext

/-- A node is taken from the queue and visited by an event, which keeps the other nodes ready. -/
theorem Tracks.visit (hp : p.Consistent) (hroots : ∀ i ∈ s.roots, (p.node i).incoming = [])
    {n : Nat} {c : Condition} {w₁ : Walk} (ht : Tracks p s w h) (hnext : w.next? = some ((n, c), w₁))
    {e : WalkEvent} (hvisit : e.visit? = some (n, c)) (allowed : h.Allowed p s e)
    (hscopes : w'.scopes = w₁.scopes.run (e.ops p s)) (hfollowed : w'.followed = w₁.followed)
    (hwaiting : w'.waiting = w₁.waiting)
    (hresult : ∀ t, w'.resultType = some t ↔ ∃ n c, .sink n c ∈ e :: h ∧ (p.node n).ty = t) :
    Tracks p s w' (e :: h) := by
  have hpop := next?_ok hnext
  have hnodup := ht.nodup
  rw [hpop.1, List.map_cons, List.nodup_cons] at hnodup
  have harrow : e.arrow? = none := by
    cases e <;> simp_all [WalkEvent.visit?, WalkEvent.arrow?]
  refine ⟨.step ht.history allowed, ?_, ?_, fun x hx => ?_, by rw [hwaiting]; exact hnodup.2, hresult⟩
  · rw [hscopes, hpop.2.1, ht.scopes, scopes_cons]
  · rw [hfollowed, hpop.2.2.1, ht.followed, followed_cons, harrow, Option.toList_none, List.append_nil]
  · rw [hwaiting] at hx
    obtain ⟨hready, hnot⟩ := ht.ready x (by rw [hpop.1]; exact List.mem_cons_of_mem _ hx)
    refine ⟨ready_cons hp hroots ht.history allowed hready, ?_⟩
    simp only [Events.visited, List.filterMap_cons, hvisit, Option.map_some, List.mem_cons, not_or]
    exact ⟨fun heq => hnodup.1 (List.mem_map.2 ⟨x, hx, heq⟩), hnot⟩

theorem sink_ok {f : String} {n : Nat} {c : Condition} (hsink : w.sink p f n c = .ok w') :
    w.scopes.receiving c ≠ 0 ∧ w'.scopes = w.scopes.run (WalkEvent.ops p s (.sink n c)) ∧
      w'.followed = w.followed ∧ w'.waiting = w.waiting ∧ w'.resultType = some (p.node n).ty ∧
      ∀ t, w.resultType = some t → t = (p.node n).ty := by
  unfold sink at hsink
  dsimp only at hsink
  split at hsink
  · cases hsink
  · rename_i hfound
    split at hsink
    · cases hsink
    · rename_i hreceiving
      cases hsink
      exact ⟨hreceiving, rfl, rfl, rfl, rfl, fun t ht => by simpa [ht] using hfound⟩

/-- A node with one pin is left under its own condition; another one forks. -/
theorem branch_ok {n : Nat} {c : Condition} {conditions : List Condition}
    (hbranch : w.branch p n c = .ok (w', conditions)) :
    ((p.node n).isBranching = false ∧ w' = w ∧ conditions = (p.node n).pins.map fun _ => c) ∨
      ((p.node n).isBranching = true ∧ ∃ labels, pinLabels n (p.node n).ty 0 (p.node n).pins = .ok labels ∧
        ((p.node n).pins.getLast?.any fun pin => pin.brancher.isIrrefutable) = true ∧
        w' = { w with scopes := w.scopes.fork c labels } ∧ conditions = w.scopes.branchConditions c labels) := by
  unfold branch at hbranch
  dsimp only at hbranch
  split at hbranch
  · rename_i hbranching
    obtain ⟨labels, hlabels, hbranch⟩ := Except.bind_ok.1 hbranch
    split at hbranch
    · rename_i hlast
      cases hbranch
      exact Or.inr ⟨hbranching, labels, hlabels, hlast, rfl, rfl⟩
    · cases hbranch
  · rename_i hsingle
    cases hbranch
    exact Or.inl ⟨by simpa using hsingle, rfl, rfl⟩

/-- There is a condition for every pin. -/
theorem branch_length {n : Nat} {c : Condition} {conditions : List Condition}
    (hbranch : w.branch p n c = .ok (w', conditions)) : conditions.length = (p.node n).pins.length := by
  rcases branch_ok hbranch with ⟨_, _, rfl⟩ | ⟨_, labels, hlabels, _, _, rfl⟩
  · simp
  · simp [ScopeBuilder.branchConditions, ScopeBuilder.branchVars, (pinLabels_ok hlabels).length_eq]

/-- What visiting a node adds to a history: the visit, and then its arrows are followed. -/
structure Visits (p : Program) (n : Nat) (h h' : Events) : Prop where
  keeps : h <:+ h'
  visited : h'.visited = n :: h.visited
  followed : h'.followed.map (·.1) = h.followed.map (·.1) ++ (p.node n).outgoing

/-- What leaving a node adds to a history: the visit. Its arrows, `items`, are to be followed. -/
structure Leaving (p : Program) (n : Nat) (h h' : Events) (items : List (Nat × Condition)) : Prop where
  keeps : h <:+ h'
  visited : h'.visited = n :: h.visited
  followed : h'.followed = h.followed
  arrows : items.map (·.1) = (p.node n).outgoing
  leaves : ∀ x ∈ items, x.1 < p.arrows.length ∧ Leaves p h' x.1 x.2
  fresh : ∀ x ∈ items, x.1 ∉ h'.followed.map (·.1)

/-- An event that visits a node leaves it if each of its pins has the condition of the arrows there. -/
theorem leaving_of_visit (hp : p.Consistent) {n : Nat} {c : Condition} {e : WalkEvent} {conditions : List Condition}
    (hist : History p s h) (hnot : n ∉ h.visited) (hvisited : e.visit? = some (n, c)) (harrow : e.arrow? = none)
    (hlen : conditions.length = (p.node n).pins.length)
    (hleaves : ∀ a c, a < p.arrows.length → (p.arrow a).source = n →
      conditions[(p.arrow a).pin]? = some c → Leaves p (e :: h) a c) :
    Leaving p n h (e :: h) (departures p n conditions) := by
  have hsame : Events.followed (e :: h) = h.followed := by
    rw [followed_cons, harrow, Option.toList_none, List.append_nil]
  refine ⟨List.suffix_cons e h, by simp [Events.visited, hvisited], hsame, departures_arrows hlen, fun x hx => ?_,
    fun x hx hmem => ?_⟩
  · obtain ⟨hlt, hsource, hc⟩ := mem_departures hp hx
    exact ⟨hlt, hleaves x.1 x.2 hlt hsource hc⟩
  · -- an arrow that leaves the node was not followed, for the node was not visited
    obtain ⟨_, hsource, _⟩ := mem_departures hp hx
    rw [hsame] at hmem
    obtain ⟨y, hy, heq⟩ := List.mem_map.1 hmem
    exact hnot (hsource ▸ heq ▸ leaves_visited (hist.followed_leaves hy).2)

/-- A node that is no sink is taken from the queue, and its branches are opened. -/
theorem branch_tracks (hp : p.Consistent) (hroots : ∀ i ∈ s.roots, (p.node i).incoming = []) {n : Nat} {c : Condition}
    {w₁ : Walk} {conditions : List Condition} (ht : Tracks p s w h) (hnext : w.next? = some ((n, c), w₁))
    (hsink : (p.node n).isSink = false) (hbranch : w₁.branch p n c = .ok (w', conditions)) :
    ∃ h', Tracks p s w' h' ∧ Leaving p n h h' (departures p n conditions) := by
  obtain ⟨hwaiting, hscopes, _, hres⟩ := next?_ok hnext
  rw [ht.scopes] at hscopes
  obtain ⟨hready, hnot⟩ : Ready p h n c ∧ n ∉ h.visited :=
    ht.ready (n, c) (by rw [hwaiting]; exact List.mem_cons_self)
  have hresult : ∀ {e : WalkEvent}, (∀ m d, e ≠ .sink m d) →
      ∀ t, w₁.resultType = some t ↔ ∃ n c, .sink n c ∈ e :: h ∧ (p.node n).ty = t := by
    intro e he t
    rw [hres, ht.result, sink_mem_cons he]
  have hlen := branch_length hbranch
  rcases branch_ok hbranch with ⟨hsingle, rfl, rfl⟩ | ⟨hbranching, labels, hlabels, hlast, rfl, rfl⟩
  · refine ⟨.pass n c :: h, ht.visit hp hroots hnext rfl ⟨hready, hnot, hsink, hsingle⟩ rfl rfl rfl (hresult (by simp)),
      leaving_of_visit hp ht.history hnot rfl rfl hlen fun a d hlt hsource hd => ?_⟩
    obtain ⟨_, _, rfl⟩ := Option.map_eq_some_iff.1 ((List.getElem?_map ..).symm.trans hd)
    exact .pass (by rw [hsource]; exact List.mem_cons_self)
  · refine ⟨.fork n c labels w₁.scopes.nextVar :: h, ht.visit hp hroots hnext rfl
        ⟨hready, hnot, hsink, hbranching, hlabels, hlast, by rw [hscopes]⟩ rfl rfl rfl (hresult (by simp)),
      leaving_of_visit hp ht.history hnot rfl rfl hlen fun a d hlt hsource hd => ?_⟩
    exact .fork c labels w₁.scopes.nextVar (by rw [hsource]; exact List.mem_cons_self)
      (ScopeBuilder.branchConditions_getElem?.1 hd).2

/-- A sink is taken from the queue and gives the result. No arrow leaves it. -/
theorem sink_tracks (hp : p.Consistent) (hroots : ∀ i ∈ s.roots, (p.node i).incoming = []) {f : String} {n : Nat}
    {c : Condition} {w₁ : Walk} (ht : Tracks p s w h) (hnext : w.next? = some ((n, c), w₁))
    (hsink : (p.node n).isSink = true) (hw : w₁.sink p f n c = .ok w') :
    ∃ h', Tracks p s w' h' ∧ Leaving p n h h' [] := by
  obtain ⟨hwaiting, hscopes, _, hres⟩ := next?_ok hnext
  rw [ht.scopes] at hscopes
  obtain ⟨hready, hnot⟩ : Ready p h n c ∧ n ∉ h.visited :=
    ht.ready (n, c) (by rw [hwaiting]; exact List.mem_cons_self)
  obtain ⟨hreceiving, hsc, hfol, hwait, hty, hsame⟩ := sink_ok (s := s) hw
  rw [hscopes] at hreceiving
  have hnone : (p.node n).outgoing = [] := by
    simpa [Node.isSink, Node.outgoing, List.flatMap_eq_nil_iff] using hsink
  refine ⟨_, ht.visit hp hroots hnext rfl (e := .sink n c) ⟨hready, hnot, hsink, hreceiving⟩ hsc hfol hwait
    fun t => ?_, List.suffix_cons _ h, rfl, by simp [WalkEvent.arrow?], hnone.symm, by simp, by simp⟩
  rw [hty]
  constructor
  · rintro ⟨⟩
    exact ⟨n, c, List.mem_cons_self, rfl⟩
  · rintro ⟨m, d, hmem, rfl⟩
    rcases List.mem_cons.1 hmem with heq | hmem
    · cases heq
      rfl
    · rw [← hsame _ (by rw [hres, ht.result]; exact ⟨m, d, hmem, rfl⟩)]

theorem visit_tracks (hp : p.Consistent) (hroots : ∀ i ∈ s.roots, (p.node i).incoming = [])
    {f : String} {n : Nat} {c : Condition} {w₁ : Walk} (ht : Tracks p s w h)
    (hnext : w.next? = some ((n, c), w₁)) (hvisit : w₁.visit p f n c = .ok w') :
    ∃ h', Tracks p s w' h' ∧ Visits p n h h' := by
  unfold visit at hvisit
  dsimp only at hvisit
  split at hvisit
  · rename_i hsink
    obtain ⟨h', ht', hleaving⟩ := sink_tracks hp hroots ht hnext hsink hvisit
    refine ⟨h', ht', hleaving.keeps, hleaving.visited, ?_⟩
    rw [hleaving.followed, ← hleaving.arrows, List.map_nil, List.append_nil]
  · rename_i hsink
    obtain ⟨⟨w₂, conditions⟩, hbranch, hfollow⟩ := Except.bind_ok.1 hvisit
    obtain ⟨h₂, ht₂, hleaving⟩ := branch_tracks hp hroots ht hnext (by simpa using hsink) hbranch
    obtain ⟨h', ht', hext⟩ := followAll_tracks hp hroots ht₂ hleaving.leaves (departures_nodup hp n conditions)
      hleaving.fresh hfollow
    refine ⟨h', ht', hleaving.keeps.trans hext.keeps, hext.visited.trans hleaving.visited, ?_⟩
    rw [hext.followed, hleaving.followed, hleaving.arrows]

/-! ## Whole walks -/

theorem run_tracks (hp : p.Consistent) (hroots : ∀ i ∈ s.roots, (p.node i).incoming = []) {f : String} :
    ∀ {fuel : Nat} {w : Walk} {h : Events}, Tracks p s w h → w.run p f fuel = .ok w' →
      ∃ h', Tracks p s w' h' ∧ h <:+ h'
  | 0, w, h, ht, hrun => by
    cases hrun
    exact ⟨h, ht, List.suffix_refl h⟩
  | fuel + 1, w, h, ht, hrun => by
    simp only [run] at hrun
    split at hrun
    · cases hrun
      exact ⟨h, ht, List.suffix_refl h⟩
    · rename_i n c w₁ hnext
      split at hrun
      · rename_i w₂ hvisit
        obtain ⟨h₂, ht₂, hvisits⟩ := visit_tracks hp hroots ht hnext hvisit
        obtain ⟨h', ht', hkeeps⟩ := run_tracks hp hroots ht₂ hrun
        exact ⟨h', ht', hvisits.keeps.trans hkeeps⟩
      · cases hrun

theorem atRoots_tracks (hp : p.Consistent) (hroots : ∀ i ∈ s.roots, (p.node i).incoming = []) :
    ∀ {rest : List Nat} {w : Walk} {h : Events}, Tracks p s w h → (∀ i ∈ rest, i ∈ s.roots) → rest.Nodup →
      (∀ i ∈ rest, i ∉ w.waiting.map (·.1)) → (∀ i ∈ rest, .root i ∉ h) → h.visited = [] →
      ∃ h', Tracks p s (atRoots p s rest w) h' ∧ h ⊆ h' ∧ h'.visited = [] ∧ ∀ i ∈ rest, .root i ∈ h'
  | [], w, h, ht, _, _, _, _, hvisited => ⟨h, ht, List.Subset.refl h, hvisited, by simp⟩
  | i :: rest, w, h, ht, hin, hnodup, hwaiting, hnew, hvisited => by
    rw [List.nodup_cons] at hnodup
    obtain ⟨w₁, hw₁, hscopes, hfol, hwait, hres⟩ : ∃ w₁ : Walk,
        atRoots p s (i :: rest) w = atRoots p s rest (w₁.enqueue p i .always) ∧
        w₁.scopes = w.scopes.run (WalkEvent.ops p s (.root i)) ∧ w₁.followed = w.followed ∧
        w₁.waiting = w.waiting ∧ w₁.resultType = w.resultType := by
      simp only [atRoots, WalkEvent.ops, WalkEvent.steps]
      cases s.param with
      | none => exact ⟨w.addStep .always (.bind (nodeVar i) (p.node i).ty (.lit .unit)), rfl, rfl, rfl, rfl, rfl⟩
      | some j =>
        exact ⟨w.unpack p i .always, rfl, by rw [unpack_eq]; rfl, by rw [unpack_eq], by rw [unpack_eq]; rfl,
          by rw [unpack_eq]⟩
    have ht₁ : Tracks p s w₁ (.root i :: h) :=
      ht.event hp hroots rfl ⟨hin i (by simp), hnew i (by simp)⟩ hscopes (by simp [hfol, WalkEvent.arrow?]) hwait hres
    have hnone : Events.visited (.root i :: h) = [] := by simpa [Events.visited, WalkEvent.visit?] using hvisited
    have ht₂ : Tracks p s (w₁.enqueue p i .always) (.root i :: h) :=
      enqueue_tracks ht₁ (.root List.mem_cons_self rfl) (by simp [hnone]) (by rw [hwait]; exact hwaiting i (by simp))
    have hwaiting₂ : ∀ j ∈ rest, j ∉ (w₁.enqueue p i .always).waiting.map (·.1) := fun j hj hmem => by
      rw [((enqueue_perm p w₁ i .always).map (·.1)).mem_iff, List.map_cons, List.mem_cons, hwait] at hmem
      rcases hmem with rfl | hmem
      · exact hnodup.1 hj
      · exact hwaiting j (by simp [hj]) hmem
    have hnew₂ : ∀ j ∈ rest, .root j ∉ .root i :: h := fun j hj hmem => by
      rcases List.mem_cons.1 hmem with heq | hmem
      · cases heq
        exact hnodup.1 hj
      · exact hnew j (by simp [hj]) hmem
    obtain ⟨h', ht', hkeeps, hnone', hall⟩ :=
      atRoots_tracks hp hroots ht₂ (fun j hj => hin j (by simp [hj])) hnodup.2 hwaiting₂ hnew₂ hnone
    rw [hw₁]
    refine ⟨h', ht', fun e he => hkeeps (List.mem_cons_of_mem _ he), hnone', fun j hj => ?_⟩
    rcases List.mem_cons.1 hj with rfl | hj
    · exact hkeeps List.mem_cons_self
    · exact hall j hj

end Walk

/-! ## Planned functions -/

namespace Program

/-- The roots at which a function of the plan starts: the node of its parameter, or all roots without
a name. -/
def rootsOf (p : Program) (f : FunctionPlan) : List Nat :=
  p.roots.filter fun i =>
    match f.param with
    | some x => nodeVar i = x
    | none => (p.node i).name.isNone

theorem mem_roots {p : Program} {i : Nat} : i ∈ p.roots ↔ i < p.nodes.length ∧ (p.node i).incoming = [] := by
  simp [roots, Node.isRoot]

theorem roots_nodup (p : Program) : p.roots.Nodup := List.nodup_range.filter _

/-- The functions of the named roots. -/
def namedSeeds (p : Program) (roots : List Nat) : List Seed :=
  roots.filterMap fun i => (p.node i).name.map fun name => ⟨name, [i], some i⟩

/-- The roots without a name. -/
def unnamed (p : Program) (roots : List Nat) : List Nat :=
  roots.filter fun i => (p.node i).name.isNone

/-- The roots without a name that are among `roots` hold the unit value. -/
def StartsAtUnit (p : Program) (roots : List Nat) : Prop :=
  ∀ i ∈ roots, (p.node i).name = none → (p.node i).ty = .unit

/-- Roots are refused only for the type of one without a name. -/
theorem splitRoots_cases {p : Program} : ∀ roots : List Nat,
    (p.StartsAtUnit roots ∧ p.splitRoots roots = .ok (p.namedSeeds roots, p.unnamed roots)) ∨
    ∃ i ∈ roots, (p.node i).name = none ∧ (p.node i).ty ≠ .unit ∧
      p.splitRoots roots = .error (.mainInput i (p.node i).ty)
  | [] => Or.inl ⟨by simp [StartsAtUnit], rfl⟩
  | i :: rest => by
    cases hname : (p.node i).name with
    | some name =>
      rcases splitRoots_cases rest with ⟨hunit, hrest⟩ | ⟨j, hj, hnone, hty, hrest⟩
      · refine Or.inl ⟨List.forall_mem_cons.2 ⟨by simp [hname], hunit⟩, ?_⟩
        simp [splitRoots, hname, hrest, namedSeeds, unnamed, bind, Except.bind, pure, Except.pure]
      · refine Or.inr ⟨j, List.mem_cons_of_mem i hj, hnone, hty, ?_⟩
        simp [splitRoots, hname, hrest, bind, Except.bind]
    | none =>
      by_cases hty : (p.node i).ty = .unit
      · rcases splitRoots_cases rest with ⟨hunit, hrest⟩ | ⟨j, hj, hnone, hty', hrest⟩
        · refine Or.inl ⟨List.forall_mem_cons.2 ⟨fun _ => hty, hunit⟩, ?_⟩
          simp [splitRoots, hname, hty, hrest, namedSeeds, unnamed, bind, Except.bind, pure, Except.pure]
        · refine Or.inr ⟨j, List.mem_cons_of_mem i hj, hnone, hty', ?_⟩
          simp [splitRoots, hname, hty, hrest, bind, Except.bind]
      · exact Or.inr ⟨i, List.mem_cons_self, hname, hty, by simp [splitRoots, hname, hty]⟩

/-- A named root is a function of its own, and the others are put together. -/
theorem splitRoots_ok {p : Program} {roots : List Nat} {seeds : List Seed} {unnamed : List Nat}
    (h : p.splitRoots roots = .ok (seeds, unnamed)) :
    unnamed = roots.filter (fun i => (p.node i).name.isNone) ∧ (∀ i ∈ unnamed, (p.node i).ty = .unit) ∧
      ∀ s ∈ seeds, ∃ i ∈ roots, s.roots = [i] ∧ s.param = some i := by
  rcases splitRoots_cases roots with ⟨hunit, hsplit⟩ | ⟨_, _, _, _, hsplit⟩
  · rw [hsplit] at h
    cases h
    refine ⟨rfl, fun i hi => ?_, fun s hs => ?_⟩
    · obtain ⟨hi, hnone⟩ := List.mem_filter.1 hi
      exact hunit i hi (by simpa using hnone)
    · obtain ⟨i, hi, hs⟩ := List.mem_filterMap.1 hs
      obtain ⟨name, _, rfl⟩ := Option.map_eq_some_iff.1 hs
      exact ⟨i, hi, rfl, rfl⟩
  · rw [hsplit] at h
    cases h

/-- The functions of a program start at its roots. -/
theorem seeds_ok {p : Program} {seeds : List Seed} (h : p.seeds = .ok seeds) {s : Seed} (hs : s ∈ seeds) :
    (∃ i ∈ p.roots, s.roots = [i] ∧ s.param = some i) ∨
      (s.roots = p.roots.filter (fun i => (p.node i).name.isNone) ∧ (∀ i ∈ s.roots, (p.node i).ty = .unit) ∧
        s.param = none) := by
  unfold Program.seeds at h
  obtain ⟨⟨named, unnamed⟩, hsplit, h⟩ := Except.bind_ok.1 h
  obtain ⟨_, _, h⟩ := Except.bind_ok.1 h
  obtain ⟨rfl, hunit, hnamed⟩ := splitRoots_ok hsplit
  cases h
  split at hs
  · exact Or.inl (hnamed s hs)
  · rcases List.mem_append.1 hs with hs | hs
    · exact Or.inl (hnamed s hs)
    · obtain rfl := List.mem_singleton.1 hs
      exact Or.inr ⟨rfl, hunit, rfl⟩

theorem planFunctions_ok {p : Program} : ∀ {seeds : List Seed} {fs : List FunctionPlan},
    p.planFunctions seeds = .ok fs → ∀ f ∈ fs, ∃ s ∈ seeds, p.planFunction s = .ok f
  | [], fs, h, f, hf => by
    cases h
    cases hf
  | s :: rest, fs, h, f, hf => by
    simp only [planFunctions] at h
    split at h
    · cases h
    · rename_i g hg
      split at h
      · rename_i gs hgs
        cases h
        rcases List.mem_cons.1 hf with rfl | hf
        · exact ⟨s, by simp, hg⟩
        · obtain ⟨s', hs', hf⟩ := planFunctions_ok hgs f hf
          exact ⟨s', by simp [hs'], hf⟩
      · cases h

end Program

/-- A function starts at roots: at its parameter alone, or at nodes that hold the unit value. -/
structure Seed.Rooted (p : Program) (s : Seed) : Prop where
  entered : ∀ i ∈ s.roots, (p.node i).incoming = []
  nodup : s.roots.Nodup
  start : (∃ i, s.roots = [i] ∧ s.param = some i) ∨ (s.param = none ∧ ∀ i ∈ s.roots, (p.node i).ty = .unit)

/-- The history behind a planned function. -/
structure Planned (p : Program) (s : Seed) (f : FunctionPlan) (h : Events) : Prop where
  rooted : s.Rooted p
  param : f.param = s.param.map nodeVar
  paramType : f.paramType = s.param.elim .unit fun i => (p.node i).ty
  resultType : f.resultType = .unit ∨ ∃ n c, .sink n c ∈ h ∧ (p.node n).ty = f.resultType
  result : ∀ n c, .sink n c ∈ h → (p.node n).ty = f.resultType
  roots : ∀ i, i ∈ p.rootsOf f ↔ i ∈ s.roots
  history : History p s h
  started : ∃ h₀ : Events, h₀ <:+ h ∧ h₀.visited = [] ∧ ∀ i ∈ s.roots, .root i ∈ h₀
  body : (h.scopes p s).extract = .ok f.body

theorem Program.seed_rooted {p : Program} {seeds : List Seed} (hseeds : p.seeds = .ok seeds) {s : Seed}
    (hs : s ∈ seeds) : s.Rooted p := by
  rcases seeds_ok hseeds hs with ⟨j, hj, hroots, hparam⟩ | ⟨hroots, hunit, hparam⟩
  · refine ⟨fun i hi => ?_, by simp [hroots], Or.inl ⟨j, hroots, hparam⟩⟩
    rw [hroots, List.mem_singleton] at hi
    exact (mem_roots.1 (hi ▸ hj)).2
  · refine ⟨fun i hi => ?_, by rw [hroots]; exact p.roots_nodup.filter _, Or.inr ⟨hparam, hunit⟩⟩
    rw [hroots, List.mem_filter] at hi
    exact (mem_roots.1 hi.1).2

/-- The walk at the roots of a function has a history in which they have their values. -/
theorem Seed.Rooted.atRoots_history {p : Program} (hp : p.Consistent) {s : Seed} (hrooted : s.Rooted p) :
    ∃ h : Events, Walk.Tracks p s (Walk.atRoots p s s.roots {}) h ∧ h.visited = [] ∧ ∀ i ∈ s.roots, .root i ∈ h := by
  have hstart : Walk.Tracks p s {} [] :=
    ⟨.start, rfl, rfl, by simp [Walk.waiting], by simp [Walk.waiting], by simp⟩
  obtain ⟨h, ht, _, hnone, hall⟩ := Walk.atRoots_tracks hp hrooted.entered hstart (fun i hi => hi) hrooted.nodup
    (by simp [Walk.waiting]) (by simp) rfl
  exact ⟨h, ht, hnone, hall⟩

/-- A walk from the roots of a function has a history that starts with them. -/
theorem Seed.Rooted.run_history {p : Program} (hp : p.Consistent) {s : Seed} (hrooted : s.Rooted p) {fuel : Nat}
    {w : Walk} (hrun : Walk.run p s.name fuel (Walk.atRoots p s s.roots {}) = .ok w) :
    ∃ h₀ h : Events, Walk.Tracks p s w h ∧ h₀ <:+ h ∧ h₀.visited = [] ∧ ∀ i ∈ s.roots, .root i ∈ h₀ := by
  obtain ⟨h₀, ht₀, hnone, hall⟩ := hrooted.atRoots_history hp
  obtain ⟨h, ht, hkeeps⟩ := Walk.run_tracks hp hrooted.entered ht₀ hrun
  exact ⟨h₀, h, ht, hkeeps, hnone, hall⟩

/-- The end of a walk from the roots of a function, and its history, give a planned function. -/
theorem Program.planned_of_tracks {p : Program} {seeds : List Seed} (hseeds : p.seeds = .ok seeds) {s : Seed}
    (hs : s ∈ seeds) {w : Walk} {h : Events} (ht : Walk.Tracks p s w h)
    (hstarted : ∃ h₀ : Events, h₀ <:+ h ∧ h₀.visited = [] ∧ ∀ i ∈ s.roots, .root i ∈ h₀) {body : Body}
    (hbody : w.scopes.extract = .ok body) :
    Planned p s
      { name := s.name, param := s.param.map nodeVar, paramType := s.param.elim .unit fun i => (p.node i).ty,
        resultType := w.resultType.getD .unit, body } h := by
  have hresult : ∀ n c, .sink n c ∈ h → (p.node n).ty = w.resultType.getD .unit := fun n c hsink => by
    rw [(ht.result _).2 ⟨n, c, hsink, rfl⟩, Option.getD_some]
  have hresultType : w.resultType.getD .unit = .unit ∨
      ∃ n c, .sink n c ∈ h ∧ (p.node n).ty = w.resultType.getD .unit := by
    cases ht' : w.resultType with
    | none => exact Or.inl rfl
    | some t => exact Or.inr ((ht.result t).1 ht')
  refine ⟨seed_rooted hseeds hs, rfl, rfl, hresultType, hresult, fun i => ?_, ht.history, hstarted, ?_⟩
  · rcases seeds_ok hseeds hs with ⟨j, hj, hroots, hparam⟩ | ⟨hroots, _, hparam⟩
    · simp only [rootsOf, hparam, Option.map_some, List.mem_filter, decide_eq_true_eq, hroots, List.mem_singleton]
      exact ⟨fun hi => nodeVar_injective hi.2, fun hi => by rw [hi]; exact ⟨hj, rfl⟩⟩
    · simp only [rootsOf, hparam, Option.map_none, hroots]
  · rw [← ht.scopes]
    exact hbody

/-- Every function of a plan has a history. -/
theorem Program.plan_history {p : Program} (hp : p.Consistent) {plan : ProgramPlan} (hplan : p.plan = .ok plan)
    {f : FunctionPlan} (hf : f ∈ plan.functions) : ∃ s h, Planned p s f h := by
  obtain ⟨seeds, hseeds, hplan⟩ := Except.bind_ok.1 hplan
  obtain ⟨functions, hfunctions, hplan⟩ := Except.bind_ok.1 hplan
  cases hplan
  obtain ⟨s, hs, hfs⟩ := planFunctions_ok hfunctions f hf
  obtain ⟨w, hrun, hfs⟩ := Except.bind_ok.1 hfs
  obtain ⟨h₀, h, ht, hstarted⟩ := (seed_rooted hseeds hs).run_history hp hrun
  split at hfs
  · cases hfs
  · rename_i body hbody
    cases hfs
    exact ⟨s, h, planned_of_tracks hseeds hs ht ⟨h₀, hstarted⟩ hbody⟩

/-! ## Plans that can be worked out -/

/-- The program that a draft gives with the symbols of the prelude, and its plan. -/
def Draft.planned? (d : Draft) : Option (Program × ProgramPlan) :=
  let read : ExceptT TypingError (StateM Unit) Program := Program.ofDraft SymbolTable.prelude.resolver d
  match (read.run.run ()).1 with
  | .error _ => none
  | .ok p =>
    match p.plan with
    | .error _ => none
    | .ok plan => some (p, plan)

theorem Draft.exists_planned (d : Draft) (check : Program → ProgramPlan → Bool)
    (h : d.planned?.any (fun x => check x.1 x.2) = true) :
    ∃ p plan, d.ReadsAs p ∧ p.plan = .ok plan ∧ check p plan = true := by
  obtain ⟨⟨p, plan⟩, hplanned, hcheck⟩ := (Option.any_eq_true _ _).1 h
  unfold planned? at hplanned
  dsimp only at hplanned
  split at hplanned
  · cases hplanned
  · rename_i p' hread
    split at hplanned
    · cases hplanned
    · rename_i plan' hplan
      cases hplanned
      exact ⟨p, plan, ⟨Unit, _, (), _, Prod.ext hread rfl⟩, hplan, hcheck⟩

/-- A function with a fork, a join and an intersection: it adds a pair unless its first part is zero,
and adds up the sum less ten and the sum plus one. -/
def Draft.spreadSum : Draft where
  nodes := [⟨"(Int, Int)", some "f", ["(0, _)", "_"], false⟩, ⟨"Int", none, ["_"], true⟩, ⟨"Int", none, ["_"], true⟩,
    ⟨"Int", none, ["_"], true⟩, ⟨"(Int, Int)", none, ["_"], true⟩, ⟨"Int", none, [], true⟩]
  connections := [⟨0, 1, 0, "snd"⟩, ⟨0, 1, 1, "+"⟩, ⟨1, 2, 0, "- 10"⟩, ⟨1, 3, 0, "+ 1"⟩, ⟨2, 4, 0, "$0"⟩,
    ⟨3, 4, 0, "$1"⟩, ⟨4, 5, 0, "+"⟩]

end Dataflow
