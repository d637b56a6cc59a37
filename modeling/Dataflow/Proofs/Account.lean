import Dataflow.Proofs.Journey

/-!
# Values along a path

A run that follows a path gives values to the nodes it comes by, one event of the history after the
other. A value that was used for another stays, since the variables of a node are not touched once it
has been visited. So when the path ends, every value on it is still accounted for by the values it was
worked out from.
-/

namespace Dataflow

namespace History

open Events Eval

variable {p : Program} {s : Seed} {q : Condition} {h : Events} {eval : Env → Expr → Outcome} {start : Value}
  {env last : Env}

/-- Where the value of a node comes from, on a path that has led to the variables `env`. The nodes that
it was worked out from still have the values that were used. -/
inductive Justified (p : Program) (q : Condition) (eval : Env → Expr → Outcome) (start : Value) (h : Events)
    (env : Env) (n : Nat) (v : Value) : Prop where
  | root (hroot : .root n ∈ h) (value : v = start)
  | brought (a : Nat) (c : Condition) (e : Expr) (u : Value) (prior : Env) (hbring : .bring a c e ∈ h)
      (target : (p.arrow a).target = n) (holds : OnPath q c) (source : env.find? (nodeVar (p.arrow a).source) = some u)
      (shown : Shows p (p.arrow a).source u prior) (value : eval prior e = .ok v)
  | met (c : Condition) (items : List Expr) (prior : Env) (hmeet : .meet n c items ∈ h) (holds : OnPath q c)
      (sources : ∀ x ∈ h.arrivals p n,
        prior.find? (nodeVar (p.arrow x.1).source) = env.find? (nodeVar (p.arrow x.1).source))
      (value : eval prior (.tuple items) = .ok v)

/-- What is true of the variables once a path has come as far as the events of `h`. -/
structure Accounted (p : Program) (s : Seed) (q : Condition) (eval : Env → Expr → Outcome) (start : Value)
    (h : Events) (env : Env) : Prop where
  param : ∀ i, s.param = some i → env.find? (nodeVar i) = some start
  values : ∀ n, Bound p (· ∈ q.literals) h n → ∃ v, Shows p n v env ∧ Justified p q eval start h env n v
  forks : ∀ n c labels next, .fork n c labels next ∈ h → OnPath q c → ∃ v prior, env.find? (nodeVar n) = some v ∧
    Shows p n v prior ∧ FirstTaken eval prior labels (q.taken next labels.length)

/-- Sources of arrows that were followed were visited. -/
theorem followed_visited (hist : History p s h) {x : Nat × Condition} (hx : x ∈ h.followed) :
    (p.arrow x.1).source ∈ h.visited :=
  leaves_visited (hist.followed_leaves hx).2

theorem bring_visited (hist : History p s h) {a : Nat} {c : Condition} {e : Expr} (he : .bring a c e ∈ h) :
    (p.arrow a).source ∈ h.visited :=
  hist.followed_visited (x := (a, c)) (mem_followed.2 ⟨_, he, rfl⟩)

/-- A justification stays, as long as the values of visited nodes do. -/
theorem Justified.step (hp : p.Consistent) (hist : History p s h) {e : WalkEvent} (allowed : h.Allowed p s e)
    (hstable : ∀ n ∈ h.visited, last.find? (nodeVar n) = env.find? (nodeVar n)) {n : Nat} {v : Value}
    (hj : Justified p q eval start h env n v) : Justified p q eval start (e :: h) last n v := by
  cases hj with
  | root hroot value => exact .root (List.mem_cons_of_mem _ hroot) value
  | brought a c e' u prior hbring target holds source shown value =>
    refine .brought a c e' u prior (List.mem_cons_of_mem _ hbring) target holds ?_ shown value
    rw [hstable _ (hist.bring_visited hbring), source]
  | met c items prior hmeet holds sources value =>
    refine .met c items prior (List.mem_cons_of_mem _ hmeet) holds (fun x hx => ?_) value
    rw [arrivals_cons_of_ne fun y hy => target_ne_of_allIn allowed (meet_allIn hp hist hmeet) hy] at hx
    rw [sources x hx, hstable _ (hist.followed_visited (mem_arrivals.1 hx).1)]

/-- The steps of an event touch the variables of its own node only. -/
theorem steps_frame {e : WalkEvent} (h' : Follows eval env ((e.steps p s).map .definition) last) {x : String}
    (hx : ∀ n, e.node? p = some n → x ∉ p.vars n) : last.find? x = env.find? x := by
  cases e with
  | root i =>
    have hx' := hx i rfl
    cases hparam : s.param with
    | none =>
      simp only [WalkEvent.steps, hparam] at h'
      cases h' with
      | bind value rest =>
        cases rest
        rw [Env.find?_add, if_neg]
        rintro rfl
        exact hx' (p.nodeVar_mem_vars i)
    | some j =>
      simp only [WalkEvent.steps, hparam] at h'
      exact (follows_unpackSteps h').1 x fun hmem => hx' (List.mem_of_mem_tail hmem)
  | bring a c e => exact (follows_bindSteps h').1 x (hx _ rfl)
  | meet n c items => exact (follows_bindSteps h').1 x (hx n rfl)
  | sink n c => cases h'
  | feed a c | pass n c | fork n c labels next =>
    cases h'
    rfl

/-- What an event adds to the path touches the variables of its own node only. -/
theorem added_frame {e : WalkEvent} (h' : Follows eval env (added p s q h e) last) {m : Nat}
    (hm : e.node? p ≠ some m) : ∀ x ∈ p.vars m, last.find? x = env.find? x := by
  intro x hx
  cases hcond : q.implies e.condition with
  | false =>
    rw [added_eq_nil hcond] at h'
    cases h'
    rfl
  | true =>
    by_cases hfork : ∃ n c labels next, e = .fork n c labels next
    · obtain ⟨n, c, labels, next, rfl⟩ := hfork
      rw [added_eq_choice (c := c) hcond] at h'
      cases h' with
      | choice first rest =>
        cases rest
        exact Env.find?_enter env x
    · rw [added_eq_steps hcond fun n c labels next heq => hfork ⟨n, c, labels, next, heq⟩] at h'
      refine steps_frame h' fun n hn => Program.vars_disjoint (fun heq => hm ?_) hx
      rw [heq, hn]

section
variable (hp : p.Consistent) (hr : s.Rooted p)
include hp hr

/-- The variables of visited nodes are never touched. -/
theorem added_stable (hist : History p s h) {e : WalkEvent} (allowed : h.Allowed p s e)
    (h' : Follows eval env (added p s q h e) last) {n : Nat} (hn : n ∈ h.visited) :
    ∀ x ∈ p.vars n, last.find? x = env.find? x :=
  added_frame h' fun hnode => node?_not_visited hp hr.entered hist allowed hnode hn

variable {invoke : String → List Value → Outcome} (hstart : s.param = none → start = .unit)
include hstart

/-- An event that holds on the path gives its node a value that it accounts for. -/
theorem added_value (hist : History p s h) (hacc : Accounted p s q (expr invoke) start h env) {e : WalkEvent}
    (allowed : h.Allowed p s e) (holds : OnPath q e.condition) (hcond : q.implies e.condition = true)
    (h' : Follows (expr invoke) env (added p s q h e) last) {n : Nat} (hnode : e.node? p = some n) :
    ∃ v, Shows p n v last ∧ Justified p q (expr invoke) start (e :: h) last n v := by
  have hstable : ∀ m ∈ h.visited, last.find? (nodeVar m) = env.find? (nodeVar m) := fun m hm =>
    added_stable hp hr hist allowed h' hm _ (p.nodeVar_mem_vars m)
  cases e <;> simp only [WalkEvent.node?, reduceCtorEq, Option.some.injEq] at hnode
  case root i =>
    subst hnode
    rw [added_eq_steps hcond (by simp)] at h'
    rcases hr.start with ⟨j, hroots, hparam⟩ | ⟨hparam, hunit⟩
    · obtain rfl : i = j := by simpa [hroots] using allowed.1
      simp only [WalkEvent.steps, hparam] at h'
      exact ⟨start, (follows_unpackSteps h').2 start (hacc.param i hparam), .root List.mem_cons_self rfl⟩
    · simp only [WalkEvent.steps, hparam] at h'
      cases h' with
      | @bind _ _ _ _ _ v _ value rest =>
        cases rest
        obtain rfl : v = start := by
          rw [hstart hparam]
          cases value
          rfl
        refine ⟨v, ⟨by rw [Env.find?_add, if_pos rfl], fun tys hty => ?_⟩, .root List.mem_cons_self rfl⟩
        rw [hunit i allowed.1] at hty
        cases hty
  case bring a c e =>
    subst hnode
    rw [added_eq_steps hcond (by simp)] at h'
    obtain ⟨_, v, value, hshows⟩ := follows_bindSteps h'
    obtain ⟨u, hu, _⟩ := hacc.values _ (hist.leaves_bound allowed.2.1 holds)
    refine ⟨v, hshows, .brought a c e u env List.mem_cons_self rfl holds ?_ hu value⟩
    rw [hstable _ (leaves_visited allowed.2.1), hu.own]
  case meet m c items =>
    subst hnode
    rw [added_eq_steps hcond (by simp)] at h'
    obtain ⟨_, v, value, hshows⟩ := follows_bindSteps h'
    refine ⟨v, hshows, .met c items env List.mem_cons_self holds (fun x hx => ?_) value⟩
    rw [arrivals_cons_of_ne (by simp [WalkEvent.arrow?])] at hx
    exact (hstable _ (hist.followed_visited (mem_arrivals.1 hx).1)).symm

/-- One more event: what it adds to the path keeps everything accounted for. -/
theorem Accounted.step (hq : q.IsPath) (hist : History p s h) (hacc : Accounted p s q (expr invoke) start h env)
    {e : WalkEvent} (allowed : h.Allowed p s e) (h' : Follows (expr invoke) env (added p s q h e) last) :
    Accounted p s q (expr invoke) start (e :: h) last := by
  have himp := implies_iff_onPath hp hist hq allowed
  have hstable : ∀ m ∈ h.visited, last.find? (nodeVar m) = env.find? (nodeVar m) := fun m hm =>
    added_stable hp hr hist allowed h' hm _ (p.nodeVar_mem_vars m)
  refine ⟨fun i hi => ?_, fun n hb => ?_, fun n c labels next hfork holds => ?_⟩
  · rw [← hacc.param i hi]
    -- only its own root event touches the parameter, and it names nothing but the components
    by_cases hnode : e.node? p = some i
    · have hmem : i ∈ s.roots := by
        rcases hr.start with ⟨j, hroots, hj⟩ | ⟨hnone, _⟩
        · rw [hi] at hj
          cases hj
          simp [hroots]
        · rw [hi] at hnone
          cases hnone
      obtain rfl := eq_root_of_node? hp hr.entered hist allowed hmem hnode
      rw [added_eq_steps (himp.2 Condition.holdsOn_always) (by simp)] at h'
      simp only [WalkEvent.steps, hi] at h'
      exact (follows_unpackSteps h').1 _ (p.nodeVar_not_mem_tail i)
    · exact added_frame h' hnode _ (p.nodeVar_mem_vars i)
  · -- a value is new with this event, or it was there and the event does not touch it
    by_cases hnew : e.node? p = some n ∧ OnPath q e.condition
    · exact added_value hp hr hstart hist hacc allowed hnew.2 (himp.2 hnew.2) h' hnew.1
    · obtain ⟨v, hshows, hj⟩ := hacc.values n ((bound_cons.1 hb).resolve_right hnew)
      refine ⟨v, hshows.congr ?_, hj.step hp hist allowed hstable⟩
      by_cases hnode : e.node? p = some n
      · have hcond : q.implies e.condition = false := by
          rw [← Bool.not_eq_true, himp]
          exact fun holds => hnew ⟨hnode, holds⟩
        rw [added_eq_nil hcond] at h'
        cases h'
        exact fun _ _ => rfl
      · exact added_frame h' hnode
  · rcases List.mem_cons.1 hfork with rfl | hfork
    -- the labels were tried in the variables that the path had led to
    · obtain ⟨v, hshows, _⟩ := hacc.values n (hist.ready_bound allowed.1 holds)
      rw [added_eq_choice (c := c) (himp.2 holds)] at h'
      cases h' with
      | choice first rest =>
        cases rest
        refine ⟨v, env, by rw [Env.find?_enter, hshows.own], hshows, ?_⟩
        rw [allowed.2.2.2.2.2.2]
        exact first
    · obtain ⟨v, prior, hv, hshows, hfirst⟩ := hacc.forks n c labels next hfork holds
      refine ⟨v, prior, ?_, hshows, hfirst⟩
      rw [hstable n (mem_visited.2 ⟨_, hfork, c, rfl⟩), hv]

/-- A path that has met no sink has accounted for all values on it. -/
theorem accounted (hq : q.IsPath) (hist : History p s h) (hopen : Unfinished q h)
    (hparam : ∀ i, s.param = some i → env.find? (nodeVar i) = some start)
    (h' : Follows (expr invoke) env (ScopeOp.passages q 1 (h.log p s)) last) :
    Accounted p s q (expr invoke) start h last := by
  induction hist generalizing last with
  | start =>
    cases h'
    refine ⟨hparam, fun n hb => ?_, by simp⟩
    cases hb <;> contradiction
  | @step e h before allowed ih =>
    have hopen' : Unfinished q h := fun n c hsink => hopen n c (List.mem_cons_of_mem e hsink)
    rw [passages_cons hopen', follows_append_iff] at h'
    obtain ⟨mid, hbefore, hadded⟩ := h'
    exact (ih hopen' hbefore).step hp hr hstart hq before allowed hadded

end

end History

end Dataflow
