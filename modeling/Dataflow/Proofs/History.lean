import Dataflow.Plan.Walk
import Dataflow.Proofs.Nodes
import Dataflow.Proofs.Placement
import Mathlib.Data.List.Perm.Subperm

/-!
# The history of a walk

A walk changes its queues and its scopes as it goes along. Its history says what it did, one event at
a time and the latest first, and every event is allowed by what came before it: an arrow is followed
once its source has been left, a node is left once all arrows into it have been followed. The scopes
are the result of the operations that the events stand for, so what holds of the blocks of a plan can
be read off the history.
-/

namespace Dataflow

/-- What a walk does. -/
inductive WalkEvent where
  /-- A root has its value. -/
  | root (i : Nat)
  /-- An arrow that is not positional is followed: its target gets the value of `e`. -/
  | bring (a : Nat) (c : Condition) (e : Expr)
  /-- A positional arrow is followed. -/
  | feed (a : Nat) (c : Condition)
  /-- An intersection is built from what its slots hold. -/
  | meet (n : Nat) (c : Condition) (items : List Expr)
  /-- A node is left by its only pin. -/
  | pass (n : Nat) (c : Condition)
  /-- A node is left by several pins; the branches are numbered from `next`. -/
  | fork (n : Nat) (c : Condition) (labels : List BranchLabel) (next : Nat)
  /-- A sink gives the result. -/
  | sink (n : Nat) (c : Condition)

abbrev PlanOp := ScopeOp Step BranchLabel

namespace WalkEvent

/-- The arrow that is followed, and the condition of the pin it leaves. -/
def arrow? : WalkEvent → Option (Nat × Condition)
  | .bring a c _ => some (a, c)
  | .feed a c => some (a, c)
  | _ => none

/-- The node that is visited, and its condition. -/
def visit? : WalkEvent → Option (Nat × Condition)
  | .pass n c => some (n, c)
  | .fork n c _ _ => some (n, c)
  | .sink n c => some (n, c)
  | _ => none

/-- The condition under which an event happens. -/
def condition : WalkEvent → Condition
  | .root _ => .always
  | .bring _ c _ => c
  | .feed _ c => c
  | .meet _ c _ => c
  | .pass _ c => c
  | .fork _ c _ _ => c
  | .sink _ c => c

/-- The node that gets a value. -/
def node? (p : Program) : WalkEvent → Option Nat
  | .root i => some i
  | .bring a _ _ => some (p.arrow a).target
  | .meet n _ _ => some n
  | _ => none

/-- Naming the components of a node. -/
def unpackSteps (p : Program) (n : Nat) : List Step :=
  match (p.node n).ty with
  | .tuple items =>
    [.unpack (nodeVar n) ((List.range items.length).map (componentVar (nodeVar n))) (.tuple items)]
  | _ => []

/-- Binding a node and naming its components. -/
def bindSteps (p : Program) (n : Nat) (e : Expr) : List Step :=
  .bind (nodeVar n) (p.node n).ty e :: unpackSteps p n

/-- The steps that an event adds where its condition holds. -/
def steps (p : Program) (s : Seed) : WalkEvent → List Step
  | .root i =>
    match s.param with
    | none => [.bind (nodeVar i) (p.node i).ty (.lit .unit)]
    | some _ => unpackSteps p i
  | .bring a _ e => bindSteps p (p.arrow a).target e
  | .meet n _ items => bindSteps p n (.tuple items)
  | .sink n _ => [.result (.var (nodeVar n))]
  | .feed _ _ | .pass _ _ | .fork _ _ _ _ => []

/-- The operations on scopes that an event stands for. -/
def ops (p : Program) (s : Seed) : WalkEvent → List PlanOp
  | .fork _ c labels _ => [.fork c labels]
  | .sink n c => [.define c (.result (.var (nodeVar n))), .close c]
  | e => (e.steps p s).map (.define e.condition)

end WalkEvent

/-! ## What events need -/

/-- Events, the latest first. -/
abbrev Events := List WalkEvent

namespace Events

/-- The operations of the events, in the order in which they were done. -/
def log (p : Program) (s : Seed) : Events → List PlanOp
  | [] => []
  | e :: h => log p s h ++ e.ops p s

/-- The arrows followed, in order. -/
def followed : Events → List (Nat × Condition)
  | [] => []
  | e :: h => followed h ++ e.arrow?.toList

/-- The arrows followed into a node, in order. -/
def arrivals (p : Program) (h : Events) (n : Nat) : List (Nat × Condition) :=
  h.followed.filter fun a => (p.arrow a.1).target = n

/-- The nodes visited. -/
def visited (h : Events) : List Nat := h.filterMap fun e => e.visit?.map (·.1)

/-- The scopes that the events have built. -/
def scopes (p : Program) (s : Seed) (h : Events) : ScopeBuilder Step BranchLabel :=
  ScopeBuilder.start.run (h.log p s)

/-- All arrows into a node have been followed, and none of them is positional. -/
structure Joined (p : Program) (h : Events) (n : Nat) (c : Condition) : Prop where
  entered : (p.node n).incoming ≠ []
  all : (h.arrivals p n).length = (p.node n).incoming.length
  plain : ∀ a ∈ h.arrivals p n, (p.arrow a.1).isPositional = false
  condition : c = ((h.arrivals p n).map (·.2)).tail.foldl .or (((h.arrivals p n).map (·.2)).head?.getD .always)

/-- All arrows into an intersection have been followed. -/
structure Met (p : Program) (h : Events) (n : Nat) (c : Condition) (items : List Expr) : Prop where
  all : (h.arrivals p n).length = (p.node n).incoming.length
  positional : ((h.arrivals p n).any fun a => (p.arrow a.1).isPositional) = true
  condition : c = ((h.arrivals p n).map (·.2)).foldl .and .always
  items : ∃ slots, p.slotExprs n [] ((h.arrivals p n).map fun a => p.arrow a.1) = .ok slots ∧
    items = slots.map (·.2)

/-- A node can be visited under the condition. -/
inductive Ready (p : Program) (h : Events) (n : Nat) (c : Condition) : Prop where
  | root (hroot : .root n ∈ h) (hc : c = .always)
  | met (items : List Expr) (hmeet : .meet n c items ∈ h)
  | joined (hjoin : Joined p h n c)

/-- An arrow leaves a node that was visited, under the condition of its pin. -/
inductive Leaves (p : Program) (h : Events) (a : Nat) (c : Condition) : Prop where
  | pass (hpass : .pass (p.arrow a).source c ∈ h)
  | fork (own : Condition) (labels : List BranchLabel) (next : Nat)
      (hfork : .fork (p.arrow a).source own labels next ∈ h)
      (hc : c = own.and (.literal ((next + (p.arrow a).pin : Nat) : Int)))

/-- An event may happen after the events of `h`. -/
def Allowed (p : Program) (s : Seed) (h : Events) : WalkEvent → Prop
  | .root i => i ∈ s.roots ∧ .root i ∉ h
  | .bring a c e =>
    a < p.arrows.length ∧ Leaves p h a c ∧ a ∉ h.followed.map (·.1) ∧ (p.arrow a).isPositional = false ∧
      p.arrowExpr (p.arrow a) = .ok e ∧ (h.scopes p s).receiving c ≠ 0 ∧
      ∀ b ∈ h.arrivals p (p.arrow a).target, b.2.implies c = false ∧ c.implies b.2 = false
  | .feed a c =>
    a < p.arrows.length ∧ Leaves p h a c ∧ a ∉ h.followed.map (·.1) ∧ (p.arrow a).isPositional = true
  | .meet n c items =>
    Met p h n c items ∧ n ∉ h.visited ∧ (∀ c' items', .meet n c' items' ∉ h) ∧ (h.scopes p s).receiving c ≠ 0
  | .pass n c =>
    Ready p h n c ∧ n ∉ h.visited ∧ (p.node n).isSink = false ∧ (p.node n).isBranching = false
  | .fork n c labels next =>
    Ready p h n c ∧ n ∉ h.visited ∧ (p.node n).isSink = false ∧ (p.node n).isBranching = true ∧
      pinLabels n (p.node n).ty 0 (p.node n).pins = .ok labels ∧
      ((p.node n).pins.getLast?.any fun pin => pin.brancher.isIrrefutable) = true ∧
      next = (h.scopes p s).nextVar
  | .sink n c =>
    Ready p h n c ∧ n ∉ h.visited ∧ (p.node n).isSink = true ∧ (h.scopes p s).receiving c ≠ 0

end Events

/-- Every event was allowed when it happened. -/
inductive History (p : Program) (s : Seed) : Events → Prop where
  | start : History p s []
  | step {e : WalkEvent} {h : Events} (before : History p s h) (allowed : h.Allowed p s e) : History p s (e :: h)

/-! ## Arrows and visits -/

namespace Events

variable {p : Program} {s : Seed} {h : Events}

@[simp] theorem log_nil : log p s [] = [] := rfl

@[simp] theorem log_cons (e : WalkEvent) : log p s (e :: h) = log p s h ++ e.ops p s := rfl

theorem log_append (h' : Events) : log p s (h' ++ h) = log p s h ++ log p s h' := by
  induction h' with
  | nil => simp
  | cons e h' ih => simp [ih]

theorem scopes_cons (e : WalkEvent) : scopes p s (e :: h) = (scopes p s h).run (e.ops p s) := by
  simp [scopes, ScopeBuilder.run_append]

@[simp] theorem followed_cons (e : WalkEvent) : followed (e :: h) = followed h ++ e.arrow?.toList := rfl

theorem mem_followed {x : Nat × Condition} : x ∈ h.followed ↔ ∃ e ∈ h, e.arrow? = some x := by
  induction h with
  | nil => simp [followed]
  | cons e h ih => simp [ih, eq_comm, or_comm]

theorem mem_visited {n : Nat} : n ∈ h.visited ↔ ∃ e ∈ h, ∃ c, e.visit? = some (n, c) := by
  simp [visited]

theorem mem_arrivals {n : Nat} {x : Nat × Condition} :
    x ∈ h.arrivals p n ↔ x ∈ h.followed ∧ (p.arrow x.1).target = n := by
  simp [arrivals]

theorem arrivals_cons_of_ne {n : Nat} {e : WalkEvent}
    (hne : ∀ x, e.arrow? = some x → (p.arrow x.1).target ≠ n) : arrivals p (e :: h) n = h.arrivals p n := by
  unfold arrivals
  rw [followed_cons, List.filter_append]
  cases harrow : e.arrow? with
  | none => simp
  | some x => simp [hne x harrow]

end Events

namespace History

open Events

variable {p : Program} {s : Seed} {h : Events}

theorem of_append {h' : Events} (hist : History p s (h' ++ h)) : History p s h := by
  induction h' with
  | nil => exact hist
  | cons e h' ih =>
    cases hist with
    | step before _ => exact ih before

/-- An event and the history that allowed it. -/
theorem exists_allowed (hist : History p s h) {e : WalkEvent} (he : e ∈ h) :
    ∃ later before : Events, h = later ++ e :: before ∧ History p s before ∧ before.Allowed p s e := by
  obtain ⟨later, before, rfl⟩ := List.append_of_mem he
  cases hist.of_append with
  | step before allowed => exact ⟨later, _, rfl, before, allowed⟩

theorem arrow_allowed {e : WalkEvent} {x : Nat × Condition} (hx : e.arrow? = some x)
    (allowed : h.Allowed p s e) :
    x.1 < p.arrows.length ∧ Leaves p h x.1 x.2 ∧ x.1 ∉ h.followed.map (·.1) := by
  cases e <;> simp only [WalkEvent.arrow?, reduceCtorEq, Option.some.injEq] at hx
  · subst hx; exact ⟨allowed.1, allowed.2.1, allowed.2.2.1⟩
  · subst hx; exact ⟨allowed.1, allowed.2.1, allowed.2.2.1⟩

theorem visit_allowed {e : WalkEvent} {n : Nat} {c : Condition} (hx : e.visit? = some (n, c))
    (allowed : h.Allowed p s e) : Ready p h n c ∧ n ∉ h.visited := by
  cases e <;> simp only [WalkEvent.visit?, reduceCtorEq, Option.some.injEq, Prod.mk.injEq] at hx
  · obtain ⟨rfl, rfl⟩ := hx; exact ⟨allowed.1, allowed.2.1⟩
  · obtain ⟨rfl, rfl⟩ := hx; exact ⟨allowed.1, allowed.2.1⟩
  · obtain ⟨rfl, rfl⟩ := hx; exact ⟨allowed.1, allowed.2.1⟩

/-- No arrow is followed twice. -/
theorem followed_nodup (hist : History p s h) : (h.followed.map (·.1)).Nodup := by
  induction hist with
  | start => simp [followed]
  | @step e h before allowed ih =>
    cases harrow : e.arrow? with
    | none => simpa [harrow] using ih
    | some x =>
      have hnew := (arrow_allowed harrow allowed).2.2
      simp only [followed_cons, harrow, Option.toList_some, List.map_append, List.map_cons, List.map_nil]
      refine List.nodup_append.2 ⟨ih, by simp, ?_⟩
      intro a ha b hb
      obtain rfl : b = x.1 := by simpa using hb
      exact fun hab => hnew (hab ▸ ha)

theorem leaves_visited {a : Nat} {c : Condition} (hl : Leaves p h a c) : (p.arrow a).source ∈ h.visited := by
  cases hl with
  | pass hpass => exact mem_visited.2 ⟨_, hpass, c, rfl⟩
  | fork own labels next hfork _ => exact mem_visited.2 ⟨_, hfork, own, rfl⟩

theorem leaves_mono {h' : Events} (hsub : h ⊆ h') {a : Nat} {c : Condition} (hl : Leaves p h a c) :
    Leaves p h' a c := by
  cases hl with
  | pass hpass => exact .pass (hsub hpass)
  | fork own labels next hfork hc => exact .fork own labels next (hsub hfork) hc

/-- An arrow that was followed exists and left its source under its condition. -/
theorem followed_leaves (hist : History p s h) {x : Nat × Condition} (hx : x ∈ h.followed) :
    x.1 < p.arrows.length ∧ Leaves p h x.1 x.2 := by
  induction hist with
  | start => simp [followed] at hx
  | @step e h before allowed ih =>
    rw [followed_cons, List.mem_append] at hx
    rcases hx with hx | hx
    · obtain ⟨hlt, hl⟩ := ih hx
      exact ⟨hlt, leaves_mono (List.subset_cons_self e h) hl⟩
    · obtain ⟨hlt, hl, _⟩ := arrow_allowed (by simpa using hx) allowed
      exact ⟨hlt, leaves_mono (List.subset_cons_self e h) hl⟩

/-! ## A node that is ready gets nothing more -/

/-- Every arrow into the node has been followed. -/
def AllIn (p : Program) (h : Events) (n : Nat) : Prop :=
  ∀ a < p.arrows.length, (p.arrow a).target = n → a ∈ h.followed.map (·.1)

theorem AllIn.cons {n : Nat} {e : WalkEvent} (hall : AllIn p h n) : AllIn p (e :: h) n := by
  intro a ha ht
  rw [followed_cons, List.map_append, List.mem_append]
  exact Or.inl (hall a ha ht)

/-- An arrow is never followed into a node all of whose arrows have been. -/
theorem target_ne_of_allIn {e : WalkEvent} (allowed : h.Allowed p s e) {n : Nat} (hall : AllIn p h n)
    {x : Nat × Condition} (hx : e.arrow? = some x) : (p.arrow x.1).target ≠ n := by
  intro ht
  obtain ⟨hlt, _, hnew⟩ := arrow_allowed hx allowed
  exact hnew (hall x.1 hlt ht)

section
variable (hp : p.Consistent)
include hp

theorem mem_incoming {a n : Nat} : a ∈ (p.node n).incoming ↔ a < p.arrows.length ∧ (p.arrow a).target = n := by
  rw [hp.incoming]
  simp

/-- The arrows followed into a node are different arrows into it. -/
theorem arrivals_subperm (hist : History p s h) (n : Nat) :
    ((h.arrivals p n).map (·.1)).Subperm (p.node n).incoming := by
  have hnodup : ((h.arrivals p n).map (·.1)).Nodup :=
    hist.followed_nodup.sublist (List.filter_sublist.map _)
  refine hnodup.subperm fun a ha => ?_
  obtain ⟨x, hx, rfl⟩ := List.mem_map.1 ha
  obtain ⟨hx, ht⟩ := mem_arrivals.1 hx
  exact (mem_incoming hp).2 ⟨(hist.followed_leaves hx).1, ht⟩

/-- As many arrivals as incoming arrows are all of them. -/
theorem arrivals_perm (hist : History p s h) {n : Nat}
    (hlen : (h.arrivals p n).length = (p.node n).incoming.length) :
    ((h.arrivals p n).map (·.1)).Perm (p.node n).incoming :=
  (arrivals_subperm hp hist n).perm_of_length_le (by simp [hlen])

theorem allIn_of_length (hist : History p s h) {n : Nat}
    (hlen : (h.arrivals p n).length = (p.node n).incoming.length) : AllIn p h n := by
  intro a ha ht
  have hmem := (arrivals_perm hp hist hlen).mem_iff.2 ((mem_incoming hp).2 ⟨ha, ht⟩)
  obtain ⟨x, hx, rfl⟩ := List.mem_map.1 hmem
  exact List.mem_map_of_mem (mem_arrivals.1 hx).1

/-- All arrows into an intersection were followed before it was built, and none is followed after. -/
theorem meet_met (hist : History p s h) {n : Nat} {c : Condition} {items : List Expr} (hmeet : .meet n c items ∈ h) :
    Met p h n c items := by
  induction hist with
  | start => simp at hmeet
  | @step e h before allowed ih =>
    have hstays : Met p h n c items → arrivals p (e :: h) n = h.arrivals p n → Met p (e :: h) n c items := by
      rintro ⟨hall, hpositional, hc, hitems⟩ harr
      rw [← harr] at hall hpositional hc hitems
      exact ⟨hall, hpositional, hc, hitems⟩
    rcases List.mem_cons.1 hmeet with rfl | hmeet
    · exact hstays allowed.1 (arrivals_cons_of_ne (by simp [WalkEvent.arrow?]))
    · refine hstays (ih hmeet) (arrivals_cons_of_ne fun x hx => ?_)
      exact target_ne_of_allIn allowed (allIn_of_length hp before (ih hmeet).all) hx

theorem met_positional (hist : History p s h) {n : Nat} {c : Condition} {items : List Expr}
    (hmet : Met p h n c items) : ∃ a ∈ (p.node n).incoming, (p.arrow a).isPositional = true := by
  obtain ⟨x, hx, hpositional⟩ := List.any_eq_true.1 hmet.positional
  exact ⟨x.1, (arrivals_perm hp hist hmet.all).subset (List.mem_map_of_mem hx), hpositional⟩

theorem meet_allIn (hist : History p s h) {n : Nat} {c : Condition} {items : List Expr}
    (hmeet : .meet n c items ∈ h) : AllIn p h n :=
  allIn_of_length hp hist (meet_met hp hist hmeet).all

variable (hroots : ∀ i ∈ s.roots, (p.node i).incoming = [])
include hroots

theorem root_allIn (hist : History p s h) {n : Nat} (hroot : .root n ∈ h) : AllIn p h n := by
  obtain ⟨_, _, _, _, hallowed⟩ := hist.exists_allowed hroot
  intro a ha ht
  have hin := (mem_incoming hp).2 ⟨ha, ht⟩
  rw [hroots n hallowed.1] at hin
  cases hin

theorem ready_allIn (hist : History p s h) {n : Nat} {c : Condition} (hready : Ready p h n c) : AllIn p h n := by
  cases hready with
  | root hroot _ => exact root_allIn hp hroots hist hroot
  | met items hmeet => exact meet_allIn hp hist hmeet
  | joined hjoin => exact allIn_of_length hp hist hjoin.all

theorem visited_allIn (hist : History p s h) {n : Nat} (hn : n ∈ h.visited) : AllIn p h n := by
  obtain ⟨e, he, c, hvisit⟩ := mem_visited.1 hn
  obtain ⟨later, before, rfl, hbefore, hallowed⟩ := hist.exists_allowed he
  have hall := ready_allIn hp hroots hbefore (visit_allowed hvisit hallowed).1
  clear hist he hn
  induction later with
  | nil => exact hall.cons
  | cons e' later ih => exact ih.cons

/-- A node stays ready, under the same condition. -/
theorem ready_cons (hist : History p s h) {e : WalkEvent} (allowed : h.Allowed p s e) {n : Nat} {c : Condition}
    (hready : Ready p h n c) : Ready p (e :: h) n c := by
  have harr : arrivals p (e :: h) n = h.arrivals p n := arrivals_cons_of_ne fun x hx =>
    target_ne_of_allIn allowed (ready_allIn hp hroots hist hready) hx
  cases hready with
  | root hroot hc => exact .root (List.mem_cons_of_mem _ hroot) hc
  | met items hmeet => exact .met items (List.mem_cons_of_mem _ hmeet)
  | joined hjoin =>
    obtain ⟨hentered, hall, hplain, hc⟩ := hjoin
    rw [← harr] at hall hplain hc
    exact .joined ⟨hentered, hall, hplain, hc⟩

end

/-! ## Conditions are known in time -/

theorem nextVar_mono (e : WalkEvent) : (h.scopes p s).nextVar ≤ (scopes p s (e :: h)).nextVar := by
  rw [scopes_cons, ScopeBuilder.run_nextVar]
  omega

/-- The conditions of all events are known by now, and so are the branches of forks. -/
structure Knows (p : Program) (s : Seed) (h : Events) : Prop where
  condition : ∀ e ∈ h, e.condition.Known (h.scopes p s).nextVar
  branches : ∀ n c labels next, .fork n c labels next ∈ h →
    labels.length = (p.node n).pins.length ∧ next + labels.length ≤ (h.scopes p s).nextVar

/-- The pin that an arrow leaves has a known condition. -/
theorem leaves_known (hp : p.Consistent) (hknows : Knows p s h) {a : Nat} {c : Condition}
    (ha : a < p.arrows.length) (hl : Leaves p h a c) : c.Known (h.scopes p s).nextVar := by
  cases hl with
  | pass hpass => exact hknows.condition _ hpass
  | fork own labels next hfork hc =>
    obtain ⟨hlen, hle⟩ := hknows.branches _ _ _ _ hfork
    have hpin := (hp.ends a ha).2.2
    rw [hc]
    exact (hknows.condition _ hfork).and (.literal (by omega))

theorem arrivals_known (hp : p.Consistent) (hist : History p s h) (hknows : Knows p s h) {n : Nat} :
    ∀ d ∈ (h.arrivals p n).map (·.2), d.Known (h.scopes p s).nextVar := by
  intro d hd
  obtain ⟨x, hx, rfl⟩ := List.mem_map.1 hd
  obtain ⟨hlt, hl⟩ := hist.followed_leaves (mem_arrivals.1 hx).1
  exact leaves_known hp hknows hlt hl

theorem ready_known (hp : p.Consistent) (hist : History p s h) (hknows : Knows p s h) {n : Nat} {c : Condition}
    (hready : Ready p h n c) : c.Known (h.scopes p s).nextVar := by
  cases hready with
  | root _ hc => rw [hc]; exact .always
  | met items hmeet => exact hknows.condition _ hmeet
  | joined hjoin =>
    have hall := arrivals_known hp hist hknows (n := n)
    rw [hjoin.condition]
    refine .foldl_or ?_ fun d hd => hall d (List.mem_of_mem_tail hd)
    cases hhead : ((h.arrivals p n).map (·.2)).head? with
    | none => exact .always
    | some d => exact hall d (List.mem_of_mem_head? (by rw [hhead]; rfl))

/-- The condition of an event is known before it happens. -/
theorem allowed_known (hp : p.Consistent) (hist : History p s h) (hknows : Knows p s h) {e : WalkEvent}
    (allowed : h.Allowed p s e) : e.condition.Known (h.scopes p s).nextVar := by
  cases e with
  | root i => exact .always
  | bring a c e => exact leaves_known hp hknows allowed.1 allowed.2.1
  | feed a c => exact leaves_known hp hknows allowed.1 allowed.2.1
  | meet n c items =>
    simp only [WalkEvent.condition, allowed.1.condition]
    exact .foldl_and .always (arrivals_known hp hist hknows)
  | pass n c => exact ready_known hp hist hknows allowed.1
  | fork n c labels next => exact ready_known hp hist hknows allowed.1
  | sink n c => exact ready_known hp hist hknows allowed.1

theorem knows (hp : p.Consistent) (hist : History p s h) : Knows p s h := by
  induction hist with
  | start => exact ⟨by simp, by simp⟩
  | @step e h before allowed ih =>
    refine ⟨fun e' he' => ?_, fun n c labels next he' => ?_⟩
    · rcases List.mem_cons.1 he' with rfl | he'
      · exact (allowed_known hp before ih allowed).mono (nextVar_mono _)
      · exact (ih.condition e' he').mono (nextVar_mono e)
    · rcases List.mem_cons.1 he' with rfl | he'
      · obtain ⟨_, _, _, _, hlabels, _, rfl⟩ := allowed
        refine ⟨(pinLabels_ok hlabels).length_eq.symm, ?_⟩
        rw [scopes_cons, ScopeBuilder.run_nextVar]
        simp [WalkEvent.ops, ScopeOp.widths, ScopeOp.width]
      · obtain ⟨hlen, hle⟩ := ih.branches n c labels next he'
        exact ⟨hlen, Nat.le_trans hle (nextVar_mono e)⟩

/-- An event defines something under its condition, and forks and sinks do what they are named for. -/
theorem mem_ops {e : WalkEvent} {op : PlanOp} (hop : op ∈ e.ops p s) :
    (∃ d, op = .define e.condition d) ∨
      (∃ n c labels next, e = .fork n c labels next ∧ op = .fork c labels) ∨
      ∃ n c, e = .sink n c ∧ op = .close c := by
  cases e with
  | fork n c labels next => exact Or.inr (Or.inl ⟨n, c, labels, next, rfl, List.mem_singleton.1 hop⟩)
  | sink n c =>
    simp only [WalkEvent.ops, List.mem_cons, List.not_mem_nil, or_false] at hop
    rcases hop with rfl | rfl
    · exact Or.inl ⟨_, rfl⟩
    · exact Or.inr (Or.inr ⟨n, c, rfl, rfl⟩)
  | _ =>
    obtain ⟨d, _, rfl⟩ := List.mem_map.1 hop
    exact Or.inl ⟨d, rfl⟩

theorem ops_condition {e : WalkEvent} {op : PlanOp} (hop : op ∈ e.ops p s) : op.condition = e.condition := by
  rcases mem_ops hop with ⟨d, rfl⟩ | ⟨n, c, labels, next, rfl, rfl⟩ | ⟨n, c, rfl, rfl⟩ <;> rfl

/-- The operations of an event are legal when it happens. -/
theorem ops_legal (hp : p.Consistent) (hist : History p s h) {e : WalkEvent} (allowed : h.Allowed p s e) :
    ScopeOp.LegalFrom (h.scopes p s).nextVar (e.ops p s) := by
  have hknown := allowed_known hp hist (hist.knows hp) allowed
  by_cases hfork : ∃ n c labels next, e = .fork n c labels next
  · obtain ⟨n, c, labels, next, rfl⟩ := hfork
    obtain ⟨_, _, _, hbranching, hlabels, _⟩ := allowed
    have hlen := (pinLabels_ok hlabels).length_eq
    have hne : labels ≠ [] := by
      rintro rfl
      simp only [Node.isBranching, hlen, List.length_nil] at hbranching
      cases hbranching
    exact ⟨⟨hknown, hne⟩, trivial⟩
  · refine ScopeOp.legalFrom_of_forall fun op hop => ?_
    rcases mem_ops hop with ⟨d, rfl⟩ | ⟨n, c, labels, next, rfl, rfl⟩ | ⟨n, c, rfl, rfl⟩
    · exact ⟨hknown, rfl⟩
    · exact absurd ⟨n, c, labels, next, rfl⟩ hfork
    · exact ⟨hknown, rfl⟩

theorem log_legal (hp : p.Consistent) (hist : History p s h) : ScopeOp.LegalFrom 1 (h.log p s) := by
  induction hist with
  | start => trivial
  | @step e h before allowed ih =>
    have hops := ops_legal hp before allowed
    rw [scopes, ScopeBuilder.run_nextVar] at hops
    exact ScopeOp.legalFrom_append.2 ⟨ih, hops⟩

/-! ## What has been bound -/

/-- Where the literals of `S` hold, the node has a value: it is a root, or an arrow into it was
followed under a condition that holds, or it is an intersection built under one. -/
inductive Bound (p : Program) (S : Int → Prop) (h : Events) (n : Nat) : Prop where
  | root (hroot : .root n ∈ h)
  | met (c : Condition) (items : List Expr) (hmeet : .meet n c items ∈ h) (holds : c.HoldsOn S)
  | brought (a : Nat) (c : Condition) (e : Expr) (hbring : .bring a c e ∈ h) (target : (p.arrow a).target = n)
      (holds : c.HoldsOn S)

theorem Bound.mono {S : Int → Prop} {h' : Events} (hsub : h ⊆ h') {n : Nat} (hb : Bound p S h n) :
    Bound p S h' n := by
  cases hb with
  | root hroot => exact .root (hsub hroot)
  | met c items hmeet holds => exact .met c items (hsub hmeet) holds
  | brought a c e hbring target holds => exact .brought a c e (hsub hbring) target holds

/-- An event gives a value to its node, where its condition holds. -/
theorem bound_cons {S : Int → Prop} {e : WalkEvent} {n : Nat} :
    Bound p S (e :: h) n ↔ Bound p S h n ∨ (e.node? p = some n ∧ e.condition.HoldsOn S) := by
  constructor
  · intro hb
    cases hb with
    | root hroot =>
      rcases List.mem_cons.1 hroot with rfl | hroot
      · exact Or.inr ⟨rfl, Condition.holdsOn_always⟩
      · exact Or.inl (.root hroot)
    | met c items hmeet holds =>
      rcases List.mem_cons.1 hmeet with rfl | hmeet
      · exact Or.inr ⟨rfl, holds⟩
      · exact Or.inl (.met c items hmeet holds)
    | brought a c e' hbring target holds =>
      rcases List.mem_cons.1 hbring with rfl | hbring
      · exact Or.inr ⟨congrArg some target, holds⟩
      · exact Or.inl (.brought a c e' hbring target holds)
  · rintro (hb | ⟨hnode, holds⟩)
    · exact hb.mono (List.subset_cons_self e h)
    · cases e <;> simp only [WalkEvent.node?, reduceCtorEq, Option.some.injEq] at hnode
      · exact .root (by simp [hnode])
      · exact .brought _ _ _ List.mem_cons_self hnode holds
      · exact .met _ _ (by rw [hnode]; exact List.mem_cons_self) holds

theorem feed_positional (hist : History p s h) {a : Nat} {c : Condition} (hfeed : .feed a c ∈ h) :
    (p.arrow a).isPositional = true := by
  obtain ⟨_, _, _, _, hallowed⟩ := hist.exists_allowed hfeed
  exact hallowed.2.2.2

/-- A node that is ready has a value where its condition holds. -/
theorem ready_bound (hist : History p s h) {S : Int → Prop} {n : Nat} {c : Condition} (hready : Ready p h n c)
    (holds : c.HoldsOn S) : Bound p S h n := by
  cases hready with
  | root hroot _ => exact .root hroot
  | met items hmeet => exact .met c items hmeet holds
  | joined hjoin =>
    -- a disjunction holds because one arrival does
    obtain ⟨d, hd, hdS⟩ : ∃ d ∈ (h.arrivals p n).map (·.2), d.HoldsOn S := by
      rw [hjoin.condition, Condition.holdsOn_foldl_or] at holds
      cases harr : (h.arrivals p n).map (·.2) with
      | nil =>
        have hlen := congrArg List.length harr
        rw [List.length_map, hjoin.all] at hlen
        exact absurd (List.length_eq_zero_iff.1 hlen) hjoin.entered
      | cons d rest =>
        rw [harr] at holds
        rcases holds with holds | ⟨d', hd', holds⟩
        · exact ⟨d, by simp, holds⟩
        · exact ⟨d', List.mem_cons_of_mem _ hd', holds⟩
    obtain ⟨⟨a, d⟩, hx, rfl⟩ := List.mem_map.1 hd
    obtain ⟨hfollowed, ht⟩ := mem_arrivals.1 hx
    obtain ⟨e, he, harrow⟩ := mem_followed.1 hfollowed
    have hplain := hjoin.plain _ hx
    cases e <;> simp only [WalkEvent.arrow?, reduceCtorEq, Option.some.injEq, Prod.mk.injEq] at harrow
    · obtain ⟨rfl, rfl⟩ := harrow
      exact .brought _ _ _ he ht hdS
    · obtain ⟨rfl, rfl⟩ := harrow
      rw [hist.feed_positional he] at hplain
      cases hplain

theorem visit_bound (hist : History p s h) {S : Int → Prop} {e : WalkEvent} (he : e ∈ h) {n : Nat} {c : Condition}
    (hvisit : e.visit? = some (n, c)) (holds : c.HoldsOn S) : Bound p S h n := by
  obtain ⟨later, before, rfl, hbefore, hallowed⟩ := hist.exists_allowed he
  exact (ready_bound hbefore (visit_allowed hvisit hallowed).1 holds).mono fun e' he' => by simp [he']

/-- The source of an arrow has a value where the arrow is followed. -/
theorem leaves_bound (hist : History p s h) {S : Int → Prop} {a : Nat} {c : Condition} (hl : Leaves p h a c)
    (holds : c.HoldsOn S) : Bound p S h (p.arrow a).source := by
  cases hl with
  | pass hpass => exact hist.visit_bound hpass rfl holds
  | fork own labels next hfork hc =>
    rw [hc, Condition.holdsOn_and] at holds
    exact hist.visit_bound hfork rfl holds.1

/-! ## A value that was used stays -/

/-- A node is visited once. -/
theorem visit_unique (hist : History p s h) {e e' : WalkEvent} (he : e ∈ h) (he' : e' ∈ h) {n : Nat} {c c' : Condition}
    (hv : e.visit? = some (n, c)) (hv' : e'.visit? = some (n, c')) : e = e' := by
  induction hist with
  | start => cases he
  | @step e₀ h before allowed ih =>
    have hold : ∀ {e₁ : WalkEvent} {d d' : Condition}, e₁ ∈ h → e₁.visit? = some (n, d) →
        e₀.visit? ≠ some (n, d') := fun hmem hv₁ hv₀ =>
      (visit_allowed hv₀ allowed).2 (mem_visited.2 ⟨_, hmem, _, hv₁⟩)
    rcases List.mem_cons.1 he with rfl | hmem <;> rcases List.mem_cons.1 he' with rfl | hmem'
    · rfl
    · exact absurd hv (hold hmem' hv')
    · exact absurd hv' (hold hmem hv)
    · exact ih hmem hmem'

section
variable (hp : p.Consistent) (hroots : ∀ i ∈ s.roots, (p.node i).incoming = [])
include hp hroots

/-- No arrow is followed into a root. -/
theorem arrivals_root (hist : History p s h) {i : Nat} (hi : i ∈ s.roots) : h.arrivals p i = [] := by
  refine List.eq_nil_iff_forall_not_mem.2 fun x hx => ?_
  obtain ⟨hfollowed, ht⟩ := mem_arrivals.1 hx
  have hin := (mem_incoming hp).2 ⟨(hist.followed_leaves hfollowed).1, ht⟩
  rw [hroots i hi] at hin
  cases hin

/-- Nothing else gives a value to a root. -/
theorem eq_root_of_node? (hist : History p s h) {e : WalkEvent} (allowed : h.Allowed p s e) {i : Nat}
    (hi : i ∈ s.roots) (hnode : e.node? p = some i) : e = .root i := by
  cases e <;> simp only [WalkEvent.node?, reduceCtorEq, Option.some.injEq] at hnode
  · rw [hnode]
  · have hin := (mem_incoming hp).2 ⟨allowed.1, hnode⟩
    rw [hroots i hi] at hin
    cases hin
  · have hpositional := allowed.1.positional
    rw [hnode, arrivals_root hp hroots hist hi] at hpositional
    cases hpositional

/-- A node that was visited gets no other value. -/
theorem node?_not_visited (hist : History p s h) {e : WalkEvent} (allowed : h.Allowed p s e) {n : Nat}
    (hnode : e.node? p = some n) : n ∉ h.visited := by
  intro hn
  cases e <;> simp only [WalkEvent.node?, reduceCtorEq, Option.some.injEq] at hnode
  · subst hnode
    obtain ⟨e, he, c, hvisit⟩ := mem_visited.1 hn
    obtain ⟨later, before, rfl, hbefore, hallowed⟩ := hist.exists_allowed he
    cases (visit_allowed hvisit hallowed).1 with
    | root hroot _ => exact allowed.2 (by simp [hroot])
    | met items hmeet =>
      obtain ⟨_, _, _, hearlier, hmet⟩ := hbefore.exists_allowed hmeet
      have hpositional := hmet.1.positional
      rw [arrivals_root hp hroots hearlier allowed.1] at hpositional
      cases hpositional
    | joined hjoin => exact hjoin.entered (hroots _ allowed.1)
  · exact allowed.2.2.1 (visited_allIn hp hroots hist hn _ allowed.1 hnode)
  · exact allowed.2.1 (hnode ▸ hn)

end

end History

end Dataflow
