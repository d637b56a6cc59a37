import Dataflow.Proofs.Path

/-!
# Joins

Two arrows into one node must not hold at the same time. The planner refuses them if the condition of
one implies that of the other. This keeps the node from being bound twice on a path exactly where
conditions that hold together on a path imply one another. Branches of forks that do not depend on each
other need not: then both arrows are bound on the path where the two branches meet, and the second value
wins.
-/

namespace Dataflow

theorem eq_of_countP_le_one {α : Type} {l : List α} {P : α → Bool} (h : l.countP P ≤ 1) {a b : α} (ha : a ∈ l)
    (hb : b ∈ l) (hPa : P a = true) (hPb : P b = true) : a = b := by
  have ha' := List.mem_filter.2 ⟨ha, hPa⟩
  have hb' := List.mem_filter.2 ⟨hb, hPb⟩
  rw [List.countP_eq_length_filter] at h
  match hfilter : l.filter P with
  | [] => simp [hfilter] at ha'
  | [c] =>
    rw [hfilter, List.mem_singleton] at ha' hb'
    rw [ha', hb']
  | _ :: _ :: _ => simp [hfilter] at h

theorem exists_pair_of_countP {α : Type} {l : List α} {P : α → Bool} (h : 1 < l.countP P) :
    ∃ a b, [a, b].Sublist l ∧ P a = true ∧ P b = true := by
  rw [List.countP_eq_length_filter] at h
  match hfilter : l.filter P with
  | [] | [_] => simp [hfilter] at h
  | a :: b :: rest =>
    have hsub : (a :: b :: rest).Sublist l := hfilter ▸ List.filter_sublist
    have hholds : ∀ c ∈ a :: b :: rest, P c = true := fun c hc => (List.mem_filter.1 (hfilter ▸ hc)).2
    exact ⟨a, b, (List.sublist_append_left [a, b] rest).trans hsub, hholds a (by simp), hholds b (by simp)⟩

/-! ## Events on a path -/

/-- The step binds the variable of a node. -/
def Step.bindsNode (n : Nat) : Step → Bool
  | .bind x _ _ => x = nodeVar n
  | _ => false

namespace WalkEvent

/-- The node whose variable an event binds. The parameter of a function is bound by the call. -/
def bound? (p : Program) (s : Seed) : WalkEvent → Option Nat
  | .root i => if s.param.isNone then some i else none
  | e => e.node? p

/-- The event ends the path of `q`. -/
def ends (q : Condition) : WalkEvent → Bool
  | .sink _ c => q.implies c
  | _ => false

variable {p : Program} {s : Seed} {n : Nat}

theorem node?_of_bound? {e : WalkEvent} (h : e.bound? p s = some n) : e.node? p = some n := by
  cases e with
  | root i =>
    simp only [bound?, Option.ite_none_right_eq_some] at h
    exact h.2
  | _ => exact h

/-- An event binds its node once. -/
theorem countP_steps (e : WalkEvent) :
    (e.steps p s).countP (Step.bindsNode n) = if e.bound? p s = some n then 1 else 0 := by
  have hunpack : ∀ m, (unpackSteps p m).countP (Step.bindsNode n) = 0 := by
    intro m
    unfold unpackSteps
    split <;> simp [Step.bindsNode]
  have hname : ∀ m, nodeVar m = nodeVar n ↔ m = n := fun m => ⟨nodeVar_injective, fun h => by rw [h]⟩
  cases e with
  | root i => cases hparam : s.param <;> simp [steps, bound?, hparam, hunpack, Step.bindsNode, hname]
  | bring a c x => simp [steps, bindSteps, bound?, node?, hunpack, List.countP_cons, Step.bindsNode, hname]
  | meet m c items => simp [steps, bindSteps, bound?, node?, hunpack, List.countP_cons, Step.bindsNode, hname]
  | _ => simp [steps, bound?, node?, Step.bindsNode]

end WalkEvent

/-- The events that the path of `q` goes by: those whose conditions hold on it, up to the first sink. -/
def Events.passed (q : Condition) : Events → Events
  | [] => []
  | e :: h => if q.implies e.condition && !h.any (·.ends q) then e :: passed q h else passed q h

/-- Of any two arrows into one node that the path goes by, the condition of one implies that of the
other. -/
def Events.Nested (p : Program) (q : Condition) (h : Events) : Prop :=
  ∀ a c x b d y, .bring a c x ∈ h.passed q → .bring b d y ∈ h.passed q → (p.arrow a).target = (p.arrow b).target →
    c.implies d = true ∨ d.implies c = true

namespace History

open Events

variable {p : Program} {s : Seed} {q : Condition} {h : Events}

theorem any_ends_eq_false : h.any (·.ends q) = false ↔ Unfinished q h := by
  rw [List.any_eq_false]
  constructor
  · intro hnone n c hsink
    simpa [WalkEvent.ends] using hnone _ hsink
  · intro hopen e he
    cases e with
    | sink n c => simpa [WalkEvent.ends] using hopen n c he
    | _ => simp [WalkEvent.ends]

theorem passed_sublist : (h.passed q).Sublist h := by
  induction h with
  | nil => exact .slnil
  | cons e h ih =>
    unfold passed
    split
    · exact ih.cons_cons e
    · exact ih.cons e

/-- A path binds a node as often as it goes by an event that binds it. -/
theorem countP_passages (n : Nat) : (ScopeOp.passages q 1 (h.log p s)).definitions.countP (Step.bindsNode n) =
    (h.passed q).countP fun e => e.bound? p s = some n := by
  induction h with
  | nil => rfl
  | cons e h ih =>
    cases hopen : h.any (·.ends q) with
    | true =>
      obtain ⟨e', he', hends⟩ := List.any_eq_true.1 hopen
      cases e' <;> simp only [WalkEvent.ends, Bool.false_eq_true] at hends
      rw [passages_cons_finished he' hends, ih]
      simp [passed, hopen]
    | false =>
      rw [passages_cons (any_ends_eq_false.1 hopen), Trail.definitions_append, List.countP_append, ih,
        definitions_added]
      cases himp : q.implies e.condition with
      | false => simp [passed, himp]
      | true => simp [passed, himp, hopen, WalkEvent.countP_steps, List.countP_cons]

/-! ## What can bind a node twice -/

/-- Two events that bind one node follow arrows into it, and neither condition implies the other. -/
def Rival (e e' : WalkEvent) : Prop :=
  ∃ a c x b d y, e = .bring a c x ∧ e' = .bring b d y ∧ c.implies d = false ∧ d.implies c = false

section
variable (hp : p.Consistent) (hroots : ∀ i ∈ s.roots, (p.node i).incoming = [])
include hp hroots

/-- An event that may happen rivals every earlier one that binds the same node. -/
theorem allowed_rival (hist : History p s h) {e e' : WalkEvent} (allowed : h.Allowed p s e) (he' : e' ∈ h) {n : Nat}
    (hnode : e.node? p = some n) (hnode' : e'.node? p = some n) : Rival e e' := by
  obtain ⟨_, _, -, hbefore, hallowed'⟩ := hist.exists_allowed he'
  -- what binds a root is the root itself
  have hroot : ∀ {i : Nat}, i ∈ s.roots → n = i → e = .root i ∧ e' = .root i := by
    rintro i hi rfl
    exact ⟨eq_root_of_node? hp hroots hist allowed hi hnode, eq_root_of_node? hp hroots hbefore hallowed' hi hnode'⟩
  cases e <;> simp only [WalkEvent.node?, reduceCtorEq, Option.some.injEq] at hnode <;>
    cases e' <;> simp only [WalkEvent.node?, reduceCtorEq, Option.some.injEq] at hnode'
  case root.root i j =>
    rw [hnode', ← hnode] at he'
    exact absurd he' allowed.2
  case root.bring i b d y => cases (hroot allowed.1 hnode.symm).2
  case root.meet i m d items => cases (hroot allowed.1 hnode.symm).2
  case bring.root a c x j => cases (hroot hallowed'.1 hnode'.symm).1
  case bring.bring a c x b d y =>
    have hmem : (b, d) ∈ h.arrivals p (p.arrow a).target :=
      mem_arrivals.2 ⟨mem_followed.2 ⟨_, he', rfl⟩, by rw [hnode', hnode]⟩
    obtain ⟨hdc, hcd⟩ := allowed.2.2.2.2.2.2 _ hmem
    exact ⟨a, c, x, b, d, y, rfl, rfl, hcd, hdc⟩
  case bring.meet a c x m d items =>
    rw [hnode', ← hnode] at he'
    exact absurd rfl (target_ne_of_allIn allowed (meet_allIn hp hist he') rfl)
  case meet.root m c items j => cases (hroot hallowed'.1 hnode'.symm).1
  case meet.bring m c items b d y =>
    obtain ⟨a, ha, hpositional⟩ := met_positional hp hist allowed.1
    have hb := Program.all_positional hp ⟨a, ha, hpositional⟩ b
      ((mem_incoming hp).2 ⟨hallowed'.1, by rw [hnode', hnode]⟩)
    rw [hallowed'.2.2.2.1] at hb
    cases hb
  case meet.meet m c items m' d items' =>
    rw [hnode', ← hnode] at he'
    exact absurd he' (allowed.2.2.1 d items')

theorem rivals (hist : History p s h) (n : Nat) :
    h.Pairwise fun e e' => e.node? p = some n → e'.node? p = some n → Rival e e' := by
  induction hist with
  | start => exact .nil
  | @step e h before allowed ih =>
    exact List.pairwise_cons.2 ⟨fun e' he' => allowed_rival hp hroots before allowed he', ih⟩

/-- A path binds every node at most once if and only if, among the arrows into one node that it goes by,
of any two conditions one implies the other. -/
theorem bindsOnce_iff (hist : History p s h) :
    (∀ n, (ScopeOp.passages q 1 (h.log p s)).definitions.countP (Step.bindsNode n) ≤ 1) ↔ h.Nested p q := by
  simp only [countP_passages]
  constructor
  · intro honce a c x b d y ha hb htarget
    -- both arrows bind the target, so they are one
    have hsame := eq_of_countP_le_one (honce (p.arrow a).target) ha hb (by simp [WalkEvent.bound?, WalkEvent.node?])
      (by simp [WalkEvent.bound?, WalkEvent.node?, htarget])
    cases hsame
    exact Or.inl c.implies_self
  · intro hnested n
    by_contra htwice
    obtain ⟨e, e', hsub, hbound, hbound'⟩ := exists_pair_of_countP (Nat.lt_of_not_le htwice)
    have hbound : e.bound? p s = some n := by simpa using hbound
    have hbound' : e'.bound? p s = some n := by simpa using hbound'
    -- two events that bind one node are rivals
    have hrivals := (rivals hp hroots hist n).sublist (hsub.trans passed_sublist)
    obtain ⟨a, c, x, b, d, y, rfl, rfl, hcd, hdc⟩ := (List.pairwise_cons.1 hrivals).1 e' (by simp)
      (WalkEvent.node?_of_bound? hbound) (WalkEvent.node?_of_bound? hbound')
    have htarget : (p.arrow a).target = (p.arrow b).target := Option.some.inj (hbound.trans hbound'.symm)
    rcases hnested a c x b d y (hsub.subset (by simp)) (hsub.subset (by simp)) htarget with himp | himp
    · rw [hcd] at himp
      cases himp
    · rw [hdc] at himp
      cases himp

end

end History

/-! ## Planned functions -/

/-- **When joins are unambiguous.** A planned function has a history, and the paths through its body lead
to the leaves of the scopes that the history has built. On the path to a leaf every node is bound at most
once if and only if, among the arrows into one node that the path goes by, of any two conditions one
implies the other. -/
theorem Program.plan_bindsOnce_iff {d : Draft} {p : Program} (hread : d.ReadsAs p) {plan : ProgramPlan}
    (hplan : p.plan = .ok plan) {f : FunctionPlan} (hf : f ∈ plan.functions) :
    (∃ s h, Planned p s f h) ∧ ∀ s h, Planned p s f h →
      f.body.trails = (h.scopes p s).tree.leaves.map ScopeTree.Leaf.trail ∧
      ∀ leaf ∈ (h.scopes p s).tree.leaves,
        (∀ n, leaf.trail.definitions.countP (Step.bindsNode n) ≤ 1) ↔ h.Nested p leaf.condition := by
  have hp := hread.consistent
  refine ⟨plan_history hp hplan hf, fun s h hplanned => ⟨hplanned.trails, fun leaf hleaf => ?_⟩⟩
  rw [(hplanned.leaf hp hleaf).2]
  exact History.bindsOnce_iff hp hplanned.rooted.entered hplanned.history

theorem Program.plan_bindsOnce_iff_spreadSum : ∃ p plan f, Draft.spreadSum.ReadsAs p ∧ p.plan = .ok plan ∧
    f ∈ plan.functions ∧
    (∃ s h, Planned p s f h) ∧ ∀ s h, Planned p s f h →
      f.body.trails = (h.scopes p s).tree.leaves.map ScopeTree.Leaf.trail ∧
      ∀ leaf ∈ (h.scopes p s).tree.leaves,
        (∀ n, leaf.trail.definitions.countP (Step.bindsNode n) ≤ 1) ↔ h.Nested p leaf.condition := by
  obtain ⟨p, plan, hread, hplan, hcheck⟩ := Draft.spreadSum.exists_planned
    (fun _ plan => plan.functions.any fun f => f.param = some "v0") (by decide +kernel)
  obtain ⟨f, hf, _⟩ := List.any_eq_true.1 hcheck
  exact ⟨p, plan, f, hread, hplan, hf, Program.plan_bindsOnce_iff hread hplan hf⟩

/-- Two forks that do not depend on each other, and a node that a branch of each leads into. The other
branches meet in an intersection. -/
def Draft.crossedForks : Draft where
  nodes := [⟨"()", none, ["_"], false⟩, ⟨"Int", none, ["0", "_"], true⟩, ⟨"Int", none, ["0", "_"], true⟩,
    ⟨"Int", none, [], true⟩, ⟨"(Int, Int)", none, ["_"], true⟩, ⟨"Int", none, [], true⟩]
  connections := [⟨0, 1, 0, "0"⟩, ⟨0, 2, 0, "0"⟩, ⟨1, 3, 0, "+ 10"⟩, ⟨2, 3, 0, "+ 20"⟩, ⟨1, 4, 1, "$0"⟩,
    ⟨2, 4, 1, "$1"⟩, ⟨4, 5, 0, "fst"⟩]

/-- On the path where both branches are taken, the node they lead into is bound twice. -/
theorem Program.plan_binds_twice : ∃ p plan, Draft.crossedForks.ReadsAs p ∧ p.plan = .ok plan ∧
    ∃ f ∈ plan.functions, ∃ τ ∈ f.body.trails, τ.definitions.countP (Step.bindsNode 3) = 2 := by
  obtain ⟨p, plan, hread, hplan, hcheck⟩ := Draft.crossedForks.exists_planned
    (fun _ plan => plan.functions.any fun f => f.body.trails.any fun τ =>
      τ.definitions.countP (Step.bindsNode 3) = 2) (by decide +kernel)
  exact ⟨p, plan, hread, hplan, by simpa using hcheck⟩

end Dataflow
