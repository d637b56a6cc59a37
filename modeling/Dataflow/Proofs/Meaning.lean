import Dataflow.Proofs.Account
import Mathlib.Logic.Relation

/-!
# What a graph says

A graph is read without its plan: a valuation gives values to some of the nodes and says by which pin
they are left, and every value must be accounted for. A root holds what the function is called with, a
node holds what one of the live arrows into it brings, and an intersection holds the tuple of what all
its inputs hold. The value that a planned function returns is the value of a sink in such a valuation.
-/

namespace Dataflow

/-! ## Valuations -/

/-- What a brancher says about the value of a node. A guard is its test applied to the node, in
variables that show the value. -/
def Brancher.Answers (eval : Env → Expr → Outcome) (p : Program) (n : Nat) (v : Value) (env : Env) :
    Brancher → Bool → Prop
  | .any, answer => answer = true
  | .pattern pat, answer => v.fits pat = answer
  | .guard test, answer =>
    ∃ e out, test.applyTo (nodeVar n) (p.node n).ty = .ok (e, out) ∧ eval env e = .ok (.bool answer)

/-- The pin `k` is the first, in the order of pins, whose brancher accepts the value of the node. -/
def Program.Selects (eval : Env → Expr → Outcome) (p : Program) (n : Nat) (v : Value) (k : Nat) : Prop :=
  ∃ env, Shows p n v env ∧
    (∃ pin, (p.node n).pins[k]? = some pin ∧ pin.brancher.Answers eval p n v env true) ∧
    ∀ j < k, ∀ pin, (p.node n).pins[j]? = some pin → pin.brancher.Answers eval p n v env false

/-- Values for some of the nodes, and the pins by which they are left. -/
structure Valuation where
  value : Nat → Option Value
  pin : Nat → Nat

namespace Valuation

/-- An arrow is live: its source has a value, which selects the pin that the arrow leaves. -/
def Live (eval : Env → Expr → Outcome) (p : Program) (ρ : Valuation) (a : Nat) : Prop :=
  ∃ v, ρ.value (p.arrow a).source = some v ∧ ρ.pin (p.arrow a).source = (p.arrow a).pin ∧
    p.Selects eval (p.arrow a).source v (p.arrow a).pin

/-- An arrow brings the value of its morphism applied to its source. -/
def Brings (eval : Env → Expr → Outcome) (p : Program) (ρ : Valuation) (a : Nat) (v : Value) : Prop :=
  ∃ u env e out, ρ.value (p.arrow a).source = some u ∧ Shows p (p.arrow a).source u env ∧
    (p.arrow a).morphism.applyTo (nodeVar (p.arrow a).source) (p.node (p.arrow a).source).ty = .ok (e, out) ∧
    eval env e = .ok v

/-- The valuation accounts for a result, from roots that hold `start`. -/
structure Explains (eval : Env → Expr → Outcome) (p : Program) (roots : List Nat) (start : Value)
    (ρ : Valuation) (result : Value) : Prop where
  /-- Only nodes of the function have values. -/
  reached : ∀ n v, ρ.value n = some v → ∃ r ∈ roots, Relation.ReflTransGen (fun i j => j ∈ p.successors i) r n
  root : ∀ r ∈ roots, ρ.value r = some start
  joined : ∀ n v, ρ.value n = some v → n ∉ roots →
    (∀ a ∈ (p.node n).incoming, (p.arrow a).isPositional = false) →
    ∃ a ∈ (p.node n).incoming, ρ.Live eval p a ∧ ρ.Brings eval p a v
  /-- All inputs of an intersection are live, and each fills its slot. -/
  met : ∀ n v, ρ.value n = some v → (∃ a ∈ (p.node n).incoming, (p.arrow a).isPositional = true) →
    ∃ items : List Value, v = .tuple items ∧ items.length = (p.node n).incoming.length ∧
      (∀ a ∈ (p.node n).incoming, ρ.Live eval p a) ∧
      ∀ k < items.length, ∃ a ∈ (p.node n).incoming, (p.arrow a).morphism = .slot (some k) ∧
        ρ.value (p.arrow a).source = items[k]?
  sink : ∃ n, (p.node n).isSink = true ∧ ρ.value n = some result

end Valuation

/-! ## Labels and branchers -/

/-- What a label decides is what its brancher answers. -/
theorem Brancher.answers_of_select {eval : Env → Expr → Outcome} {p : Program} {n : Nat} {v : Value} {env : Env}
    (hshows : Shows p n v env) {b : Brancher} {label : BranchLabel} (hlabel : b.Labelled n (p.node n).ty label)
    {answer : Bool} (hselect : Eval.select eval env label = .ok answer) : b.Answers eval p n v env answer := by
  cases hlabel with
  | any =>
    cases hselect
    rfl
  | pattern pat =>
    simp only [Eval.select, Env.value, hshows.own] at hselect
    cases hselect
    rfl
  | guard test e out happly =>
    simp only [Eval.select] at hselect
    split at hselect
    · rename_i taken heval
      cases hselect
      exact ⟨e, out, happly, heval⟩
    · cases hselect
    · cases hselect

/-- The first label that is taken belongs to the pin that the node selects. -/
theorem Program.selects_of_firstTaken {eval : Env → Expr → Outcome} {p : Program} {n : Nat} {v : Value} {env : Env}
    (hshows : Shows p n v env) {labels : List BranchLabel}
    (hlabels : pinLabels n (p.node n).ty 0 (p.node n).pins = .ok labels) {k : Nat}
    (hfirst : Eval.FirstTaken eval env labels k) : p.Selects eval n v k := by
  obtain ⟨⟨label, hk, htaken⟩, hrefused⟩ := hfirst
  have hall := pinLabels_ok hlabels
  have hlen := hall.length_eq
  obtain ⟨hlt, rfl⟩ := List.getElem?_eq_some_iff.1 hk
  refine ⟨env, hshows, ⟨_, List.getElem?_eq_getElem (by omega), ?_⟩, fun j hj pin hpin => ?_⟩
  · exact Brancher.answers_of_select hshows (hall.get _ hlt) htaken
  · obtain ⟨hjlt, rfl⟩ := List.getElem?_eq_some_iff.1 hpin
    have hjlt' : j < labels.length := by omega
    have hj' := hrefused j hj labels[j] (List.getElem?_eq_getElem hjlt')
    exact Brancher.answers_of_select hshows (hall.get hjlt hjlt') hj'

/-- The components of a tuple are evaluated one by one. -/
theorem Eval.exprList_ok {invoke : String → List Value → Outcome} {env : Env} : ∀ {es : List Expr} {vs : List Value},
    exprList invoke env es = .ok vs → List.Forall₂ (fun e v => expr invoke env e = .ok v) es vs
  | [], vs, h => by
    cases h
    exact .nil
  | e :: es, vs, h => by
    unfold exprList at h
    split at h
    · cases h
    · rename_i v hv
      split at h
      · rename_i rest hrest
        cases h
        exact .cons hv (exprList_ok hrest)
      · cases h

theorem Eval.tuple_ok {invoke : String → List Value → Outcome} {env : Env} {es : List Expr} {v : Value}
    (h : expr invoke env (.tuple es) = .ok v) :
    ∃ vs, List.Forall₂ (fun e v => expr invoke env e = .ok v) es vs ∧ v = .tuple vs := by
  unfold expr at h
  split at h
  · rename_i vs hvs
    cases h
    exact ⟨vs, exprList_ok hvs, rfl⟩
  · cases h

theorem Eval.var_ok {invoke : String → List Value → Outcome} {env : Env} {x : String} {v : Value}
    (h : expr invoke env (.var x) = .ok v) : env.find? x = some v := by
  unfold expr Env.value at h
  split at h
  · rename_i u hu
    cases h
    exact hu
  · cases h

/-! ## Where values can be -/

/-- An arrow leads to a successor of its source. -/
theorem Program.mem_successors {p : Program} (hp : p.Consistent) {a : Nat} (ha : a < p.arrows.length) :
    (p.arrow a).target ∈ p.successors (p.arrow a).source := by
  have hpin := (hp.ends a ha).2.2
  refine List.mem_map.2 ⟨a, List.mem_flatMap.2 ⟨_, List.getElem_mem hpin, ?_⟩, rfl⟩
  rw [hp.leaving _ _ _ (List.getElem?_eq_getElem hpin)]
  simp [ha]

namespace History

open Events Eval

variable {p : Program} {s : Seed} {q : Condition} {h : Events} {eval : Env → Expr → Outcome} {start : Value}
  {last : Env}

/-- Only nodes that the roots reach get values. -/
theorem bound_reached (hp : p.Consistent) (hist : History p s h) {n : Nat} (hb : Bound p (· ∈ q.literals) h n) :
    ∃ r ∈ s.roots, Relation.ReflTransGen (fun i j => j ∈ p.successors i) r n := by
  induction hist generalizing n with
  | start => cases hb <;> contradiction
  | @step e h before allowed ih =>
    -- an arrow that is followed leads on from a node that has a value
    have hfollow : ∀ {a : Nat} {c : Condition}, a < p.arrows.length → Leaves p h a c → OnPath q c →
        ∃ r ∈ s.roots, Relation.ReflTransGen (fun i j => j ∈ p.successors i) r (p.arrow a).target := by
      intro a c ha hl holds
      obtain ⟨r, hr, hreach⟩ := ih (before.leaves_bound hl holds)
      exact ⟨r, hr, hreach.tail (Program.mem_successors hp ha)⟩
    rcases bound_cons.1 hb with hb | ⟨hnode, holds⟩
    · exact ih hb
    · cases e <;> simp only [WalkEvent.node?, reduceCtorEq, Option.some.injEq] at hnode
      · subst hnode
        exact ⟨_, allowed.1, .refl⟩
      · subst hnode
        exact hfollow allowed.1 allowed.2.1 holds
      · subst hnode
        obtain ⟨a, ha, _⟩ := met_positional hp before allowed.1
        obtain ⟨d, _, hl, hd⟩ := met_arrival hp before allowed.1 holds ha
        obtain ⟨halt, htarget⟩ := (mem_incoming hp).1 ha
        rw [← htarget]
        exact hfollow halt hl hd

/-- The pin by which a path leaves a node is the one that its value selects. -/
theorem leaves_selects (hp : p.Consistent) (hist : History p s h) (hq : PathOf p s h q)
    (hacc : Accounted p s q eval start h last) {a : Nat} {c : Condition} (ha : a < p.arrows.length)
    (hl : Leaves p h a c) (holds : OnPath q c) :
    ∃ v, last.find? (nodeVar (p.arrow a).source) = some v ∧ p.Selects eval (p.arrow a).source v (p.arrow a).pin := by
  have hpin := (hp.ends a ha).2.2
  obtain ⟨v, hshows, _⟩ := hacc.values _ (hist.leaves_bound hl holds)
  cases hl with
  | pass hpass =>
    obtain ⟨pin, hpins⟩ := hist.pass_pins hpass
    obtain hzero : (p.arrow a).pin = 0 := by
      rw [hpins, List.length_singleton] at hpin
      omega
    refine ⟨v, hshows.own, last, hshows, ⟨pin, by rw [hpins, hzero]; rfl, ?_⟩, by omega⟩
    rw [hp.onlyPin _ _ hpins]
    rfl
  | fork own labels next hfork hc =>
    subst hc
    obtain ⟨hown, hbranch⟩ := Condition.holdsOn_and.1 holds
    have hlen := ((hist.knows hp).branches _ _ _ _ hfork).1
    have htaken := hist.fork_taken hq hfork (by omega) (Condition.holdsOn_literal.1 hbranch)
    obtain ⟨u, prior, hu, hshows, hfirst⟩ := hacc.forks _ _ _ _ hfork hown
    rw [htaken] at hfirst
    obtain ⟨_, _, _, _, hallowed⟩ := hist.exists_allowed hfork
    exact ⟨u, hu, Program.selects_of_firstTaken hshows hallowed.2.2.2.2.1 hfirst⟩

/-! ## The valuation of a path -/

/-- A path leaves the node by an arrow. -/
def LeftBy (p : Program) (q : Condition) (h : Events) (m a : Nat) : Prop :=
  a < p.arrows.length ∧ (p.arrow a).source = m ∧ ∃ c, Leaves p h a c ∧ OnPath q c

open Classical in
/-- The values that a path has led to, and the pins by which it left. -/
noncomputable def valuation (p : Program) (q : Condition) (h : Events) (last : Env) : Valuation where
  value n := if Bound p (· ∈ q.literals) h n then last.find? (nodeVar n) else none
  pin m := if hleft : ∃ a, LeftBy p q h m a then (p.arrow hleft.choose).pin else 0

theorem valuation_value {n : Nat} {v : Value} : (valuation p q h last).value n = some v ↔
    Bound p (· ∈ q.literals) h n ∧ last.find? (nodeVar n) = some v := by
  simp [valuation]

theorem valuation_pin (hp : p.Consistent) (hist : History p s h) (hq : PathOf p s h q) {a : Nat} {c : Condition}
    (ha : a < p.arrows.length) (hl : Leaves p h a c) (holds : OnPath q c) :
    (valuation p q h last).pin (p.arrow a).source = (p.arrow a).pin := by
  have hleft : ∃ b, LeftBy p q h (p.arrow a).source b := ⟨a, ha, rfl, c, hl, holds⟩
  obtain ⟨hb, hsource, d, hlb, hd⟩ := hleft.choose_spec
  simp only [valuation, dif_pos hleft]
  exact leaves_pin hp hist hq hb ha hlb hl hd holds hsource

/-- A value is justified by the values that it was worked out from. -/
theorem Accounted.justified (hacc : Accounted p s q eval start h last) {n : Nat} {v : Value}
    (hv : (valuation p q h last).value n = some v) : Justified p q eval start h last n v := by
  obtain ⟨hb, hfind⟩ := valuation_value.1 hv
  obtain ⟨u, hshows, hj⟩ := hacc.values n hb
  rw [hshows.own] at hfind
  cases hfind
  exact hj

theorem Accounted.source (hist : History p s h) (hacc : Accounted p s q eval start h last) {a : Nat} {c : Condition}
    (hl : Leaves p h a c) (holds : OnPath q c) :
    (valuation p q h last).value (p.arrow a).source = last.find? (nodeVar (p.arrow a).source) := by
  have hb := hist.leaves_bound hl holds
  obtain ⟨v, hshows, _⟩ := hacc.values _ hb
  rw [hshows.own]
  exact valuation_value.2 ⟨hb, hshows.own⟩

section
variable (hp : p.Consistent) (hist : History p s h) (hq : PathOf p s h q)
include hp hist hq

/-- The arrows that a path followed are live. -/
theorem Accounted.live (hacc : Accounted p s q eval start h last) {a : Nat} {c : Condition} (ha : a < p.arrows.length)
    (hl : Leaves p h a c) (holds : OnPath q c) : (valuation p q h last).Live eval p a := by
  obtain ⟨v, hv, hselects⟩ := leaves_selects hp hist hq hacc ha hl holds
  exact ⟨v, (hacc.source hist hl holds).trans hv, valuation_pin hp hist hq ha hl holds, hselects⟩

/-- A node that is no intersection has what one of its inputs brings. -/
theorem Accounted.joined (hacc : Accounted p s q eval start h last) {n : Nat} {v : Value}
    (hv : (valuation p q h last).value n = some v) (hn : n ∉ s.roots)
    (hplain : ∀ a ∈ (p.node n).incoming, (p.arrow a).isPositional = false) :
    ∃ a ∈ (p.node n).incoming, (valuation p q h last).Live eval p a ∧ (valuation p q h last).Brings eval p a v := by
  cases hacc.justified hv with
  | root hroot _ =>
    obtain ⟨_, _, _, _, hallowed⟩ := hist.exists_allowed hroot
    exact absurd hallowed.1 hn
  | brought a c e u prior hbring target holds source shown value =>
    obtain ⟨later, before, rfl, _, ha, hl, _, _, hexpr, _⟩ := hist.exists_allowed hbring
    have hl : Leaves p (later ++ .bring a c e :: before) a c := leaves_mono (fun e' he' => by simp [he']) hl
    obtain ⟨out, happly⟩ := Program.arrowExpr_ok hexpr
    refine ⟨a, (mem_incoming hp).2 ⟨ha, target⟩, hacc.live hp hist hq ha hl holds, u, prior, e, out, ?_⟩
    exact ⟨(hacc.source hist hl holds).trans source, shown, happly, value⟩
  | met c items prior hmeet holds sources value =>
    obtain ⟨a, ha, hpositional⟩ := met_positional hp hist (meet_met hp hist hmeet)
    rw [hplain a ha] at hpositional
    cases hpositional

/-- An intersection has the tuple of what its inputs have. -/
theorem Accounted.met {invoke : String → List Value → Outcome} (hr : s.Rooted p)
    (hacc : Accounted p s q (expr invoke) start h last) {n : Nat} {v : Value}
    (hv : (valuation p q h last).value n = some v)
    (hpos : ∃ a ∈ (p.node n).incoming, (p.arrow a).isPositional = true) :
    ∃ items : List Value, v = .tuple items ∧ items.length = (p.node n).incoming.length ∧
      (∀ a ∈ (p.node n).incoming, (valuation p q h last).Live (expr invoke) p a) ∧
      ∀ k < items.length, ∃ a ∈ (p.node n).incoming, (p.arrow a).morphism = .slot (some k) ∧
        (valuation p q h last).value (p.arrow a).source = items[k]? := by
  cases hacc.justified hv with
  | root hroot _ =>
    obtain ⟨_, _, _, _, hallowed⟩ := hist.exists_allowed hroot
    obtain ⟨a, ha, _⟩ := hpos
    rw [hr.entered n hallowed.1] at ha
    cases ha
  | brought a c e u prior hbring target holds source shown value =>
    obtain ⟨_, _, _, _, ha, _, _, hplain, _⟩ := hist.exists_allowed hbring
    rw [Program.all_positional hp hpos a ((mem_incoming hp).2 ⟨ha, target⟩)] at hplain
    cases hplain
  | met c exprs prior hmeet holds sources value =>
    have hmet := meet_met hp hist hmeet
    obtain ⟨slots, hslots, rfl⟩ := hmet.items
    obtain ⟨vs, hvs, rfl⟩ := tuple_ok value
    obtain ⟨hlen, hplace⟩ := Program.slotExprs_place hp hpos (arrivals_perm hp hist hmet.all)
      (by rw [List.map_map]; exact hslots)
    have hlen' := hvs.length_eq
    rw [List.length_map] at hlen'
    refine ⟨vs, rfl, by omega, fun a ha => ?_, fun k hk => ?_⟩
    · obtain ⟨d, _, hl, hd⟩ := met_arrival hp hist hmet holds ha
      exact hacc.live hp hist hq ((mem_incoming hp).1 ha).1 hl hd
    · obtain ⟨a, ha, hslot, he⟩ := hplace k _ (List.getElem?_eq_getElem (by rw [List.length_map]; omega))
      obtain ⟨d, hx, hl, hd⟩ := met_arrival hp hist hmet holds ha
      have heval := hvs.get (by rw [List.length_map]; omega) hk
      rw [List.get_eq_getElem, he] at heval
      refine ⟨a, ha, hslot, ?_⟩
      rw [hacc.source hist hl hd, ← sources (a, d) hx, var_ok heval, List.get_eq_getElem, List.getElem?_eq_getElem hk]

/-- The valuation of a path accounts for the value of a sink where the path ends. -/
theorem Accounted.explains {invoke : String → List Value → Outcome} (hr : s.Rooted p)
    (hacc : Accounted p s q (expr invoke) start h last) {roots : List Nat} (hroots : ∀ i, i ∈ roots ↔ i ∈ s.roots)
    (hstarted : ∀ i ∈ s.roots, .root i ∈ h) {n : Nat} {v : Value} (hsink : (p.node n).isSink = true)
    (hb : Bound p (· ∈ q.literals) h n) (hv : last.find? (nodeVar n) = some v) :
    (valuation p q h last).Explains (expr invoke) p roots start v where
  reached m u hu := by
    obtain ⟨r, hr, hreach⟩ := bound_reached hp hist (valuation_value.1 hu).1
    exact ⟨r, (hroots r).2 hr, hreach⟩
  root i hi := by
    have hi := (hroots i).1 hi
    obtain ⟨u, hshows, hj⟩ := hacc.values i (.root (hstarted i hi))
    refine valuation_value.2 ⟨.root (hstarted i hi), ?_⟩
    rw [hshows.own]
    -- no arrow leads into a root, so its value is the one it started with
    cases hj with
    | root _ value => rw [value]
    | brought a c e _ _ hbring target _ _ _ _ =>
      obtain ⟨_, _, _, hbefore, hallowed⟩ := hist.exists_allowed hbring
      cases eq_root_of_node? hp hr.entered hbefore hallowed hi (congrArg some target)
    | met c items _ hmeet _ _ _ =>
      obtain ⟨_, _, _, hbefore, hallowed⟩ := hist.exists_allowed hmeet
      cases eq_root_of_node? hp hr.entered hbefore hallowed hi rfl
  joined m u hu hm hplain := hacc.joined hp hist hq hu (fun hi => hm ((hroots m).2 hi)) hplain
  met m u hu hpos := hacc.met hp hist hq hr hu hpos
  sink := ⟨n, hsink, valuation_value.2 ⟨hb, hv⟩⟩

end

end History

/-! ## The plan computes what the graph says -/

/-- The parameter of a function is its root, and the other roots hold the unit value. -/
theorem Planned.entry {p : Program} {s : Seed} {f : FunctionPlan} {h : Events} (hf : Planned p s f h) (arg : Value) :
    (s.param = none → (if f.isMain then .unit else arg) = Value.unit) ∧
      ∀ i, s.param = some i → (Eval.entryEnv f arg).enter.find? (nodeVar i) = some (if f.isMain then .unit else arg) := by
  refine ⟨fun hparam => ?_, fun i hi => ?_⟩
  · simp [FunctionPlan.isMain, hf.param, hparam]
  · have hparam : f.param = some (nodeVar i) := by rw [hf.param, hi]; rfl
    rw [Env.find?_enter]
    simp [Eval.entryEnv, FunctionPlan.isMain, hparam, Env.find?_add]

/-- The roots had their values before any node was visited. -/
theorem Planned.root_mem {p : Program} {s : Seed} {f : FunctionPlan} {later early : Events} {e : WalkEvent}
    (hf : Planned p s f (later ++ e :: early)) {n : Nat} {c : Condition} (hvisit : e.visit? = some (n, c)) :
    ∀ i ∈ s.roots, .root i ∈ early := by
  obtain ⟨h₀, hsuffix, hnone, hroots⟩ := hf.started
  intro i hi
  have hmem : .root i ∈ e :: early := by
    rcases List.suffix_or_suffix_of_suffix hsuffix (List.suffix_append later (e :: early)) with hsub | hsub
    · exact hsub.subset (hroots i hi)
    · have hn : n ∈ h₀.visited := Events.mem_visited.2 ⟨e, hsub.subset List.mem_cons_self, c, hvisit⟩
      rw [hnone] at hn
      cases hn
  rcases List.mem_cons.1 hmem with rfl | hmem
  · cases hvisit
  · exact hmem

/-- What a planned function returns is what the graph says: the value of a sink in a valuation that
accounts for every value from the argument on. Expressions, and the calls in them, mean what they mean
to the interpreter one call deeper. -/
theorem Program.plan_meaning {d : Draft} {p : Program} (hread : d.ReadsAs p) {plan : ProgramPlan}
    (hplan : p.plan = .ok plan) {f : FunctionPlan} (hf : f ∈ plan.functions) {nesting limit depth : Nat} {arg v : Value}
    (hrun : Eval.runWithin plan nesting limit (depth + 1) f arg = .ok v) :
    ∃ ρ : Valuation,
      ρ.Explains (Eval.exprWith plan nesting (Eval.runWithin plan nesting limit depth)) p (p.rootsOf f)
      (if f.isMain then .unit else arg) v := by
  have hp := hread.consistent
  obtain ⟨s, h, hplanned⟩ := plan_history hp hplan hf
  obtain ⟨hunit, hparam⟩ := hplanned.entry arg
  obtain ⟨τ, hτ, before, e, after, last, rfl, hfollows, hresult⟩ := Eval.block_follows hrun
  obtain ⟨q, hq, hpath⟩ := hplanned.trail hp hτ
  -- the run ends at a sink, and all that it went by happened before
  obtain ⟨n, c, later, early, rfl, hopen, himp, rfl, rfl⟩ := History.exists_sink hpath.symm
  cases hplanned.history.of_append with
  | step hist allowed =>
    have hb := hist.ready_bound allowed.1 ((History.implies_iff_onPath hp hist hq.isPath allowed).1 himp)
    have hq' : PathOf p s early q := by
      rw [List.append_cons] at hq
      exact hq.of_append
    have hacc := History.accounted hp hplanned.rooted hunit hq.isPath hist hopen hparam hfollows
    exact ⟨_, hacc.explains hp hist hq' hplanned.rooted hplanned.roots (hplanned.root_mem rfl) allowed.2.2.1 hb
      (Eval.var_ok hresult)⟩

/-- A run that ends with an integer. -/
def Eval.gives (k : Int64) : Outcome → Bool
  | .ok (.lit (.int n)) => n = k
  | _ => false

theorem Eval.gives_iff {k : Int64} {x : Outcome} : gives k x = true ↔ x = .ok (.int k) := by
  unfold gives
  split
  · simp [Value.int]
  · rename_i hne
    simpa using hne k

theorem Program.plan_meaning_spreadSum : ∃ p plan f, Draft.spreadSum.ReadsAs p ∧ p.plan = .ok plan ∧
    f ∈ plan.functions ∧ Eval.runWithin plan 9 5 5 f (.tuple [.int 5, .int 13]) = .ok (.int 27) ∧
    ∃ ρ : Valuation, ρ.Explains (Eval.exprWith plan 9 (Eval.runWithin plan 9 5 4)) p (p.rootsOf f)
      (if f.isMain then .unit else .tuple [.int 5, .int 13]) (.int 27) := by
  obtain ⟨p, plan, hread, hplan, hcheck⟩ := Draft.spreadSum.exists_planned (fun _ plan => plan.functions.any fun f =>
    Eval.gives 27 (Eval.runWithin plan 9 5 5 f (.tuple [.int 5, .int 13]))) (by decide +kernel)
  obtain ⟨f, hf, hgives⟩ := List.any_eq_true.1 hcheck
  have hrun := Eval.gives_iff.1 hgives
  exact ⟨p, plan, f, hread, hplan, hf, hrun, Program.plan_meaning hread hplan hf hrun⟩

end Dataflow
