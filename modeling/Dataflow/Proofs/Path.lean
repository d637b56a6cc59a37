import Dataflow.Proofs.WalkHistory

/-!
# Paths of a planned function

A path through the body of a planned function has a condition, and what stands on the path is what
the events of the history leave there, in their order: an event whose condition holds on the path
leaves its steps or its choice, and any other leaves nothing. The first sink whose condition holds
ends the path.
-/

namespace Dataflow

variable {δ ℓ : Type}

/-! ## What operations leave on a path -/

namespace ScopeOp

variable {q : Condition}

theorem passages_eq_nil {next : Nat} {ops : List (ScopeOp δ ℓ)} (h : ∀ op ∈ ops, q.implies op.condition = false) :
    passages q next ops = [] := by
  induction ops generalizing next with
  | nil => rfl
  | cons op ops ih =>
    rw [passages_cons_of_not_implies (h op (by simp))]
    exact ih fun op' hop' => h op' (by simp [hop'])

theorem passages_map_define {next : Nat} {c : Condition} (himp : q.implies c = true) (ds : List δ) :
    passages q next (ds.map (.define c) : List (ScopeOp δ ℓ)) = ds.map .definition := by
  induction ds with
  | nil => rfl
  | cons d ds ih => simp [passages, himp, ih]

/-- Operations that close nothing on the path are followed by what comes next. -/
theorem passages_append {next : Nat} {ops more : List (ScopeOp δ ℓ)}
    (h : ∀ c, .close c ∈ ops → q.implies c = false) :
    passages q next (ops ++ more) = passages q next ops ++ passages q (next + widths ops) more := by
  induction ops generalizing next with
  | nil => simp [passages, widths]
  | cons op ops ih =>
    have hrest := @ih (next + op.width) fun c hc => h c (List.mem_cons_of_mem _ hc)
    rw [Nat.add_assoc] at hrest
    cases himp : q.implies op.condition with
    | false =>
      rw [List.cons_append, passages_cons_of_not_implies himp, passages_cons_of_not_implies himp, hrest, widths]
    | true =>
      cases op with
      | define c d => simpa [passages, show q.implies c = true from himp, width, widths] using hrest
      | fork c labels => simpa [passages, show q.implies c = true from himp, width, widths] using hrest
      | close c =>
        have hclose := h c (by simp)
        rw [show q.implies c = true from himp] at hclose
        cases hclose

/-- Behind a closing on the path nothing follows. -/
theorem passages_append_closed {next : Nat} {ops more : List (ScopeOp δ ℓ)} {c : Condition}
    (hmem : .close c ∈ ops) (himp : q.implies c = true) : passages q next (ops ++ more) = passages q next ops := by
  induction ops generalizing next with
  | nil => cases hmem
  | cons op ops ih =>
    rcases List.mem_cons.1 hmem with rfl | hrest
    · simp [passages, himp]
    · cases op with
      | define d x => simp only [List.cons_append, passages, ih hrest]
      | fork d labels => simp only [List.cons_append, passages, ih hrest]
      | close d => simp only [List.cons_append, passages, ih hrest]

end ScopeOp

/-! ## The path conditions of a planned function -/

/-- `q` is the condition of a path through what the events have built. -/
structure PathOf (p : Program) (s : Seed) (h : Events) (q : Condition) : Prop where
  isPath : q.IsPath
  single : ScopeOp.SingleFrom q 1 (h.log p s)

theorem PathOf.of_append {p : Program} {s : Seed} {h h' : Events} {q : Condition} (hq : PathOf p s (h' ++ h) q) :
    PathOf p s h q := by
  have hsingle := hq.single
  rw [Events.log_append, ScopeOp.singleFrom_append] at hsingle
  exact ⟨hq.isPath, hsingle.1⟩

/-- The paths through the body of a planned function lead to the leaves of its scopes. -/
theorem Planned.trails {p : Program} {s : Seed} {f : FunctionPlan} {h : Events} (hf : Planned p s f h) :
    f.body.trails = (h.scopes p s).tree.leaves.map ScopeTree.Leaf.trail := by
  obtain ⟨hopen, htree⟩ := ScopeBuilder.extract_ok hf.body
  exact ScopeTree.toBlock_trails hopen htree

/-- What stands on the path to a leaf is what the condition of the leaf selects. -/
theorem Planned.leaf {p : Program} (hp : p.Consistent) {s : Seed} {f : FunctionPlan} {h : Events}
    (hf : Planned p s f h) {leaf : ScopeTree.Leaf Step BranchLabel} (hleaf : leaf ∈ (h.scopes p s).tree.leaves) :
    PathOf p s h leaf.condition ∧ leaf.trail = ScopeOp.passages leaf.condition 1 (h.log p s) := by
  have hlegal := hf.history.log_legal hp
  obtain ⟨hpath, htrail⟩ := ScopeBuilder.run_start_leaf hlegal hleaf
  exact ⟨⟨hpath, ScopeBuilder.run_single _ _ hlegal ScopeBuilder.start_numbered leaf hleaf⟩, htrail⟩

theorem Planned.trail {p : Program} (hp : p.Consistent) {s : Seed} {f : FunctionPlan} {h : Events}
    (hf : Planned p s f h) {τ : Trail Step BranchLabel} (hτ : τ ∈ f.body.trails) :
    ∃ q, PathOf p s h q ∧ τ = ScopeOp.passages q 1 (h.log p s) := by
  rw [hf.trails] at hτ
  obtain ⟨leaf, hleaf, rfl⟩ := List.mem_map.1 hτ
  exact ⟨leaf.condition, hf.leaf hp hleaf⟩

namespace History

open Events

variable {p : Program} {s : Seed} {h : Events} {q : Condition}

/-- The condition holds on the path. -/
abbrev OnPath (q c : Condition) : Prop := c.HoldsOn (· ∈ q.literals)

/-- A path implies the condition of an event if it holds there. -/
theorem implies_iff_onPath (hp : p.Consistent) (hist : History p s h) (hq : q.IsPath) {e : WalkEvent}
    (allowed : h.Allowed p s e) : q.implies e.condition = true ↔ OnPath q e.condition :=
  Condition.implies_iff_holdsOn hq (allowed_known hp hist (hist.knows hp) allowed).proper

/-- On a path where an intersection was built, all its inputs were followed. -/
theorem met_arrival (hp : p.Consistent) (hist : History p s h) {n : Nat} {c : Condition} {items : List Expr}
    (hmet : Met p h n c items) (holds : OnPath q c) {a : Nat} (ha : a ∈ (p.node n).incoming) :
    ∃ d, (a, d) ∈ h.arrivals p n ∧ Leaves p h a d ∧ OnPath q d := by
  have hmem := (arrivals_perm hp hist hmet.all).mem_iff.2 ha
  obtain ⟨⟨a, d⟩, hx, rfl⟩ := List.mem_map.1 hmem
  rw [hmet.condition] at holds
  have hall := (Condition.holdsOn_foldl_and.1 holds).2
  exact ⟨d, hx, (hist.followed_leaves (mem_arrivals.1 hx).1).2, hall d (List.mem_map_of_mem hx)⟩

/-- No sink has been reached on the path. -/
def Unfinished (q : Condition) (h : Events) : Prop := ∀ n c, .sink n c ∈ h → q.implies c = false

theorem close_mem_log {c : Condition} (hop : .close c ∈ h.log p s) : ∃ n, .sink n c ∈ h := by
  induction h with
  | nil => cases hop
  | cons e h ih =>
    rcases List.mem_append.1 hop with hop | hop
    · obtain ⟨n, hn⟩ := ih hop
      exact ⟨n, List.mem_cons_of_mem _ hn⟩
    · rcases mem_ops hop with ⟨d, heq⟩ | ⟨n, c', labels, next, _, heq⟩ | ⟨n, c', rfl, heq⟩
      · cases heq
      · cases heq
      · cases heq
        exact ⟨n, List.mem_cons_self⟩

/-- The number of the next branch is worked out from the operations. -/
theorem nextVar_eq : (h.scopes p s).nextVar = 1 + ScopeOp.widths (h.log p s) :=
  ScopeBuilder.run_nextVar _ _

/-- What an event adds to the path of `q`. -/
def added (p : Program) (s : Seed) (q : Condition) (h : Events) (e : WalkEvent) : Trail Step BranchLabel :=
  ScopeOp.passages q (h.scopes p s).nextVar (e.ops p s)

/-- On a path without a sink so far, an event adds to what is there. -/
theorem passages_cons (hopen : Unfinished q h) (e : WalkEvent) :
    ScopeOp.passages q 1 (log p s (e :: h)) = ScopeOp.passages q 1 (h.log p s) ++ added p s q h e := by
  rw [log_cons, ScopeOp.passages_append fun c hc => ?_, added, nextVar_eq]
  obtain ⟨n, hn⟩ := close_mem_log hc
  exact hopen n c hn

/-- On a path that has met a sink, nothing is added. -/
theorem passages_cons_finished {n : Nat} {c : Condition} (hsink : .sink n c ∈ h) (himp : q.implies c = true)
    (e : WalkEvent) : ScopeOp.passages q 1 (log p s (e :: h)) = ScopeOp.passages q 1 (h.log p s) := by
  refine ScopeOp.passages_append_closed (c := c) ?_ himp
  obtain ⟨later, before, rfl⟩ := List.append_of_mem hsink
  simp [log_append, WalkEvent.ops]

theorem added_eq_nil {e : WalkEvent} (himp : q.implies e.condition = false) : added p s q h e = [] :=
  ScopeOp.passages_eq_nil fun op hop => by rw [ops_condition hop, himp]

/-- An event that holds on the path adds its steps. -/
theorem added_eq_steps {e : WalkEvent} (himp : q.implies e.condition = true)
    (hfork : ∀ n c labels next, e ≠ .fork n c labels next) :
    added p s q h e = (e.steps p s).map .definition := by
  unfold added
  cases e with
  | fork n c labels next => exact absurd rfl (hfork n c labels next)
  | sink n c =>
    have himp : q.implies c = true := himp
    simp [WalkEvent.ops, WalkEvent.steps, ScopeOp.passages, himp]
  | _ => exact ScopeOp.passages_map_define himp _

/-- A fork that holds on the path adds a choice. -/
theorem added_eq_choice {n : Nat} {c : Condition} {labels : List BranchLabel} {next : Nat}
    (himp : q.implies c = true) : added p s q h (.fork n c labels next) =
      [.choice labels (q.taken (h.scopes p s).nextVar labels.length)] := by
  simp [added, WalkEvent.ops, ScopeOp.passages, himp]

/-- The definitions that an event adds are its steps. -/
theorem definitions_added (e : WalkEvent) :
    (added p s q h e).definitions = if q.implies e.condition then e.steps p s else [] := by
  cases himp : q.implies e.condition with
  | false => simp [added_eq_nil himp, Trail.definitions]
  | true =>
    by_cases hfork : ∃ n c labels next, e = .fork n c labels next
    · obtain ⟨n, c, labels, next, rfl⟩ := hfork
      simp [added_eq_choice (c := c) himp, Trail.definitions, Passage.definition?, WalkEvent.steps]
    · rw [added_eq_steps himp fun n c labels next heq => hfork ⟨n, c, labels, next, heq⟩]
      simp [Trail.definitions, List.filterMap_map, Function.comp_def, Passage.definition?]

/-! ## Where a path leaves a node -/

/-- A node that is passed has one pin. -/
theorem pass_pins (hist : History p s h) {n : Nat} {c : Condition} (hpass : .pass n c ∈ h) :
    ∃ pin, (p.node n).pins = [pin] := by
  obtain ⟨_, _, _, _, _, _, hsink, hbranching⟩ := hist.exists_allowed hpass
  cases hpins : (p.node n).pins with
  | nil => simp [Node.isSink, hpins] at hsink
  | cons pin pins =>
    cases pins with
    | nil => exact ⟨pin, rfl⟩
    | cons _ _ => simp [Node.isBranching, hpins] at hbranching

/-- Of the branches of a fork, the path takes the one whose number it has. -/
theorem fork_taken (hist : History p s h) (hq : PathOf p s h q) {n : Nat} {c : Condition} {labels : List BranchLabel}
    {next : Nat} (hfork : .fork n c labels next ∈ h) {k : Nat} (hk : k < labels.length)
    (hmem : ((next + k : Nat) : Int) ∈ q.literals) : q.taken next labels.length = k := by
  obtain ⟨later, before, rfl, _, allowed⟩ := hist.exists_allowed hfork
  have hsingle := hq.of_append.single
  rw [log_cons, ScopeOp.singleFrom_append, ← nextVar_eq, ← allowed.2.2.2.2.2.2] at hsingle
  exact Condition.taken_eq hk fun i hi => ⟨fun hi' => hsingle.2.1 i hi k hk hi' hmem, fun hik => hik ▸ hmem⟩

/-- The arrows that a path follows out of one node leave the same pin. -/
theorem leaves_pin (hp : p.Consistent) (hist : History p s h) (hq : PathOf p s h q) {a b : Nat} {c d : Condition}
    (ha : a < p.arrows.length) (hb : b < p.arrows.length) (hla : Leaves p h a c) (hlb : Leaves p h b d)
    (hc : OnPath q c) (hd : OnPath q d) (hsource : (p.arrow a).source = (p.arrow b).source) :
    (p.arrow a).pin = (p.arrow b).pin := by
  have hpa := (hp.ends a ha).2.2
  have hpb := (hp.ends b hb).2.2
  rw [← hsource] at hpb
  cases hla with
  | pass hpass =>
    obtain ⟨pin, hpins⟩ := hist.pass_pins hpass
    rw [hpins, List.length_singleton] at hpa hpb
    omega
  | fork own labels next hfork hown =>
    cases hlb with
    | pass hpass =>
      rw [← hsource] at hpass
      cases hist.visit_unique hfork hpass rfl rfl
    | fork own' labels' next' hfork' hown' =>
      rw [← hsource] at hfork'
      cases hist.visit_unique hfork hfork' rfl rfl
      have hlen := ((hist.knows hp).branches _ _ _ _ hfork).1
      subst hown hown'
      have hka := Condition.holdsOn_literal.1 (Condition.holdsOn_and.1 hc).2
      have hkb := Condition.holdsOn_literal.1 (Condition.holdsOn_and.1 hd).2
      rw [← hist.fork_taken hq hfork (by omega) hka, ← hist.fork_taken hq hfork (by omega) hkb]

/-! ## Where a path ends -/

/-- Only a sink that holds on the path adds a result. -/
theorem result_mem_added {ev : WalkEvent} {e : Expr} (hmem : .definition (.result e) ∈ added p s q h ev) :
    ∃ n c, ev = .sink n c ∧ q.implies c = true ∧ added p s q h ev = [.definition (.result (.var (nodeVar n)))] := by
  have hunpack : ∀ n, .result e ∉ WalkEvent.unpackSteps p n := by
    intro n hmem
    unfold WalkEvent.unpackSteps at hmem
    split at hmem <;> simp at hmem
  cases hcond : q.implies ev.condition with
  | false =>
    rw [added_eq_nil hcond] at hmem
    cases hmem
  | true =>
    cases ev with
    | fork n c labels next =>
      rw [added_eq_choice (c := c) hcond] at hmem
      simp at hmem
    | sink n c => exact ⟨n, c, rfl, hcond, added_eq_steps hcond (by simp)⟩
    | root i =>
      rw [added_eq_steps hcond (by simp)] at hmem
      cases hparam : s.param <;> simp [WalkEvent.steps, hparam, hunpack] at hmem
    | _ =>
      rw [added_eq_steps hcond (by simp)] at hmem
      simp [WalkEvent.steps, WalkEvent.bindSteps, hunpack] at hmem

theorem not_result_mem (hopen : Unfinished q h) (e : Expr) :
    .definition (.result e) ∉ ScopeOp.passages q 1 (h.log p s) := by
  induction h with
  | nil => simp [ScopeOp.passages]
  | cons ev h ih =>
    have hopen' : Unfinished q h := fun n c hsink => hopen n c (List.mem_cons_of_mem ev hsink)
    rw [passages_cons hopen', List.mem_append]
    rintro (hmem | hmem)
    · exact ih hopen' hmem
    · obtain ⟨n, c, rfl, himp, _⟩ := result_mem_added hmem
      rw [hopen n c List.mem_cons_self] at himp
      cases himp

/-- The first result on a path is that of a sink, and what stands before it was added before. -/
theorem exists_sink {before after : Trail Step BranchLabel} {e : Expr}
    (heq : ScopeOp.passages q 1 (h.log p s) = before ++ .definition (.result e) :: after) :
    ∃ n c later early, h = later ++ .sink n c :: early ∧ Unfinished q early ∧ q.implies c = true ∧
      e = .var (nodeVar n) ∧ before = ScopeOp.passages q 1 (log p s early) := by
  induction h with
  | nil => simp [ScopeOp.passages] at heq
  | cons ev h ih =>
    by_cases hopen : Unfinished q h
    · have hmem : .definition (.result e) ∈ added p s q h ev := by
        have hall : .definition (.result e) ∈ ScopeOp.passages q 1 (log p s (ev :: h)) := by rw [heq]; simp
        rw [passages_cons hopen, List.mem_append] at hall
        exact hall.resolve_left (not_result_mem hopen e)
      obtain ⟨n, c, rfl, himp, hadded⟩ := result_mem_added hmem
      rw [passages_cons hopen, hadded] at heq
      obtain rfl : e = .var (nodeVar n) := by
        rw [hadded] at hmem
        simpa using hmem
      refine ⟨n, c, [], h, rfl, hopen, himp, rfl, ?_⟩
      -- nothing that was added before is a result
      rcases List.append_eq_append_iff.1 heq with ⟨mid, hbefore, hmid⟩ | ⟨mid, hbefore, hmid⟩
      · cases mid with
        | nil => rw [hbefore, List.append_nil]
        | cons first mid => simp at hmid
      · cases mid with
        | nil => rw [hbefore, List.append_nil]
        | cons first mid =>
          rw [List.cons_append, List.cons.injEq] at hmid
          exact absurd (by rw [hbefore, hmid.1]; simp) (not_result_mem (p := p) (s := s) hopen (.var (nodeVar n)))
    · obtain ⟨n, c, hsink, himp⟩ : ∃ n c, .sink n c ∈ h ∧ q.implies c = true := by
        simpa [Unfinished] using hopen
      rw [passages_cons_finished hsink himp] at heq
      obtain ⟨n, c, later, early, rfl, hrest⟩ := ih heq
      exact ⟨n, c, ev :: later, early, rfl, hrest⟩

end History

end Dataflow
