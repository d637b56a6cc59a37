import Dataflow.Proofs.Coverage

/-!
# Declared types and planned functions

The texts of a graph see a function by the type it is declared with: the last node of its name gives
the type of its argument, and the sinks that this node reaches give the type of its result. What a
call runs is the function of the first root of that name, and the type of its result is the type of
the sinks that its walk visited. `Program.plan_signature_iff` says when the two agree. They do if the
name stands for one root and no sink that it reaches lies behind a cycle.
-/

namespace Dataflow

/-! ## The graph as it is drawn -/

namespace Draft

variable {d : Draft} {p : Program}

/-- The connections of a graph are the arrows of its program. -/
theorem ReadsAs.connections (h : d.ReadsAs p) :
    d.connections = p.arrows.map fun a => ⟨a.source, a.target, a.pin, a.text⟩ := by
  obtain ⟨σ, find, h⟩ := h
  rw [ofDraft_eq] at h
  split at h
  · exact absurd h not_returns_throw
  · obtain ⟨types, htypes, h⟩ := h.of_bind
    have hsame := congrArg Draft.connections (readTyped_shows htypes.of_mapM.length_eq.symm h).2
    exact hsame.symm

/-- The program has an arrow where the graph has a connection. -/
theorem ReadsAs.mem_successors (h : d.ReadsAs p) {i j : Nat} : j ∈ d.successors i ↔ p.Edge i j := by
  have harrows : (∃ a ∈ p.arrows, a.source = i ∧ a.target = j) ↔
      ∃ a < p.arrows.length, (p.arrow a).source = i ∧ (p.arrow a).target = j := by
    constructor
    · rintro ⟨a, ha, hends⟩
      obtain ⟨k, hk, rfl⟩ := List.mem_iff_getElem.1 ha
      exact ⟨k, hk, by rwa [Program.arrow_of_lt hk]⟩
    · rintro ⟨k, hk, hends⟩
      rw [Program.arrow_of_lt hk] at hends
      exact ⟨_, List.getElem_mem hk, hends⟩
  rw [Program.edge_iff h.consistent, ← harrows, successors, outgoing, h.connections]
  simp [and_assoc]

theorem successors_bounds (d : Draft) : Bounds d.successors d.connections.length := by
  intro l hl
  have hmap : l.flatMap d.successors = (l.flatMap d.outgoing).map Connection.target := List.map_flatMap.symm
  rw [hmap, List.length_map]
  exact length_flatMap_filter_le Connection.source d.connections hl

/-- A node of the graph reaches what it reaches in the program. -/
theorem ReadsAs.mem_reach (h : d.ReadsAs p) {i n : Nat} :
    n ∈ reach d.successors d.connections.length [i] ↔ p.Reaches i n :=
  mem_reach_single d.successors_bounds fun _ _ => h.mem_successors

theorem types_getD (p : Program) {n : Nat} (hn : n < p.nodes.length) :
    (p.nodes.map Node.ty).getD n .unit = (p.node n).ty := by
  simp [List.getD_eq_getElem?_getD, hn, Program.node_of_lt hn]

/-- The types that decide what a function is declared to return: those of the sinks its node reaches. -/
theorem ReadsAs.mem_sinkTypes (h : d.ReadsAs p) {i : Nat} (hi : i < p.nodes.length) {t : Ty} :
    t ∈ d.sinkTypes (p.nodes.map Node.ty) i ↔
      ∃ n, p.Reaches i n ∧ (p.node n).isSink = true ∧ (p.node n).ty = t := by
  have hp := h.consistent
  have hsink : ∀ n, (d.successors n).isEmpty = true ↔ (p.node n).isSink = true := by
    intro n
    rw [Program.isSink_iff, List.isEmpty_iff, List.eq_nil_iff_forall_not_mem]
    simp only [h.mem_successors]
  simp only [sinkTypes, List.mem_map, List.mem_filter, h.mem_reach, hsink, and_assoc]
  refine exists_congr fun n => and_congr_right fun hreach => ?_
  rw [types_getD p (Program.reaches_lt hp hi hreach)]

/-- If the sinks have one type, it is the declared one. -/
theorem returnType_eq {types : List Ty} {i : Nat} {t : Ty} (hsome : t ∈ d.sinkTypes types i)
    (hall : ∀ u ∈ d.sinkTypes types i, u = t) : d.returnType types i = t := by
  unfold returnType
  cases hsinks : d.sinkTypes types i with
  | nil =>
    rw [hsinks] at hsome
    cases hsome
  | cons u rest =>
    rw [hsinks] at hall
    obtain rfl := hall u List.mem_cons_self
    have hrest : rest.all (fun v => v = u) = true := by
      rw [List.all_eq_true]
      exact fun v hv => by simpa using hall v (List.mem_cons_of_mem _ hv)
    simp only [hrest, if_true]

end Draft

/-! ## The sinks that are visited -/

section
variable {p : Program} {s : Seed} {f : FunctionPlan} {h : Events}

namespace History

open Events

/-- Only what the roots reach is visited. -/
theorem visited_reached (hp : p.Consistent) (hist : History p s h) {n : Nat} (hn : n ∈ h.visited) :
    ∃ i ∈ s.roots, p.Reaches i n := by
  induction hist generalizing n with
  | start => cases hn
  | @step e h before allowed ih =>
    obtain ⟨e', he', c, hvisit⟩ := mem_visited.1 hn
    rcases List.mem_cons.1 he' with rfl | he'
    · have harrow : ∀ a ∈ (p.node n).incoming, AllIn p h n → ∃ i ∈ s.roots, p.Reaches i n := by
        intro a ha hall
        obtain ⟨halt, htarget⟩ := (mem_incoming hp).1 ha
        obtain ⟨x, hx, rfl⟩ := List.mem_map.1 (hall a halt htarget)
        obtain ⟨i, hi, hreach⟩ := ih (leaves_visited (before.followed_leaves hx).2)
        exact ⟨i, hi, hreach.trans (Program.reaches_of_incoming hp ha)⟩
      cases (visit_allowed hvisit allowed).1 with
      | root hroot _ =>
        obtain ⟨_, _, _, _, hstart⟩ := before.exists_allowed hroot
        exact ⟨n, hstart.1, .refl⟩
      | met items hmeet =>
        obtain ⟨a, ha, _⟩ := met_positional hp before (meet_met hp before hmeet)
        exact harrow a ha (meet_allIn hp before hmeet)
      | joined hjoin =>
        obtain ⟨a, ha⟩ := List.exists_mem_of_ne_nil _ hjoin.entered
        exact harrow a ha (allIn_of_length hp before hjoin.all)
    · exact ih (mem_visited.2 ⟨e', he', c, hvisit⟩)

/-- A sink that is visited gives the result. -/
theorem sink_iff (hist : History p s h) {n : Nat} :
    (∃ c, .sink n c ∈ h) ↔ n ∈ h.visited ∧ (p.node n).isSink = true := by
  constructor
  · rintro ⟨c, hsink⟩
    obtain ⟨_, _, _, _, hallowed⟩ := hist.exists_allowed hsink
    exact ⟨mem_visited.2 ⟨_, hsink, c, rfl⟩, hallowed.2.2.1⟩
  · rintro ⟨hn, hsink⟩
    obtain ⟨e, he, c, hvisit⟩ := mem_visited.1 hn
    obtain ⟨_, _, _, _, hallowed⟩ := hist.exists_allowed he
    cases e <;> simp only [WalkEvent.visit?, reduceCtorEq, Option.some.injEq, Prod.mk.injEq] at hvisit
    · obtain ⟨rfl, rfl⟩ := hvisit
      rw [hallowed.2.2.1] at hsink
      cases hsink
    · obtain ⟨rfl, rfl⟩ := hvisit
      rw [hallowed.2.2.1] at hsink
      cases hsink
    · obtain ⟨rfl, rfl⟩ := hvisit
      exact ⟨_, he⟩

end History

/-- A body that is complete has a leaf. -/
theorem Body.exists_leaf : ∀ b : Body, (∀ c ∈ b.blocks, Body.IsLeaf c ∨ Body.IsFork c) →
    ∃ c ∈ b.blocks, Body.IsLeaf c
  | .mk steps [], h => by
    have hself : (.mk steps [] : Body) ∈ Block.blocks (.mk steps []) := by simp [Block.blocks]
    refine ⟨_, hself, (h _ hself).resolve_right fun hfork => ?_⟩
    have hseveral := hfork.exhausts.several
    simp [Block.branches] at hseveral
  | .mk steps ((l, b) :: rest), h => by
    obtain ⟨c, hc, hleaf⟩ := exists_leaf b fun c hc => h c (by simp [Block.blocks, Block.branchBlocks, hc])
    exact ⟨c, by simp [Block.blocks, Block.branchBlocks, hc], hleaf⟩

/-- A planned function has visited a sink. -/
theorem Planned.exists_sink (hp : p.Consistent) (hf : Planned p s f h) : ∃ n c, .sink n c ∈ h := by
  obtain ⟨hopen, hbody⟩ := ScopeBuilder.extract_ok hf.body
  obtain ⟨b, hb, _, hall⟩ := hf.history.grown.toBlock hopen
  rw [hbody] at hb
  cases hb
  obtain ⟨c, hc, hleaf⟩ := Body.exists_leaf f.body hall
  obtain ⟨before, e, hsteps, _⟩ := hleaf.concludes
  obtain ⟨ev, hev, hstep⟩ := hf.mem_steps hp hc (d := .result e) (by rw [hsteps]; simp)
  by_contra hnone
  have hunfinished := WalkEvent.steps_unfinished (p := p) (s := s) (e := ev) fun n c heq => hnone ⟨n, c, heq ▸ hev⟩
  cases hunfinished _ hstep

/-- The result type of a function is the one type of the sinks that no cycle leads to. -/
theorem Planned.resultType_iff (hp : p.Consistent) (hf : Planned p s f h) (hdone : Exhausted p s h) {seeds : List Seed}
    (hseeds : p.seeds = .ok seeds) (hs : s ∈ seeds) {i : Nat} (hi : s.roots = [i]) {t : Ty} :
    f.resultType = t ↔
      ∀ n, p.Reaches i n → (p.node n).isSink = true → ¬ p.BehindCycle n → (p.node n).ty = t := by
  have his : i ∈ s.roots := by simp [hi]
  constructor
  · rintro rfl n hreach hsink hfree
    have hvisited := (hdone.visited_iff hp hf.history hseeds hs his hreach .refl).2 hfree
    obtain ⟨c, hmem⟩ := hf.history.sink_iff.2 ⟨hvisited, hsink⟩
    exact hf.result n c hmem
  · intro hall
    obtain ⟨n, c, hmem⟩ := hf.exists_sink hp
    obtain ⟨hvisited, hsink⟩ := hf.history.sink_iff.1 ⟨c, hmem⟩
    obtain ⟨j, hj, hreach⟩ := hf.history.visited_reached hp hvisited
    obtain rfl : j = i := by simpa [hi] using hj
    rw [← hf.result n c hmem]
    exact hall n hreach hsink ((hdone.visited_iff hp hf.history hseeds hs his hreach .refl).1 hvisited)

end

/-! ## Callers and callees -/

namespace Program

variable {d : Draft} {p : Program}

/-- **When callers are typed against the function that runs.** A name that is declared to the texts of
a graph calls a function of the plan, which starts at the first root of that name. The function has the
declared types if and only if that root has the declared argument type and the sinks that it reaches,
save those behind a cycle, have the declared result type. This is so if no other root has the name and
no sink that the root reaches lies behind a cycle. -/
theorem plan_signature_iff (hread : d.ReadsAs p) {plan : ProgramPlan} (hplan : p.plan = .ok plan)
    {name : String} {own ret : Ty}
    (hdeclared : (d.functions (p.nodes.map Node.ty)).find? name = some ⟨.function, .func own ret⟩) :
    ∃ f i, plan.function? name = some f ∧ plan.callee? name = some f ∧ p.rootNamed? name = some i ∧
      (f.paramType = own ∧ f.resultType = ret ↔
        (p.node i).ty = own ∧
          ∀ n, p.Reaches i n → (p.node n).isSink = true → ¬ p.BehindCycle n → (p.node n).ty = ret) ∧
      ((∀ j ∈ p.roots, (p.node j).name = some name → j = i) →
        (∀ n, p.Reaches i n → (p.node n).isSink = true → ¬ p.BehindCycle n) →
          f.paramType = own ∧ f.resultType = ret) := by
  have hp := hread.consistent
  obtain ⟨j, node, hnode, hname, hfree, hsymbol⟩ := Draft.functions_find? hdeclared
  obtain ⟨hroot, hnamed⟩ := hread.root hnode hfree
  rw [hname] at hnamed
  obtain ⟨i, hi⟩ := exists_rootNamed? hroot hnamed
  obtain ⟨seeds, f, hseeds, hs, hplanFunction, hfind⟩ := plan_function? hplan hi
  obtain ⟨h, hf, hdone⟩ := planFunction_exhausted hp hseeds hs hplanFunction
  have hparam : f.paramType = (p.node i).ty := hf.paramType
  have hresult : ∀ {t : Ty}, f.resultType = t ↔
      ∀ n, p.Reaches i n → (p.node n).isSink = true → ¬ p.BehindCycle n → (p.node n).ty = t :=
    hf.resultType_iff hp hdone hseeds hs rfl
  refine ⟨f, i, hfind, callee?_of_planFunction hplanFunction hfind, hi, by rw [hparam, hresult], fun hone hopen => ?_⟩
  -- the declared node is the first root of its name, and every sink it reaches was visited
  obtain rfl := hone j hroot hnamed
  have hj := (mem_roots.1 hroot).1
  have hall : ∀ n, p.Reaches j n → (p.node n).isSink = true → (p.node n).ty = f.resultType := fun n hreach hsink =>
    hresult.1 rfl n hreach hsink (hopen n hreach hsink)
  have hreturn : d.returnType (p.nodes.map Node.ty) j = f.resultType := by
    refine Draft.returnType_eq ((hread.mem_sinkTypes hj).2 ?_) fun u hu => ?_
    · obtain ⟨n, c, hmem⟩ := hf.exists_sink hp
      obtain ⟨hvisited, hsink⟩ := hf.history.sink_iff.1 ⟨c, hmem⟩
      obtain ⟨k, hk, hreach⟩ := hf.history.visited_reached hp hvisited
      obtain rfl := List.mem_singleton.1 hk
      exact ⟨n, hreach, hsink, hf.result n c hmem⟩
    · obtain ⟨n, hreach, hsink, rfl⟩ := (hread.mem_sinkTypes hj).1 hu
      exact hall n hreach hsink
  rw [Draft.types_getD p hj, hreturn] at hsymbol
  cases hsymbol
  exact ⟨hparam, rfl⟩

theorem plan_signature_iff_doubling : ∃ p plan, Draft.doubling.ReadsAs p ∧ p.plan = .ok plan ∧
    (Draft.doubling.functions (p.nodes.map Node.ty)).find? "double" = some ⟨.function, .func .int .int⟩ ∧
    ∃ f i, plan.function? "double" = some f ∧ plan.callee? "double" = some f ∧ p.rootNamed? "double" = some i ∧
      (f.paramType = .int ∧ f.resultType = .int ↔
        (p.node i).ty = .int ∧
          ∀ n, p.Reaches i n → (p.node n).isSink = true → ¬ p.BehindCycle n → (p.node n).ty = .int) ∧
      ((∀ j ∈ p.roots, (p.node j).name = some "double" → j = i) →
        (∀ n, p.Reaches i n → (p.node n).isSink = true → ¬ p.BehindCycle n) →
          f.paramType = .int ∧ f.resultType = .int) := by
  obtain ⟨p, plan, hread, hplan, hdeclared⟩ := Draft.doubling.exists_planned (fun p _ =>
    (Draft.doubling.functions (p.nodes.map Node.ty)).find? "double" = some ⟨.function, .func .int .int⟩)
    (by decide +kernel)
  have hdeclared := of_decide_eq_true hdeclared
  exact ⟨p, plan, hread, hplan, hdeclared, plan_signature_iff hread hplan hdeclared⟩

end Program

/-- The texts take the name for a function of other types than the one that it calls. -/
def Draft.Misdeclares (d : Draft) (name : String) : Prop :=
  ∃ p plan own ret f, d.readWith .prelude = .ok p ∧ p.plan = .ok plan ∧
    (d.functions (p.nodes.map Node.ty)).find? name = some ⟨.function, .func own ret⟩ ∧
    plan.function? name = some f ∧ ¬ (f.paramType = own ∧ f.resultType = ret)

theorem Draft.misdeclares_of_check {d : Draft} {name : String} (own ret : Ty) (h : d.planned?.any (fun x =>
    (d.functions (x.1.nodes.map Node.ty)).find? name = some ⟨.function, .func own ret⟩ ∧
      (x.2.function? name).any fun f => ¬ (f.paramType = own ∧ f.resultType = ret)) = true) : d.Misdeclares name := by
  obtain ⟨p, plan, hread, hplan, hcheck⟩ := exists_readWith h
  obtain ⟨hdeclared, hother⟩ := of_decide_eq_true hcheck
  obtain ⟨f, hf, hne⟩ := (Option.any_eq_true _ _).1 hother
  exact ⟨p, plan, own, ret, f, hread, hplan, hdeclared, hf, of_decide_eq_true hne⟩

/-- Two roots of one name, and a sink behind a cycle, part callers from what they call. -/
theorem Program.plan_signature_differs : Draft.namesakes.Misdeclares "f" ∧ Draft.behindCycle.Misdeclares "f" :=
  ⟨Draft.misdeclares_of_check .int .bool (by decide +kernel),
    -- the sinks that `f` reaches have two types, so its result is declared to be a variable
    Draft.misdeclares_of_check .int (.var "r0") (by decide +kernel)⟩

end Dataflow
