import Dataflow.Proofs.Exhaustive
import Dataflow.Proofs.Join
import Dataflow.Proofs.Soundness
import Mathlib.Data.Fintype.Card
import Mathlib.Order.Interval.Finset.Nat

/-!
# What a plan covers

A walk visits the nodes of its function that no cycle leads to, and no others
(`Exhausted.visited_iff`). So which nodes the body of a planned function binds can be read off the
graph (`Program.plan_binds_iff`): a node that a cycle leads to is bound only if it is no intersection
and one of the arrows into it comes from a node that no cycle leads to. Such a plan is not always
refused, for the scopes that are left behind may be closed by a sink elsewhere.
-/

namespace Dataflow

/-! ## Nodes behind cycles -/

namespace Program

variable {p : Program}

/-- A cycle leads to the node. -/
def BehindCycle (p : Program) (n : Nat) : Prop := ∃ m, Relation.TransGen p.Edge m m ∧ p.Reaches m n

/-- There are ways back from a node for ever if and only if a cycle leads to it. -/
theorem acc_iff_not_behindCycle (hp : p.Consistent) {n : Nat} : Acc p.Edge n ↔ ¬ p.BehindCycle n := by
  constructor
  · rintro hacc ⟨m, hcycle, hway⟩
    have hm : Acc p.Edge m := by
      induction hway with
      | refl => exact hacc
      | tail _ hedge ih => exact ih (hacc.inv hedge)
    induction hm with
    | intro m _ ih =>
      -- the cycle leads through a node before, which is on it too
      obtain ⟨k, hway, hedge⟩ := Relation.TransGen.tail'_iff.1 hcycle
      exact ih k hedge (Relation.TransGen.head' hedge hway) (.head hedge ‹_›)
  · intro hfree
    have hfinite : Set.Finite { m | p.Reaches m n } := by
      refine (Set.finite_lt_nat (max p.nodes.length (n + 1))).subset fun m hm => ?_
      rcases Relation.ReflTransGen.cases_head hm with rfl | ⟨k, hedge, _⟩
      · exact lt_max_of_lt_right (Nat.lt_succ_self m)
      · obtain ⟨a, ha, rfl, _⟩ := (edge_iff hp).1 hedge
        exact lt_max_of_lt_left (hp.ends a ha).1
    have : Finite { m // p.Reaches m n } := hfinite
    have hwf : WellFounded fun x y : { m // p.Reaches m n } => Relation.TransGen p.Edge x.1 y.1 := by
      have : IsTrans _ fun x y : { m // p.Reaches m n } => Relation.TransGen p.Edge x.1 y.1 :=
        ⟨fun _ _ _ => Relation.TransGen.trans⟩
      have : Std.Irrefl fun x y : { m // p.Reaches m n } => Relation.TransGen p.Edge x.1 y.1 :=
        ⟨fun x hx => hfree ⟨x.1, hx, x.2⟩⟩
      exact Finite.wellFounded_of_trans_of_irrefl _
    have hall : ∀ x : { m // p.Reaches m n }, Acc p.Edge x.1 := by
      intro x
      induction x using hwf.induction with
      | _ x ih => exact ⟨_, fun m hm => ih ⟨m, .head hm x.2⟩ (.single hm)⟩
    exact hall ⟨n, .refl⟩

theorem reaches_lt (hp : p.Consistent) {i n : Nat} (hi : i < p.nodes.length) (hreach : p.Reaches i n) :
    n < p.nodes.length := by
  rcases Relation.ReflTransGen.cases_tail hreach with rfl | ⟨k, _, hedge⟩
  · exact hi
  · obtain ⟨a, ha, _, rfl⟩ := (edge_iff hp).1 hedge
    exact (hp.ends a ha).2.1

end Program

/-! ## The nodes that are visited -/

namespace History

open Events

variable {p : Program} {s : Seed} {h : Events}

/-- Before a node was visited, so were the nodes that lead to it. -/
theorem visited_acc (hp : p.Consistent) (hentered : ∀ i ∈ s.roots, (p.node i).incoming = []) (hist : History p s h)
    {n : Nat} (hn : n ∈ h.visited) : Acc p.Edge n := by
  induction hist generalizing n with
  | start => cases hn
  | @step e h before allowed ih =>
    obtain ⟨e', he', c, hvisit⟩ := mem_visited.1 hn
    rcases List.mem_cons.1 he' with rfl | he'
    · refine ⟨n, fun m hm => ?_⟩
      obtain ⟨a, ha, rfl, htarget⟩ := (Program.edge_iff hp).1 hm
      have hall := ready_allIn hp hentered before (visit_allowed hvisit allowed).1
      obtain ⟨x, hx, rfl⟩ := List.mem_map.1 (hall a ha htarget)
      exact ih (leaves_visited (before.followed_leaves hx).2)
    · exact ih (mem_visited.2 ⟨e', he', c, hvisit⟩)

end History

namespace Exhausted

open Events

variable {p : Program} {s : Seed} {h : Events}

/-- A node is visited if the ways to it start at the roots of the function. -/
theorem visited_of_acc (hp : p.Consistent) (hdone : Exhausted p s h) {n : Nat} (hacc : Acc p.Edge n)
    (hn : n < p.nodes.length) (honly : ∀ i ∈ p.roots, p.Reaches i n → i ∈ s.roots) : n ∈ h.visited := by
  induction hacc with
  | intro n _ ih =>
    by_cases hincoming : (p.node n).incoming = []
    · exact hdone.roots n (honly n (Program.mem_roots.2 ⟨hn, hincoming⟩) .refl)
    · refine hdone.full n hincoming fun a ha htarget => hdone.left a ha ?_
      have hedge : p.Edge (p.arrow a).source n := (Program.edge_iff hp).2 ⟨a, ha, rfl, htarget⟩
      exact ih _ hedge (hp.ends a ha).1 fun i hi hreach => honly i hi (hreach.tail hedge)

/-- **A walk visits the nodes that no cycle leads to.** The nodes in question are those that lead to a
node of the function. -/
theorem visited_iff (hp : p.Consistent) (hdone : Exhausted p s h) (hist : History p s h) {seeds : List Seed}
    (hseeds : p.seeds = .ok seeds) (hs : s ∈ seeds) {i m n : Nat} (hi : i ∈ s.roots) (hin : p.Reaches i n)
    (hmn : p.Reaches m n) : m ∈ h.visited ↔ ¬ p.BehindCycle m := by
  have hroots := Program.seed_roots hseeds hs
  have hm : m < p.nodes.length := by
    rcases Relation.ReflTransGen.cases_head hmn with rfl | ⟨k, hedge, _⟩
    · exact Program.reaches_lt hp (Program.mem_roots.1 (hroots i hi)).1 hin
    · obtain ⟨a, ha, rfl, _⟩ := (Program.edge_iff hp).1 hedge
      exact (hp.ends a ha).1
  rw [← Program.acc_iff_not_behindCycle hp]
  constructor
  · exact hist.visited_acc hp fun j hj => (Program.mem_roots.1 (hroots j hj)).2
  · intro hacc
    refine hdone.visited_of_acc hp hacc hm fun j hj hjm => ?_
    obtain ⟨t, ht, hjt⟩ := Program.exists_seed hseeds hj
    rwa [Program.seeds_apart hp hseeds hs ht hi hjt hin (hjm.trans hmn)]

end Exhausted

/-! ## What stays in the body -/

namespace ScopeTree

mutual

/-- Among scopes in shape, an open one is a leaf. -/
theorem Grown.exists_open {q : Condition → Bool} : ∀ {t : ScopeTree Step BranchLabel}, Grown t → count q t ≠ 0 →
    ∃ leaf ∈ t.leaves, leaf.isOpen = true ∧ q leaf.condition = true
  | .mk c steps isOpen children, h, hcount => by
    obtain ⟨hshape, hchildren⟩ := h
    cases isOpen with
    | true =>
      obtain rfl : children = [] := by simpa using hshape.1
      have hq : q c = true := by
        by_contra hq
        simp [count, countList, hq] at hcount
      exact ⟨⟨c, true, steps.map .definition⟩, by simp [leaves], rfl, hq⟩
    | false =>
      have hrest : countList q children ≠ 0 := by simpa [count] using hcount
      obtain ⟨leaf, hleaf, hopen, hq⟩ := GrownList.exists_open hchildren hrest (children.map (·.1)) 0
      refine ⟨leaf.behind (steps.map .definition), ?_, hopen, hq⟩
      have hne : children.isEmpty = false := by
        cases children with
        | nil => simp [countList] at hrest
        | cons _ _ => rfl
      simp only [leaves, hne, Bool.or_false, Bool.false_eq_true, if_false]
      exact List.mem_map_of_mem hleaf

theorem GrownList.exists_open {q : Condition → Bool} : ∀ {ts : List (BranchLabel × ScopeTree Step BranchLabel)},
    GrownList ts → countList q ts ≠ 0 → ∀ (labels : List BranchLabel) (k : Nat),
      ∃ leaf ∈ childLeaves labels k ts, leaf.isOpen = true ∧ q leaf.condition = true
  | [], _, hcount, _, _ => by simp [countList] at hcount
  | (l, t) :: rest, h, hcount, labels, k => by
    simp only [childLeaves, List.mem_append]
    by_cases ht : count q t = 0
    · have hrest : countList q rest ≠ 0 := by
        rw [countList, ht] at hcount
        omega
      obtain ⟨leaf, hleaf, hopen⟩ := GrownList.exists_open h.2 hrest labels (k + 1)
      exact ⟨leaf, Or.inr hleaf, hopen⟩
    · obtain ⟨leaf, hleaf, hopen⟩ := Grown.exists_open h.1 ht
      exact ⟨leaf.behind [.choice labels k], Or.inl (List.mem_map_of_mem hleaf), hopen⟩

end

end ScopeTree

namespace ScopeBuilder

variable {δ ℓ : Type} {b : ScopeBuilder δ ℓ} {leaf : ScopeTree.Leaf δ ℓ}

/-- What stands on the way to a leaf stays on the way to some leaf. -/
theorem step_keeps {op : ScopeOp δ ℓ} (hop : op.Legal b.nextVar) (hleaf : leaf ∈ b.tree.leaves) :
    ∃ grown ∈ (b.step op).tree.leaves, leaf.trail <+: grown.trail := by
  rw [step_leaves b hop]
  by_cases hchange : (leaf.isOpen && leaf.condition.implies op.condition) = true
  · obtain ⟨last, hlast⟩ : ∃ last, last ∈ op.growth b.nextVar leaf.condition := by
      cases op with
      | define c d => exact ⟨_, List.mem_singleton_self _⟩
      | close c => exact ⟨_, List.mem_singleton_self _⟩
      | fork c labels =>
        obtain ⟨label, rest, rfl⟩ := List.exists_cons_of_ne_nil hop.2
        exact ⟨_, List.mem_map_of_mem (List.mem_cons_self ..)⟩
    refine ⟨last.behind leaf.trail, List.mem_flatMap.2 ⟨leaf, hleaf, ?_⟩, List.prefix_append _ _⟩
    rw [ScopeTree.Leaf.change, if_pos hchange]
    exact List.mem_map_of_mem hlast
  · refine ⟨leaf, List.mem_flatMap.2 ⟨leaf, hleaf, ?_⟩, List.prefix_refl _⟩
    rw [ScopeTree.Leaf.change, if_neg hchange]
    exact List.mem_singleton_self leaf

/-- An open leaf that receives a definition has it on its way. -/
theorem define_leaf {c : Condition} {d : δ} (hop : ScopeOp.Legal b.nextVar (.define c d : ScopeOp δ ℓ))
    (hleaf : leaf ∈ b.tree.leaves) (hopen : leaf.isOpen = true) (himp : leaf.condition.implies c = true) :
    ⟨leaf.condition, true, leaf.trail ++ [.definition d]⟩ ∈ (b.step (.define c d)).tree.leaves := by
  rw [step_leaves b hop]
  refine List.mem_flatMap.2 ⟨leaf, hleaf, ?_⟩
  have hchange : (leaf.isOpen && leaf.condition.implies c) = true := by rw [hopen, himp]; rfl
  simp [ScopeTree.Leaf.change, ScopeOp.condition, hchange, ScopeOp.growth, ScopeTree.Leaf.behind]

theorem run_keeps : ∀ {ops : List (ScopeOp δ ℓ)} {b : ScopeBuilder δ ℓ} {leaf : ScopeTree.Leaf δ ℓ},
    ScopeOp.LegalFrom b.nextVar ops → leaf ∈ b.tree.leaves →
      ∃ grown ∈ (b.run ops).tree.leaves, leaf.trail <+: grown.trail
  | [], b, leaf, _, hleaf => ⟨leaf, hleaf, List.prefix_refl _⟩
  | op :: ops, b, leaf, hlegal, hleaf => by
    obtain ⟨next, hnext, hfirst⟩ := step_keeps hlegal.1 hleaf
    have hrest : ScopeOp.LegalFrom (b.step op).nextVar ops := by
      rw [step_nextVar]
      exact hlegal.2
    obtain ⟨grown, hgrown, hlater⟩ := run_keeps hrest hnext
    exact ⟨grown, hgrown, hfirst.trans hlater⟩

end ScopeBuilder

namespace Block

variable {δ ℓ : Type}

mutual

/-- What a path meets is defined in a block. -/
theorem mem_blocks_of_trail : ∀ {b : Block δ ℓ} {τ : Trail δ ℓ}, τ ∈ b.trails → ∀ {d : δ}, d ∈ τ.definitions →
    ∃ c ∈ b.blocks, d ∈ c.definitions
  | .mk ds branches, τ, hτ, d, hd => by
    have hhere : ∀ {σ : Trail δ ℓ}, d ∈ Trail.definitions (ds.map Passage.definition ++ σ) →
        d ∈ ds ∨ d ∈ σ.definitions := by
      intro σ hmem
      rw [Trail.definitions_append, List.mem_append] at hmem
      exact hmem.imp_left fun hmem => by simpa [Trail.definitions, Passage.definition?] using hmem
    have hown : d ∈ ds → ∃ c ∈ blocks (.mk ds branches), d ∈ c.definitions := fun hmem =>
      ⟨.mk ds branches, by simp [blocks], hmem⟩
    unfold trails at hτ
    split at hτ
    · rw [List.mem_singleton.1 hτ, ← List.append_nil (ds.map _)] at hd
      exact hown ((hhere hd).resolve_right (by simp [Trail.definitions]))
    · obtain ⟨σ, hσ, rfl⟩ := List.mem_map.1 hτ
      rcases hhere hd with hd | hd
      · exact hown hd
      · obtain ⟨c, hc, hmem⟩ := mem_blocks_of_branchTrail hσ hd
        exact ⟨c, by simp [blocks, hc], hmem⟩

theorem mem_blocks_of_branchTrail {labels : List ℓ} : ∀ {branches : List (ℓ × Block δ ℓ)} {k : Nat} {τ : Trail δ ℓ},
    τ ∈ branchTrails labels k branches → ∀ {d : δ}, d ∈ τ.definitions → ∃ c ∈ branchBlocks branches, d ∈ c.definitions
  | (l, b) :: rest, k, τ, hτ, d, hd => by
    simp only [branchTrails, List.mem_append] at hτ
    simp only [branchBlocks, List.mem_append]
    rcases hτ with hτ | hτ
    · obtain ⟨σ, hσ, rfl⟩ := List.mem_map.1 hτ
      obtain ⟨c, hc, hmem⟩ := mem_blocks_of_trail hσ (d := d) (by simpa [Trail.definitions, Passage.definition?] using hd)
      exact ⟨c, Or.inl hc, hmem⟩
    · obtain ⟨c, hc, hmem⟩ := mem_blocks_of_branchTrail hτ hd
      exact ⟨c, Or.inr hc, hmem⟩

end

end Block

section
variable {p : Program} {s : Seed} {f : FunctionPlan} {h : Events}

/-- What an event defines where a scope receives it stands in the body. -/
theorem Planned.mem_blocks (hp : p.Consistent) (hf : Planned p s f h) {later before : Events} {e : WalkEvent}
    (heq : h = later ++ e :: before) {c : Condition} {d : Step} {rest : List PlanOp}
    (hops : e.ops p s = .define c d :: rest) (hreceiving : (before.scopes p s).receiving c ≠ 0) :
    ∃ b ∈ f.body.blocks, d ∈ b.definitions := by
  subst heq
  have hlog : Events.log p s (later ++ e :: before) = before.log p s ++ .define c d :: (rest ++ Events.log p s later) := by
    rw [Events.log_append, Events.log_cons, hops, List.append_assoc, List.cons_append]
  have hlegal := hf.history.log_legal hp
  rw [hlog, ScopeOp.legalFrom_append] at hlegal
  have hnext : (before.scopes p s).nextVar = 1 + ScopeOp.widths (before.log p s) := History.nextVar_eq
  rw [← hnext] at hlegal
  have hbefore : History p s before := by
    cases hf.history.of_append with
    | step hbefore _ => exact hbefore
  obtain ⟨leaf, hleaf, hopen, himp⟩ := hbefore.grown.exists_open hreceiving
  -- the leaf grows by the definition, and from then on it is on the way to some leaf
  have hfirst := ScopeBuilder.define_leaf hlegal.2.1 hleaf hopen himp
  have hrest : ScopeOp.LegalFrom ((before.scopes p s).step (.define c d)).nextVar (rest ++ Events.log p s later) := by
    rw [ScopeBuilder.step_nextVar]
    exact hlegal.2.2
  obtain ⟨last, hlast, hkept⟩ := ScopeBuilder.run_keeps hrest hfirst
  have hmem : last.trail ∈ f.body.trails := by
    rw [hf.trails]
    refine List.mem_map_of_mem ?_
    rw [Events.scopes, hlog, ScopeBuilder.run_append]
    exact hlast
  refine Block.mem_blocks_of_trail hmem (List.Sublist.subset (hkept.sublist.filterMap _) ?_)
  simp [Passage.definition?]

/-- A step of the body binds the node. -/
def Body.Binds (b : Body) (n : Nat) : Prop := ∃ c ∈ b.blocks, ∃ d ∈ c.definitions, Step.bindsNode n d = true

instance (b : Body) (n : Nat) : Decidable (b.Binds n) :=
  inferInstanceAs (Decidable (∃ c ∈ b.blocks, ∃ d ∈ c.definitions, Step.bindsNode n d = true))

/-- The nodes that a body binds, its roots apart, are those to which arrows were followed and the
intersections that were built. -/
theorem Planned.binds_iff (hp : p.Consistent) (hf : Planned p s f h) {n : Nat} (hn : n ∉ s.roots) :
    f.body.Binds n ↔
      (∃ a c e, .bring a c e ∈ h ∧ (p.arrow a).target = n) ∨ ∃ c items, .meet n c items ∈ h := by
  constructor
  · rintro ⟨b, hb, d, hd, hbinds⟩
    obtain ⟨e, he, hstep⟩ := hf.mem_steps hp hb hd
    have hbound : e.bound? p s = some n := by
      have hcount := WalkEvent.countP_steps (p := p) (s := s) (n := n) e
      have hpos := List.countP_pos_iff.2 ⟨d, hstep, hbinds⟩
      by_contra hne
      rw [if_neg hne] at hcount
      omega
    have hnode := WalkEvent.node?_of_bound? hbound
    cases e <;> simp only [WalkEvent.node?, reduceCtorEq, Option.some.injEq] at hnode
    · obtain ⟨_, _, _, _, hallowed⟩ := hf.history.exists_allowed he
      exact absurd (hnode ▸ hallowed.1) hn
    · exact Or.inl ⟨_, _, _, he, hnode⟩
    · exact Or.inr ⟨_, _, hnode ▸ he⟩
  · rintro (⟨a, c, e, hbring, rfl⟩ | ⟨c, items, hmeet⟩)
    · obtain ⟨later, before, heq, _, hallowed⟩ := hf.history.exists_allowed hbring
      obtain ⟨b, hb, hmem⟩ := hf.mem_blocks hp heq (by rfl) hallowed.2.2.2.2.2.1
      exact ⟨b, hb, _, hmem, decide_eq_true rfl⟩
    · obtain ⟨later, before, heq, _, hallowed⟩ := hf.history.exists_allowed hmeet
      obtain ⟨b, hb, hmem⟩ := hf.mem_blocks hp heq (by rfl) hallowed.2.2.2
      exact ⟨b, hb, _, hmem, decide_eq_true rfl⟩

/-! ## The nodes that are bound -/

namespace Exhausted

open Events History

/-- An arrow that is not positional is followed if its source was visited. -/
theorem bring_iff (hdone : Exhausted p s h) (hist : History p s h) {a : Nat} (ha : a < p.arrows.length) :
    (∃ c e, .bring a c e ∈ h) ↔ (p.arrow a).isPositional = false ∧ (p.arrow a).source ∈ h.visited := by
  constructor
  · rintro ⟨c, e, hbring⟩
    obtain ⟨_, _, _, _, hallowed⟩ := hist.exists_allowed hbring
    exact ⟨hallowed.2.2.2.1, leaves_visited (hist.followed_leaves (mem_followed.2 ⟨_, hbring, rfl⟩)).2⟩
  · rintro ⟨hplain, hsource⟩
    obtain ⟨⟨b, c⟩, hx, rfl⟩ := List.mem_map.1 (hdone.left a ha hsource)
    obtain ⟨e, he, harrow⟩ := mem_followed.1 hx
    cases e <;> simp only [WalkEvent.arrow?, reduceCtorEq, Option.some.injEq, Prod.mk.injEq] at harrow
    · obtain ⟨rfl, rfl⟩ := harrow
      exact ⟨_, _, he⟩
    · obtain ⟨rfl, rfl⟩ := harrow
      rw [hist.feed_positional he] at hplain
      cases hplain

/-- An intersection is built if it was visited. -/
theorem meet_iff (hp : p.Consistent) (hdone : Exhausted p s h) (hist : History p s h) {n : Nat} (hn : n ∉ s.roots) :
    (∃ c items, .meet n c items ∈ h) ↔
      (∃ a ∈ (p.node n).incoming, (p.arrow a).isPositional = true) ∧ n ∈ h.visited := by
  constructor
  · rintro ⟨c, items, hmeet⟩
    obtain ⟨a, ha, hpositional⟩ := met_positional hp hist (meet_met hp hist hmeet)
    exact ⟨⟨a, ha, hpositional⟩, hdone.full n (List.ne_nil_of_mem ha) (meet_allIn hp hist hmeet)⟩
  · rintro ⟨⟨a, ha, hpositional⟩, hvisited⟩
    obtain ⟨e, he, c, hvisit⟩ := mem_visited.1 hvisited
    obtain ⟨later, before, rfl, hbefore, hallowed⟩ := hist.exists_allowed he
    cases (visit_allowed hvisit hallowed).1 with
    | root hroot _ =>
      obtain ⟨_, _, _, _, hstart⟩ := hbefore.exists_allowed hroot
      exact absurd hstart.1 hn
    | met items hmeet => exact ⟨c, items, by simp [hmeet]⟩
    | joined hjoin =>
      obtain ⟨x, hx, rfl⟩ := List.mem_map.1 ((arrivals_perm hp hbefore hjoin.all).mem_iff.2 ha)
      rw [hjoin.plain x hx] at hpositional
      cases hpositional

end Exhausted

end

namespace Program

variable {p : Program}

/-- A value comes to the node: one by an arrow from a node that no cycle leads to, or at an
intersection by all its arrows. -/
def Supplied (p : Program) (n : Nat) : Prop :=
  (∃ a ∈ (p.node n).incoming, (p.arrow a).isPositional = false ∧ ¬ p.BehindCycle (p.arrow a).source) ∨
    (∃ a ∈ (p.node n).incoming, (p.arrow a).isPositional = true) ∧ ¬ p.BehindCycle n

theorem reaches_of_incoming (hp : p.Consistent) {a n : Nat} (ha : a ∈ (p.node n).incoming) :
    p.Reaches (p.arrow a).source n := by
  obtain ⟨halt, htarget⟩ := (History.mem_incoming hp).1 ha
  exact .single ((edge_iff hp).2 ⟨a, halt, rfl, htarget⟩)

/-- A node that arrows enter and no cycle leads to gets a value. -/
theorem supplied_of_not_behindCycle (hp : p.Consistent) {n : Nat} (hentered : (p.node n).incoming ≠ [])
    (hfree : ¬ p.BehindCycle n) : p.Supplied n := by
  obtain ⟨a, ha⟩ := List.exists_mem_of_ne_nil _ hentered
  cases hpositional : (p.arrow a).isPositional with
  | true => exact Or.inr ⟨⟨a, ha, hpositional⟩, hfree⟩
  | false =>
    refine Or.inl ⟨a, ha, hpositional, ?_⟩
    rintro ⟨m, hcycle, hway⟩
    exact hfree ⟨m, hcycle, hway.trans (reaches_of_incoming hp ha)⟩

/-- **Which nodes a plan binds.** A root belongs to a function of the plan. Of the nodes that it
reaches and that are no roots, the body of that function binds the ones to which a value comes, and so
every one that no cycle leads to. -/
theorem plan_binds_iff {d : Draft} (hread : d.ReadsAs p) {plan : ProgramPlan} (hplan : p.plan = .ok plan) {i n : Nat}
    (hi : i ∈ p.roots) (hreach : p.Reaches i n) (hn : n ∉ p.roots) :
    (∃ f ∈ plan.functions, i ∈ p.rootsOf f) ∧ ∀ f ∈ plan.functions, i ∈ p.rootsOf f →
      (f.body.Binds n ↔ p.Supplied n) ∧ (¬ p.BehindCycle n → f.body.Binds n) := by
  have hp := hread.consistent
  refine ⟨plan_rootsOf hp hplan hi, fun f hf hif => ?_⟩
  obtain ⟨seeds, s, h, hseeds, hs, hplanned, hdone⟩ := plan_exhausted hp hplan hf
  have his := (hplanned.roots i).1 hif
  have hns : n ∉ s.roots := fun hmem => hn (seed_roots hseeds hs n hmem)
  have hvisited : ∀ m, p.Reaches m n → (m ∈ h.visited ↔ ¬ p.BehindCycle m) := fun m hm =>
    hdone.visited_iff hp hplanned.history hseeds hs his hreach hm
  have hbinds : f.body.Binds n ↔ p.Supplied n := by
    rw [hplanned.binds_iff hp hns, hdone.meet_iff hp hplanned.history hns, hvisited n .refl]
    refine or_congr ⟨?_, ?_⟩ Iff.rfl
    · rintro ⟨a, c, e, hbring, htarget⟩
      obtain ⟨_, _, _, _, hallowed⟩ := hplanned.history.exists_allowed hbring
      have ha : a ∈ (p.node n).incoming := (History.mem_incoming hp).2 ⟨hallowed.1, htarget⟩
      obtain ⟨hplain, hsource⟩ := (hdone.bring_iff hplanned.history hallowed.1).1 ⟨c, e, hbring⟩
      exact ⟨a, ha, hplain, (hvisited _ (reaches_of_incoming hp ha)).1 hsource⟩
    · rintro ⟨a, ha, hplain, hfree⟩
      obtain ⟨halt, htarget⟩ := (History.mem_incoming hp).1 ha
      have hsource := (hvisited _ (reaches_of_incoming hp ha)).2 hfree
      obtain ⟨c, e, hbring⟩ := (hdone.bring_iff hplanned.history halt).2 ⟨hplain, hsource⟩
      exact ⟨a, c, e, hbring, htarget⟩
  refine ⟨hbinds, fun hfree => hbinds.2 (supplied_of_not_behindCycle hp (fun hnil => hn ?_) hfree)⟩
  exact mem_roots.2 ⟨reaches_lt hp (mem_roots.1 hi).1 hreach, hnil⟩

/-- The intersection of the function that adds up two sums is bound. -/
theorem plan_binds_iff_spreadSum : ∃ p plan, Draft.spreadSum.ReadsAs p ∧ p.plan = .ok plan ∧ 0 ∈ p.roots ∧
    p.Reaches 0 4 ∧ 4 ∉ p.roots ∧
    (∃ f ∈ plan.functions, 0 ∈ p.rootsOf f) ∧ ∀ f ∈ plan.functions, 0 ∈ p.rootsOf f →
      (f.body.Binds 4 ↔ p.Supplied 4) ∧ (¬ p.BehindCycle 4 → f.body.Binds 4) := by
  obtain ⟨p, plan, hread, hplan, hcheck⟩ := Draft.spreadSum.exists_planned
    (fun p _ => p.roots = [0] ∧ 1 ∈ p.successors 0 ∧ 2 ∈ p.successors 1 ∧ 4 ∈ p.successors 2) (by decide +kernel)
  obtain ⟨hroots, hfirst, hsecond, hthird⟩ := of_decide_eq_true hcheck
  have hroot : 0 ∈ p.roots := by simp [hroots]
  have hreach : p.Reaches 0 4 := ((Relation.ReflTransGen.single hfirst).tail hsecond).tail hthird
  have hinner : 4 ∉ p.roots := by simp [hroots]
  exact ⟨p, plan, hread, hplan, hroot, hreach, hinner, plan_binds_iff hread hplan hroot hreach hinner⟩

end Program

/-- A sink, and beside it two nodes that lead to each other. -/
def Draft.sidetrack : Draft where
  nodes := [⟨"()", none, ["_"], false⟩, ⟨"Int", none, [], true⟩, ⟨"Int", none, ["_"], true⟩,
    ⟨"Int", none, ["_"], true⟩]
  connections := [⟨0, 1, 0, "1"⟩, ⟨0, 2, 0, "2"⟩, ⟨2, 3, 0, "$"⟩, ⟨3, 2, 0, "$"⟩]

/-- The sink closes the only scope, so the plan is not refused; but nothing binds the node that is
entered from the cycle alone. -/
theorem Program.plan_drops : ∃ p plan, Draft.sidetrack.ReadsAs p ∧ p.plan = .ok plan ∧ 0 ∈ p.roots ∧ p.Reaches 0 3 ∧
    3 ∉ p.roots ∧ ∀ f ∈ plan.functions, ¬ f.body.Binds 3 := by
  obtain ⟨p, plan, hread, hplan, hcheck⟩ := Draft.sidetrack.exists_planned
    (fun p plan => p.roots = [0] ∧ 2 ∈ p.successors 0 ∧ 3 ∈ p.successors 2 ∧
      ∀ f ∈ plan.functions, ¬ f.body.Binds 3) (by decide +kernel)
  obtain ⟨hroots, hfirst, hsecond, hnone⟩ := of_decide_eq_true hcheck
  exact ⟨p, plan, hread, hplan, by simp [hroots], .tail (.single hfirst) hsecond, by simp [hroots], hnone⟩

end Dataflow
