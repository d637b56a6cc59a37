import Dataflow.Proofs.WalkHistory

/-!
# Plans are complete decision trees

Every block of a planned function either gives the result, as its last step, or chooses between at
least two branches, the last of which is open to every value. The scopes keep this shape from the
start of a walk to its end (`History.grown`): an open scope has no result yet, a sink gives the
result to exactly the scopes that it closes, and a fork closes the scopes that it divides. So no
branch is ever empty when the blocks are extracted.
-/

namespace Dataflow

/-! ## Complete bodies -/

namespace Step

/-- Gives the result. -/
def isResult : Step → Bool
  | .result _ => true
  | _ => false

/-- The steps end with the result, and with it for the first time. -/
def Conclude (steps : List Step) : Prop :=
  ∃ before e, steps = before ++ [.result e] ∧ ∀ s ∈ before, s.isResult = false

end Step

namespace BranchLabel

/-- The variable that a pattern is matched against. -/
def subject? : BranchLabel → Option String
  | .pattern subject _ _ => some subject
  | _ => none

/-- There is a choice, one of the branches is taken, and the patterns look at the same variable. -/
structure Exhaust (labels : List BranchLabel) : Prop where
  several : 2 ≤ labels.length
  last : labels.getLast?.any isIrrefutable = true
  subject : ∀ l ∈ labels, ∀ l' ∈ labels, ∀ x y, l.subject? = some x → l'.subject? = some y → x = y

end BranchLabel

namespace Block

variable {δ ℓ : Type}

mutual

/-- A block and all blocks below it. -/
def blocks : Block δ ℓ → List (Block δ ℓ)
  | .mk ds branches => .mk ds branches :: branchBlocks branches
termination_by structural b => b

def branchBlocks : List (ℓ × Block δ ℓ) → List (Block δ ℓ)
  | [] => []
  | (_, b) :: rest => blocks b ++ branchBlocks rest
termination_by structural bs => bs

end

end Block

namespace Body

/-- A block that gives the result. -/
structure IsLeaf (b : Body) : Prop where
  branches : b.branches = []
  concludes : Step.Conclude b.definitions

/-- A block that chooses what comes next. -/
structure IsFork (b : Body) : Prop where
  exhausts : BranchLabel.Exhaust (b.branches.map (·.1))
  unfinished : ∀ s ∈ b.definitions, s.isResult = false

end Body

/-! ## The shape of scopes -/

namespace ScopeTree

/-- A scope with these steps and children may stand in the tree: an open one has no result yet, one
that is closed has it, and one that is divided leaves it to its children. -/
def Shaped (steps : List Step) (isOpen : Bool) (labels : List BranchLabel) : Prop :=
  if isOpen then labels = [] ∧ ∀ s ∈ steps, s.isResult = false
  else if labels = [] then Step.Conclude steps
  else BranchLabel.Exhaust labels ∧ ∀ s ∈ steps, s.isResult = false

mutual

/-- All scopes are in shape. -/
def Grown : ScopeTree Step BranchLabel → Prop
  | .mk _ steps isOpen children => Shaped steps isOpen (children.map (·.1)) ∧ GrownList children
termination_by structural t => t

def GrownList : List (BranchLabel × ScopeTree Step BranchLabel) → Prop
  | [] => True
  | (_, t) :: rest => Grown t ∧ GrownList rest
termination_by structural ts => ts

end

theorem grown_fresh (c : Condition) : Grown (fresh c) := ⟨⟨rfl, by simp⟩, trivial⟩

theorem grownList_of_forall {ts : List (BranchLabel × ScopeTree Step BranchLabel)} (h : ∀ x ∈ ts, Grown x.2) :
    GrownList ts := by
  induction ts with
  | nil => trivial
  | cons x ts ih => exact ⟨h x (by simp), ih fun y hy => h y (by simp [hy])⟩

section
variable {c : Condition} {f : Condition → List Step → ScopeTree Step BranchLabel}

mutual

/-- A change of open scopes keeps the shape of all if it gives scopes in shape. -/
theorem update_grown (hf : ∀ own steps, (∀ s ∈ steps, s.isResult = false) → Grown (f own steps)) :
    ∀ {t : ScopeTree Step BranchLabel}, Grown t → Grown (update c f t)
  | .mk own steps isOpen children, h => by
    obtain ⟨hshape, hchildren⟩ := h
    simp only [update]
    split
    · rename_i hopen
      obtain rfl : isOpen = true := (Bool.and_eq_true_iff.1 hopen).1
      exact hf own steps hshape.2
    · refine ⟨?_, updateList_grown hf hchildren⟩
      rw [updateList_labels]
      exact hshape

theorem updateList_grown (hf : ∀ own steps, (∀ s ∈ steps, s.isResult = false) → Grown (f own steps)) :
    ∀ {ts : List (BranchLabel × ScopeTree Step BranchLabel)}, GrownList ts → GrownList (updateList c f ts)
  | [], _ => trivial
  | (_, _) :: _, h => ⟨update_grown hf h.1, updateList_grown hf h.2⟩

end

end

section
variable {δ ℓ : Type} {c : Condition} {f : Condition → List δ → ScopeTree δ ℓ} (d : δ)

mutual

/-- A definition leaves the scopes concerned open, so what comes next can be done at once with it. -/
theorem update_update : ∀ t : ScopeTree δ ℓ,
    update c f (update c (fun own ds => .mk own (ds ++ [d]) true []) t) =
      update c (fun own ds => f own (ds ++ [d])) t
  | .mk own ds isOpen children => by
    by_cases h : (isOpen && own.implies c) = true
    · obtain ⟨rfl, hown⟩ := Bool.and_eq_true_iff.1 h
      simp [update, hown]
    · simp only [update, h, Bool.false_eq_true, if_false, updateList_updateList children]

theorem updateList_updateList : ∀ ts : List (ℓ × ScopeTree δ ℓ),
    updateList c f (updateList c (fun own ds => .mk own (ds ++ [d]) true []) ts) =
      updateList c (fun own ds => f own (ds ++ [d])) ts
  | [] => rfl
  | (_, t) :: rest => by simp [updateList, update_update t, updateList_updateList rest]

end

end

/-! ## Extraction of scopes in shape -/

mutual

/-- Scopes in shape, none of which is open, are a complete body with something in it. -/
theorem Grown.toBlock : ∀ {t : ScopeTree Step BranchLabel}, Grown t → count (fun _ => true) t = 0 →
    ∃ b : Body, t.toBlock = .ok b ∧ b.isEmpty = false ∧ ∀ b' ∈ b.blocks, Body.IsLeaf b' ∨ Body.IsFork b'
  | .mk c steps isOpen children, h, hopen => by
    obtain ⟨hshape, hchildren⟩ := h
    obtain ⟨rfl, hcount⟩ := count_mk_eq_zero hopen
    obtain ⟨bs, hbs, hall⟩ := GrownList.toBlocks hchildren hcount
    have hlabels := toBlocks_labels hbs
    refine ⟨.mk steps bs, by simp [ScopeTree.toBlock, hbs], ?_⟩
    simp only [Shaped, Bool.false_eq_true, if_false, ← hlabels, List.map_eq_nil_iff] at hshape
    split at hshape
    · rename_i hnil
      refine ⟨?_, fun b' hb' => ?_⟩
      · obtain ⟨before, e, rfl, _⟩ := hshape
        simp [Block.isEmpty, Block.definitions]
      · subst hnil
        obtain rfl : b' = .mk steps [] := by simpa [Block.blocks, Block.branchBlocks] using hb'
        exact Or.inl ⟨rfl, hshape⟩
    · rename_i hnil
      refine ⟨by simp [Block.isEmpty, Block.branches, hnil], fun b' hb' => ?_⟩
      rcases List.mem_cons.1 hb' with rfl | hb'
      · exact Or.inr ⟨hshape.1, hshape.2⟩
      · exact hall b' hb'

theorem GrownList.toBlocks : ∀ {ts : List (BranchLabel × ScopeTree Step BranchLabel)}, GrownList ts →
    countList (fun _ => true) ts = 0 →
      ∃ bs : List (BranchLabel × Body), toBlocks ts = .ok bs ∧
        ∀ b' ∈ Block.branchBlocks bs, Body.IsLeaf b' ∨ Body.IsFork b'
  | [], _, _ => ⟨[], rfl, by simp [Block.branchBlocks]⟩
  | (l, t) :: rest, h, hopen => by
    simp only [countList, Nat.add_eq_zero_iff] at hopen
    obtain ⟨b, hb, hsome, hall⟩ := Grown.toBlock h.1 hopen.1
    obtain ⟨bs, hbs, hrest⟩ := GrownList.toBlocks h.2 hopen.2
    refine ⟨(l, b) :: bs, by simp [ScopeTree.toBlocks, hb, hsome, hbs], fun b' hb' => ?_⟩
    rcases List.mem_append.1 hb' with hb' | hb'
    · exact hall b' hb'
    · exact hrest b' hb'

end

end ScopeTree

/-! ## Walks keep scopes in shape -/

namespace ScopeBuilder

open ScopeTree (Grown)

variable {b : ScopeBuilder Step BranchLabel}

theorem define_grown (h : Grown b.tree) (c : Condition) {s : Step} (hs : s.isResult = false) :
    Grown (b.define c s).tree := by
  refine ScopeTree.update_grown (fun own steps hsteps => ?_) h
  refine ⟨⟨rfl, fun s' hs' => ?_⟩, trivial⟩
  rcases List.mem_append.1 hs' with hs' | hs'
  · exact hsteps s' hs'
  · rwa [List.mem_singleton.1 hs']

theorem define_all_grown (h : Grown b.tree) (c : Condition) {steps : List Step}
    (hs : ∀ s ∈ steps, s.isResult = false) : Grown (b.run (steps.map (.define c))).tree := by
  induction steps generalizing b with
  | nil => exact h
  | cons s steps ih =>
    exact ih (define_grown h c (hs s (by simp))) fun s' hs' => hs s' (by simp [hs'])

theorem fork_grown (h : Grown b.tree) (c : Condition) {labels : List BranchLabel}
    (hl : BranchLabel.Exhaust labels) : Grown (b.fork c labels).tree := by
  have hfst : ∀ own : Condition, (((b.branchVars labels).map fun (l, k) =>
      ((l, .fresh (own.and (.literal k))) : BranchLabel × ScopeTree Step BranchLabel)).map (·.1)) = labels := by
    simp [branchVars, Function.comp_def]
  refine ScopeTree.update_grown (fun own steps hsteps => ?_) h
  refine ⟨?_, ScopeTree.grownList_of_forall fun x hx => ?_⟩
  · have hne : labels ≠ [] := by
      rintro rfl
      exact absurd hl.several (by simp)
    rw [hfst, ScopeTree.Shaped, if_neg (by simp), if_neg hne]
    exact ⟨hl, hsteps⟩
  · obtain ⟨⟨l, k⟩, _, rfl⟩ := List.mem_map.1 hx
    exact ScopeTree.grown_fresh _

/-- The scopes that get a result are closed in the same breath. -/
theorem conclude_grown (h : Grown b.tree) (c : Condition) (e : Expr) :
    Grown ((b.define c (.result e)).close c).tree := by
  have hboth : ((b.define c (.result e)).close c).tree =
      b.tree.update c fun own steps => .mk own (steps ++ [.result e]) false [] := by
    unfold close define
    exact ScopeTree.update_update (Step.result e) b.tree
  rw [hboth]
  refine ScopeTree.update_grown (fun own steps hsteps => ?_) h
  exact ⟨⟨steps, e, rfl, hsteps⟩, trivial⟩

end ScopeBuilder

/-- The label of an irrefutable pin is irrefutable. -/
theorem Brancher.Labelled.isIrrefutable {n : Nat} {ty : Ty} {b : Brancher} {label : BranchLabel}
    (h : b.Labelled n ty label) (hb : b.isIrrefutable = true) : label.isIrrefutable = true := by
  cases h with
  | any => rfl
  | pattern pat => exact hb
  | guard test e out _ => cases hb

/-- Patterns at a node look at its variable. -/
theorem Brancher.Labelled.subject {n : Nat} {ty : Ty} {b : Brancher} {label : BranchLabel}
    (h : b.Labelled n ty label) {x : String} (hx : label.subject? = some x) : x = nodeVar n := by
  cases h with
  | any => cases hx
  | pattern pat => exact (Option.some.inj hx).symm
  | guard test e out _ => cases hx

/-- The pins of a node that forks give labels of a fork. -/
theorem pinLabels_exhaust {n : Nat} {ty : Ty} {k : Nat} {pins : List Pin} {labels : List BranchLabel}
    (h : pinLabels n ty k pins = .ok labels) (hseveral : 1 < pins.length)
    (hlast : (pins.getLast?.any fun pin => pin.brancher.isIrrefutable) = true) : BranchLabel.Exhaust labels := by
  have hlabelled := pinLabels_ok h
  have hsubject : ∀ l ∈ labels, ∀ x, l.subject? = some x → x = nodeVar n := by
    intro l hl x hx
    obtain ⟨i, hi, rfl⟩ := List.mem_iff_getElem.1 hl
    exact (hlabelled.get (by rw [hlabelled.length_eq]; exact hi) hi).subject hx
  refine ⟨?_, ?_, fun l hl l' hl' x y hx hy => ?_⟩
  · rw [← hlabelled.length_eq]
    exact hseveral
  · rw [List.getLast?_eq_head?_reverse] at hlast ⊢
    have hreversed := List.rel_reverse hlabelled
    revert hlast hreversed
    generalize pins.reverse = ps
    generalize labels.reverse = ls
    intro hlast hreversed
    cases hreversed with
    | nil => cases hlast
    | cons hfirst _ => exact hfirst.isIrrefutable hlast
  · rw [hsubject l hl x hx, hsubject l' hl' y hy]

theorem WalkEvent.steps_unfinished {p : Program} {s : Seed} {e : WalkEvent} (h : ∀ n c, e ≠ .sink n c) :
    ∀ step ∈ e.steps p s, step.isResult = false := by
  have hunpack : ∀ n, ∀ step ∈ unpackSteps p n, step.isResult = false := by
    intro n step hstep
    unfold unpackSteps at hstep
    split at hstep
    · rw [List.mem_singleton.1 hstep]
      rfl
    · cases hstep
  have hbind : ∀ n x, ∀ step ∈ bindSteps p n x, step.isResult = false := by
    intro n x step hstep
    rcases List.mem_cons.1 hstep with rfl | hstep
    · rfl
    · exact hunpack n step hstep
  cases e with
  | root i =>
    cases hparam : s.param with
    | none => simp [steps, hparam, Step.isResult]
    | some j =>
      simp only [steps, hparam]
      exact hunpack i
  | bring a c x => exact hbind _ x
  | meet n c items => exact hbind n _
  | sink n c => exact absurd rfl (h n c)
  | feed a c | pass n c | fork n c labels next => simp [steps]

/-- The scopes are in shape at every point of a walk. -/
theorem History.grown {p : Program} {s : Seed} {h : Events} (hist : History p s h) :
    ScopeTree.Grown (h.scopes p s).tree := by
  induction hist with
  | start => exact ScopeTree.grown_fresh _
  | @step e h before allowed ih =>
    rw [Events.scopes_cons]
    cases e with
    | fork n c labels next =>
      obtain ⟨_, _, _, hbranching, hlabels, hlast, _⟩ := allowed
      exact ScopeBuilder.fork_grown ih c (pinLabels_exhaust hlabels (by simpa [Node.isBranching] using hbranching) hlast)
    | sink n c => exact ScopeBuilder.conclude_grown ih c _
    | root i | bring a c x | feed a c | meet n c items | pass n c =>
      exact ScopeBuilder.define_all_grown ih _ (WalkEvent.steps_unfinished (by simp))

/-! ## Errors of planning -/

/-- A part of planning that cannot fail because of scopes. -/
def Scopeless {α : Type} (x : Except PlanError α) : Prop := ∀ f cause, x ≠ .error (.scope f cause)

section
variable {α β : Type}

theorem scopeless_ok (a : α) : Scopeless (.ok a) := by simp [Scopeless]

theorem Scopeless.bind {x : Except PlanError α} {k : α → Except PlanError β} (hx : Scopeless x)
    (hk : ∀ a, Scopeless (k a)) : Scopeless (x >>= k) := by
  cases x with
  | ok a => exact hk a
  | error e =>
    intro f cause h
    cases h
    exact hx f cause rfl

/-- An error that is passed on as it is. -/
theorem Scopeless.error {x : Except PlanError α} (hx : Scopeless x) {e : PlanError} (h : x = .error e) :
    Scopeless (.error e : Except PlanError β) := by
  intro f cause he
  cases he
  exact hx f cause h

end

theorem Program.seeds_scopeless (p : Program) : Scopeless p.seeds := by
  have hsplit : ∀ roots, Scopeless (p.splitRoots roots) := by
    intro roots
    rcases splitRoots_cases (p := p) roots with ⟨_, hsplit⟩ | ⟨_, _, _, _, hsplit⟩
    · rw [hsplit]
      exact scopeless_ok _
    · simp [Scopeless, hsplit]
  have hshared : ∀ seeds before, Scopeless (p.checkShared before seeds) := by
    intro seeds
    induction seeds with
    | nil => exact fun _ => scopeless_ok _
    | cons s rest ih =>
      intro before
      simp only [checkShared]
      split
      · simp [Scopeless]
      · exact ih _
  exact (hsplit _).bind fun _ => (hshared _ _).bind fun _ => scopeless_ok _

mutual

theorem Pattern.check_scopeless (n : Nat) : ∀ (pat : Pattern) (ty : Ty), Scopeless (pat.check n ty)
  | .any, _ => scopeless_ok _
  | .value l, ty => by
    simp only [Pattern.check]
    split <;> simp [Scopeless]
  | .tuple ps, ty => by
    simp only [Pattern.check]
    split
    · split
      · exact Pattern.checkList_scopeless n ps _
      · simp [Scopeless]
    · simp [Scopeless]

theorem Pattern.checkList_scopeless (n : Nat) : ∀ (ps : List Pattern) (tys : List Ty), Scopeless (checkList n ps tys)
  | [], _ => scopeless_ok _
  | _ :: _, [] => scopeless_ok _
  | p :: ps, ty :: tys => by
    simp only [Pattern.checkList]
    split
    · exact Pattern.checkList_scopeless n ps tys
    · rename_i e he
      exact (Pattern.check_scopeless n p ty).error he

end

theorem Brancher.label_scopeless (n : Nat) (ty : Ty) (b : Brancher) : Scopeless (b.label n ty) := by
  unfold Brancher.label
  split
  · exact scopeless_ok _
  · rename_i pat
    split
    · exact scopeless_ok _
    · rename_i e he
      exact (pat.check_scopeless n ty).error he
  · split
    · simp [Scopeless]
    · split <;> simp [Scopeless]

theorem pinLabels_scopeless (n : Nat) (ty : Ty) : ∀ (k : Nat) (pins : List Pin), Scopeless (pinLabels n ty k pins)
  | _, [] => scopeless_ok _
  | k, pin :: pins => by
    simp only [pinLabels]
    split
    · simp [Scopeless]
    · exact (pin.brancher.label_scopeless n ty).bind fun _ =>
        (pinLabels_scopeless n ty (k + 1) pins).bind fun _ => scopeless_ok _

theorem Program.arrowExpr_scopeless (p : Program) (a : Arrow) : Scopeless (p.arrowExpr a) := by
  unfold arrowExpr
  dsimp only
  split
  · simp [Scopeless]
  · split <;> simp [Scopeless]

theorem Program.slotExprs_scopeless (p : Program) (n : Nat) :
    ∀ (as : List Arrow) (slots : List (Nat × Expr)), Scopeless (p.slotExprs n slots as)
  | [], _ => scopeless_ok _
  | a :: as, slots => by
    simp only [slotExprs]
    split
    · split
      · exact slotExprs_scopeless p n as _
      · simp [Scopeless]
    · exact slotExprs_scopeless p n as slots

namespace Walk

variable (p : Program) (f : String)

theorem define_scopeless (w : Walk) (n : Nat) (c : Condition) (e : Expr) : Scopeless (w.define p n c e) := by
  unfold define
  split <;> simp [Scopeless]

theorem arrive_scopeless (w : Walk) (n : Nat) : Scopeless (w.arrive p n) := by
  unfold arrive
  dsimp only
  split
  · exact (p.slotExprs_scopeless n _ _).bind fun _ => (define_scopeless p w n _ _).bind fun _ => scopeless_ok _
  · exact scopeless_ok _

theorem follow_scopeless (w : Walk) (a : Nat) (c : Condition) : Scopeless (w.follow p a c) := by
  have hbind : ∀ arrow, Scopeless (w.bindTarget p arrow c) := by
    intro arrow
    unfold bindTarget
    split
    · simp [Scopeless]
    · split
      · exact define_scopeless p w _ c _
      · rename_i e he
        exact (p.arrowExpr_scopeless arrow).error he
  have hdone : ∀ w : Walk, Scopeless (if (w.note (a, c)).Full p (p.arrow a).target then
      (w.note (a, c)).arrive p (p.arrow a).target else pure (w.note (a, c))) := by
    intro w
    split
    · exact arrive_scopeless p _ _
    · exact scopeless_ok _
  unfold follow
  dsimp only
  split
  · exact hdone w
  · exact (hbind _).bind hdone

theorem followAll_scopeless : ∀ (items : List (Nat × Condition)) (w : Walk), Scopeless (w.followAll p items)
  | [], _ => scopeless_ok _
  | (a, c) :: rest, w => by
    simp only [followAll]
    split
    · exact followAll_scopeless rest _
    · rename_i e he
      exact (follow_scopeless p w a c).error he

theorem visit_scopeless (w : Walk) (n : Nat) (c : Condition) : Scopeless (w.visit p f n c) := by
  have hsink : Scopeless (w.sink p f n c) := by
    unfold sink
    dsimp only
    split
    · simp [Scopeless]
    · split <;> simp [Scopeless]
  have hbranch : Scopeless (w.branch p n c) := by
    unfold branch
    dsimp only
    split
    · refine (pinLabels_scopeless n _ _ _).bind fun labels => ?_
      split
      · exact scopeless_ok _
      · simp [Scopeless]
    · exact scopeless_ok _
  unfold visit
  dsimp only
  split
  · exact hsink
  · exact hbranch.bind fun _ => followAll_scopeless p _ _

theorem run_scopeless : ∀ (fuel : Nat) (w : Walk), Scopeless (run p f fuel w)
  | 0, _ => scopeless_ok _
  | fuel + 1, w => by
    simp only [run]
    split
    · exact scopeless_ok _
    · split
      · exact run_scopeless fuel _
      · rename_i e he
        exact (visit_scopeless p f _ _ _).error he

end Walk

/-! ## Plans -/

namespace Program

theorem planFunctions_error {p : Program} : ∀ {seeds : List Seed} {e : PlanError},
    p.planFunctions seeds = .error e → ∃ s ∈ seeds, p.planFunction s = .error e
  | s :: rest, e, h => by
    simp only [planFunctions] at h
    split at h
    · rename_i e' he
      cases h
      exact ⟨s, by simp, he⟩
    · split at h
      · cases h
      · rename_i e' he
        cases h
        obtain ⟨s', hs', he⟩ := planFunctions_error he
        exact ⟨s', by simp [hs'], he⟩

/-- Planning fails because of scopes only when some are left open. -/
theorem plan_scope_error {p : Program} (hp : p.Consistent) {f : String} {cause : ScopeError}
    (h : p.plan = .error (.scope f cause)) : ∃ n, cause = .unclosed n := by
  rcases Except.bind_error.1 h with h | ⟨seeds, hseeds, h⟩
  · exact absurd h (p.seeds_scopeless f cause)
  rcases Except.bind_error.1 h with h | ⟨functions, _, h⟩
  · obtain ⟨s, hs, h⟩ := planFunctions_error h
    rcases Except.bind_error.1 h with h | ⟨w, hrun, h⟩
    · exact absurd h (Walk.run_scopeless p _ _ _ f cause)
    obtain ⟨_, _, ht, _⟩ := (seed_rooted hseeds hs).run_history hp hrun
    have hgrown := ht.history.grown
    rw [← ht.scopes] at hgrown
    split at h
    · rename_i e hextract
      cases h
      unfold ScopeBuilder.extract at hextract
      split at hextract
      · rename_i hopen
        obtain ⟨b, hb, _⟩ := hgrown.toBlock hopen
        rw [hb] at hextract
        cases hextract
      · rename_i n _
        cases hextract
        exact ⟨_, rfl⟩
    · cases h
  · cases h

/-- **Plans are complete.** Every block of a planned function is a leaf, which ends with the only
result on it, or a fork: it has no result, at least two branches, of which the last is open to every
value, and all its patterns are matched against one variable. So a program is never refused for an
empty branch. -/
theorem plan_complete {d : Draft} {p : Program} (hread : d.ReadsAs p) :
    (∀ plan, p.plan = .ok plan → ∀ f ∈ plan.functions, ∀ b ∈ f.body.blocks, Body.IsLeaf b ∨ Body.IsFork b) ∧
      ∀ f c, p.plan ≠ .error (.scope f (.emptyBranch c)) := by
  refine ⟨fun plan hplan f hf => ?_, fun f c h => ?_⟩
  · obtain ⟨s, h, hplanned⟩ := plan_history hread.consistent hplan hf
    obtain ⟨hopen, hbody⟩ := ScopeBuilder.extract_ok hplanned.body
    obtain ⟨b, hb, _, hall⟩ := hplanned.history.grown.toBlock hopen
    rw [hbody] at hb
    cases hb
    exact hall
  · obtain ⟨n, hn⟩ := plan_scope_error hread.consistent h
    cases hn

/-- The function with a fork, a join and an intersection has a fork and two leaves. -/
theorem plan_complete_spreadSum : ∃ p plan, Draft.spreadSum.ReadsAs p ∧ p.plan = .ok plan ∧
    (plan.functions.map fun f => f.body.blocks.length) = [3] ∧
    ∀ f ∈ plan.functions, ∀ b ∈ f.body.blocks, Body.IsLeaf b ∨ Body.IsFork b := by
  obtain ⟨p, plan, hread, hplan, hcheck⟩ := Draft.spreadSum.exists_planned
    (fun _ plan => (plan.functions.map fun f => f.body.blocks.length) = [3]) (by decide +kernel)
  exact ⟨p, plan, hread, hplan, of_decide_eq_true hcheck, (plan_complete hread).1 plan hplan⟩

end Program

end Dataflow
