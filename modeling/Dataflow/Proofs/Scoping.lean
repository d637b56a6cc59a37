import Dataflow.Proofs.Path

/-!
# Planned functions are well scoped

Every variable that the body of a planned function reads is its parameter, a parameter of a lambda
around, or bound before on the way from the root of the body. On the path to a leaf, the node that an
event reads has a value (`History.Bound`), and what has a value has been bound there. Every block lies
on the path to some leaf, so the paths carry the property over to the blocks.
-/

namespace Dataflow

/-! ## What is read and what is bound -/

namespace Expr

mutual

/-- The variables that an expression reads are bound, or parameters of lambdas around. -/
def Scoped : List String → Expr → Prop
  | bound, .var x => x ∈ bound
  | _, .lit _ => True
  | bound, .call _ _ args => ScopedArgs bound args
  | bound, .tuple items => ScopedList bound items
  | bound, .lambda x body => Scoped (x :: bound) body
termination_by structural _ e => e

def ScopedArgs : List String → List (Option Expr) → Prop
  | _, [] => True
  | bound, none :: rest => ScopedArgs bound rest
  | bound, some e :: rest => Scoped bound e ∧ ScopedArgs bound rest
termination_by structural _ es => es

def ScopedList : List String → List Expr → Prop
  | _, [] => True
  | bound, e :: rest => Scoped bound e ∧ ScopedList bound rest
termination_by structural _ es => es

end

theorem scopedArgs_iff {bound : List String} {args : List (Option Expr)} :
    ScopedArgs bound args ↔ ∀ e, some e ∈ args → e.Scoped bound := by
  induction args with
  | nil => simp [ScopedArgs]
  | cons a rest ih => cases a <;> simp [ScopedArgs, ih]

theorem scopedList_iff {bound : List String} {items : List Expr} :
    ScopedList bound items ↔ ∀ e ∈ items, e.Scoped bound := by
  induction items with
  | nil => simp [ScopedList]
  | cons e rest ih => simp [ScopedList, ih]

mutual

theorem Scoped.mono : ∀ {e : Expr} {bound more : List String}, bound ⊆ more → e.Scoped bound → e.Scoped more
  | .var _, _, _, hsub, h => hsub h
  | .lit _, _, _, _, _ => trivial
  | .call _ _ args, _, _, hsub, h => ScopedArgs.mono (l := args) hsub h
  | .tuple items, _, _, hsub, h => ScopedList.mono (l := items) hsub h
  | .lambda x body, _, _, hsub, h => Scoped.mono (e := body) (List.cons_subset_cons x hsub) h

theorem ScopedArgs.mono : ∀ {l : List (Option Expr)} {bound more : List String}, bound ⊆ more →
    ScopedArgs bound l → ScopedArgs more l
  | [], _, _, _, _ => trivial
  | none :: rest, _, _, hsub, h => ScopedArgs.mono (l := rest) hsub h
  | some _ :: _, _, _, hsub, h => ⟨Scoped.mono hsub h.1, ScopedArgs.mono hsub h.2⟩

theorem ScopedList.mono : ∀ {l : List Expr} {bound more : List String}, bound ⊆ more →
    ScopedList bound l → ScopedList more l
  | [], _, _, _, _ => trivial
  | _ :: _, _, _, hsub, h => ⟨Scoped.mono hsub h.1, ScopedList.mono hsub h.2⟩

end

end Expr

/-- The variables that a step reads are bound. -/
def Step.Scoped (bound : List String) : Step → Prop
  | .bind _ _ e => e.Scoped bound
  | .unpack x _ _ => x ∈ bound
  | .result e => e.Scoped bound

/-- The variables that a step binds. -/
def Step.binds : Step → List String
  | .bind x _ _ => [x]
  | .unpack _ xs _ => xs
  | .result _ => []

/-- The variables that a label reads are bound. -/
def BranchLabel.Scoped (bound : List String) : BranchLabel → Prop
  | .otherwise => True
  | .pattern x _ _ => x ∈ bound
  | .guard e => e.Scoped bound

namespace Body

/-- Each step reads what is bound at first or by an earlier step. -/
def StepsScoped : List String → List Step → Prop
  | _, [] => True
  | bound, d :: rest => d.Scoped bound ∧ StepsScoped (bound ++ d.binds) rest

mutual

/-- Every variable is bound where it is read. Labels are read after the steps of the block. -/
def WellScoped : List String → Body → Prop
  | bound, .mk ds branches =>
    StepsScoped bound ds ∧ BranchesScoped (bound ++ ds.flatMap Step.binds) branches
termination_by structural _ b => b

def BranchesScoped : List String → List (BranchLabel × Body) → Prop
  | _, [] => True
  | bound, (l, b) :: rest => l.Scoped bound ∧ WellScoped bound b ∧ BranchesScoped bound rest
termination_by structural _ bs => bs

end

end Body

namespace Trail

/-- Every variable is bound where a path reads it. -/
def Scoped : List String → Trail Step BranchLabel → Prop
  | _, [] => True
  | bound, .definition d :: rest => d.Scoped bound ∧ Scoped (bound ++ d.binds) rest
  | bound, .choice labels _ :: rest => (∀ l ∈ labels, l.Scoped bound) ∧ Scoped bound rest

/-- The variables that a path binds. -/
def binds (τ : Trail Step BranchLabel) : List String := τ.definitions.flatMap Step.binds

@[simp] theorem binds_nil : binds [] = [] := rfl

@[simp] theorem binds_definition (d : Step) (τ : Trail Step BranchLabel) :
    binds (.definition d :: τ) = d.binds ++ binds τ := rfl

@[simp] theorem binds_choice (labels : List BranchLabel) (k : Nat) (τ : Trail Step BranchLabel) :
    binds (.choice labels k :: τ) = binds τ := rfl

theorem binds_append (τ σ : Trail Step BranchLabel) : binds (τ ++ σ) = binds τ ++ binds σ := by
  simp [binds, definitions]

theorem scoped_append {bound : List String} {τ σ : Trail Step BranchLabel} :
    Scoped bound (τ ++ σ) ↔ Scoped bound τ ∧ Scoped (bound ++ binds τ) σ := by
  induction τ generalizing bound with
  | nil => simp [Scoped]
  | cons passage τ ih =>
    cases passage with
    | definition d => simp [Scoped, ih, and_assoc]
    | choice labels k => simp [Scoped, ih, and_assoc]

theorem binds_definitions (ds : List Step) : binds (ds.map .definition) = ds.flatMap Step.binds := by
  simp [binds, definitions, List.filterMap_map, Function.comp_def, Passage.definition?]

theorem scoped_definitions {bound : List String} {ds : List Step} :
    Scoped bound (ds.map .definition) ↔ Body.StepsScoped bound ds := by
  induction ds generalizing bound with
  | nil => simp [Scoped, Body.StepsScoped]
  | cons d ds ih => simp [Scoped, Body.StepsScoped, ih]

end Trail

/-! ## From paths to blocks -/

namespace Body

mutual

theorem wellScoped_of_trails : ∀ {b : Body} {bound : List String},
    (∀ τ ∈ b.trails, Trail.Scoped bound τ) → WellScoped bound b
  | .mk ds [], bound, h => by
    have hds := h (ds.map .definition) (by simp [Block.trails])
    exact ⟨Trail.scoped_definitions.1 hds, trivial⟩
  | .mk ds (branch :: rest), bound, h => by
    -- a path goes through the steps of the block and on into a branch
    have hsplit : ∀ τ ∈ Block.branchTrails ((branch :: rest).map (·.1)) 0 (branch :: rest),
        StepsScoped bound ds ∧ Trail.Scoped (bound ++ ds.flatMap Step.binds) τ := by
      intro τ hτ
      have hτ := h (ds.map .definition ++ τ) (by simpa [Block.trails] using hτ)
      rw [Trail.scoped_append, Trail.scoped_definitions, Trail.binds_definitions] at hτ
      exact hτ
    obtain ⟨τ, hτ⟩ := List.exists_mem_of_ne_nil _ (Block.trails_ne_nil branch.2)
    have hfirst : .choice ((branch :: rest).map (·.1)) 0 :: τ ∈
        Block.branchTrails ((branch :: rest).map (·.1)) 0 (branch :: rest) := by
      obtain ⟨l, b⟩ := branch
      simp [Block.branchTrails, hτ]
    exact ⟨(hsplit _ hfirst).1,
      branchesScoped_of_trails (fun b hb => List.mem_map_of_mem hb) fun τ hτ => (hsplit τ hτ).2⟩

theorem branchesScoped_of_trails : ∀ {branches : List (BranchLabel × Body)} {bound : List String}
    {labels : List BranchLabel} {k : Nat}, (∀ b ∈ branches, b.1 ∈ labels) →
    (∀ τ ∈ Block.branchTrails labels k branches, Trail.Scoped bound τ) → BranchesScoped bound branches
  | [], _, _, _, _, _ => trivial
  | (l, b) :: rest, bound, labels, k, hlabels, h => by
    have hbranch : ∀ τ ∈ b.trails, Trail.Scoped bound (.choice labels k :: τ) := fun τ hτ =>
      h _ (by simp [Block.branchTrails, hτ])
    obtain ⟨τ, hτ⟩ := List.exists_mem_of_ne_nil _ (Block.trails_ne_nil b)
    refine ⟨(hbranch τ hτ).1 l (hlabels (l, b) (by simp)), wellScoped_of_trails fun τ hτ => (hbranch τ hτ).2, ?_⟩
    exact branchesScoped_of_trails (k := k + 1) (fun b hb => hlabels b (by simp [hb])) fun τ hτ =>
      h τ (by simp [Block.branchTrails, hτ])

end

end Body

/-! ## Morphisms read their inputs only -/

namespace Morphism

open Dataflow.Expr (Scoped ScopedArgs scopedArgs_iff scopedList_iff)

/-- The arguments of a call are inputs and what was bound before. -/
theorem fill_mem {bindings : List (Nat × Expr)} : ∀ {positions : List Nat} {inputs : List Expr} {e : Expr},
    some e ∈ fill bindings positions inputs → e ∈ inputs ∨ ∃ i, (i, e) ∈ bindings
  | [], _, _, h => by cases h
  | i :: rest, inputs, e, h => by
    unfold fill at h
    split at h
    · rename_i e' hget
      rcases List.mem_cons.1 h with heq | h
      · cases heq
        exact Or.inr ⟨i, Assoc.get?_mem hget⟩
      · exact fill_mem h
    · rename_i e' inputs' _
      rcases List.mem_cons.1 h with heq | h
      · cases heq
        exact Or.inl (by simp)
      · exact (fill_mem h).imp_left (List.mem_cons_of_mem _)
    · rcases List.mem_cons.1 h with heq | h
      · cases heq
      · exact fill_mem h

mutual

/-- A morphism that is called reads what its inputs read. -/
theorem call_scoped : ∀ (f : Morphism) {xs : List String} {inputs : List Expr},
    (∀ e ∈ inputs, e.Scoped xs) → (f.call inputs).Scoped xs
  | .named name params _, xs, inputs, h => by
    simpa [call, Scoped, scopedArgs_iff] using h
  | .literal l, _, _, _ => by simp [call, Scoped]
  | .slot _, xs, inputs, h => by
    cases inputs with
    | nil => simp [call, identityExpr, Scoped, ScopedArgs]
    | cons e rest => exact h e (by simp)
  | .tuple parts _ _, xs, inputs, h => by
    simp only [call, Scoped, scopedList_iff]
    exact callParts_scoped parts h
  | .bound base bindings _ _, xs, inputs, h => by
    have hargs : ∀ e, some e ∈ fill (valueBindings bindings) (List.range base.arity) inputs → e.Scoped xs :=
      fun e he => (fill_mem he).elim (h e) fun ⟨i, hi⟩ => valueBindings_scoped bindings (i, e) hi
    unfold call
    dsimp only
    split
    · simpa [Scoped, scopedArgs_iff] using hargs
    · exact call_scoped base fun e he => hargs e (by simpa using he)

theorem callParts_scoped : ∀ (parts : List Morphism) {xs : List String} {inputs : List Expr},
    (∀ e ∈ inputs, e.Scoped xs) → ∀ e ∈ callParts parts inputs, e.Scoped xs
  | [], _, _, _, e, he => by cases he
  | f :: fs, xs, inputs, h, e, he => by
    rcases List.mem_cons.1 he with rfl | he
    · split
      · exact value_scoped f
      · exact call_scoped f h
    · exact callParts_scoped fs h e he

/-- A morphism as a value reads nothing. -/
theorem value_scoped : ∀ (f : Morphism) {xs : List String}, f.value.Scoped xs
  | .named name params _, xs => by simp [value, Scoped, scopedArgs_iff]
  | .literal l, _ => by simp [value, Scoped]
  | .slot _, _ => by simp [value, identityExpr, Scoped, ScopedArgs]
  | .tuple parts [] _, xs => by
    simp only [value, Scoped, scopedList_iff]
    exact valueParts_scoped parts
  | .tuple parts (_ :: _) _, xs => by
    simp only [value, Scoped, scopedList_iff]
    exact callParts_scoped parts (by simp [Scoped])
  | .bound base bindings _ _, xs => by
    have hargs : ∀ e, some e ∈ fill (valueBindings bindings) (List.range base.arity) [] → e.Scoped xs :=
      fun e he => (fill_mem he).elim (fun hmem => by cases hmem) fun ⟨i, hi⟩ => valueBindings_scoped bindings (i, e) hi
    unfold value
    dsimp only
    split
    · simpa [Scoped, scopedArgs_iff] using hargs
    · exact call_scoped base fun e he => hargs e (by simpa using he)

theorem valueParts_scoped : ∀ (parts : List Morphism) {xs : List String}, ∀ e ∈ valueParts parts, e.Scoped xs
  | [], _, e, he => by cases he
  | f :: fs, xs, e, he => by
    rcases List.mem_cons.1 he with rfl | he
    · exact value_scoped f
    · exact valueParts_scoped fs e he

theorem valueBindings_scoped : ∀ (bindings : List (Nat × Morphism)) {xs : List String},
    ∀ x ∈ valueBindings bindings, x.2.Scoped xs
  | [], _, x, hx => by cases hx
  | (i, f) :: rest, xs, x, hx => by
    rcases List.mem_cons.1 hx with rfl | hx
    · exact value_scoped f
    · exact valueBindings_scoped rest x hx

end

theorem spread?_some {params : List Ty} {ty : Ty} {s : Subst} (h : spread? params ty = some s) :
    ∃ items, ty = .tuple items ∧ params.length = items.length := by
  unfold spread? at h
  split at h
  · rename_i items
    split at h
    · rename_i hlen
      exact ⟨items, rfl, hlen.2⟩
    · cases h
  · cases h

end Morphism

/-- A morphism that is applied to a node reads the variables of the node. -/
theorem Morphism.applyTo_scoped {p : Program} {n : Nat} {f : Morphism} {e : Expr} {out : Ty}
    (h : f.applyTo (nodeVar n) (p.node n).ty = .ok (e, out)) : e.Scoped (p.vars n) := by
  have hvar : Expr.Scoped (p.vars n) (.var (nodeVar n)) := by simp [Expr.Scoped, Program.vars]
  unfold applyTo at h
  split at h
  · cases h
    exact hvar
  · split at h
    · cases h
      exact value_scoped f
    · rename_i param params _
      split at h
      · rename_i hspread
        obtain ⟨items, hty, hlen⟩ := spread?_some hspread
        cases h
        refine call_scoped f fun e he => ?_
        obtain ⟨k, hk, rfl⟩ := List.mem_map.1 he
        rw [List.mem_range] at hk
        simp only [List.length_cons] at hlen
        simp only [Expr.Scoped, Program.vars, hty, List.mem_cons, List.mem_map, List.mem_range]
        exact Or.inr ⟨k, by omega, rfl⟩
      · split at h
        · cases h
          exact call_scoped f fun e he => by rwa [List.mem_singleton.1 he]
        · cases h

namespace Program

variable {p : Program}

theorem arrowExpr_scoped {a : Arrow} {e : Expr} (h : p.arrowExpr a = .ok e) : e.Scoped (p.vars a.source) := by
  obtain ⟨_, happly⟩ := arrowExpr_ok h
  exact Morphism.applyTo_scoped happly

end Program

theorem Brancher.Labelled.scoped {p : Program} {n : Nat} {b : Brancher} {label : BranchLabel}
    (h : b.Labelled n (p.node n).ty label) : label.Scoped (p.vars n) := by
  cases h with
  | any => trivial
  | pattern pat => exact p.nodeVar_mem_vars n
  | guard test e out happly => exact Morphism.applyTo_scoped happly

theorem pinLabels_scoped {p : Program} {n : Nat} {labels : List BranchLabel}
    (h : pinLabels n (p.node n).ty 0 (p.node n).pins = .ok labels) : ∀ l ∈ labels, l.Scoped (p.vars n) := by
  intro l hl
  obtain ⟨k, hk, rfl⟩ := List.getElem_of_mem hl
  have hall := pinLabels_ok h
  exact (hall.get (by rw [hall.length_eq]; exact hk) hk).scoped

/-! ## Events read what has a value -/

namespace WalkEvent

variable {p : Program} {s : Seed}

theorem unpackSteps_scoped {n : Nat} {bound : List String} (h : nodeVar n ∈ bound) :
    Body.StepsScoped bound (unpackSteps p n) := by
  unfold unpackSteps
  split
  · exact ⟨h, trivial⟩
  · trivial

theorem bindSteps_scoped {n : Nat} {e : Expr} {bound : List String} (h : e.Scoped bound) :
    Body.StepsScoped bound (bindSteps p n e) :=
  ⟨h, unpackSteps_scoped (by simp [Step.binds])⟩

theorem vars_eq (p : Program) (n : Nat) : p.vars n = nodeVar n :: (unpackSteps p n).flatMap Step.binds := by
  unfold Program.vars unpackSteps
  cases (p.node n).ty <;> simp [Step.binds]

theorem bindSteps_binds (n : Nat) (e : Expr) : (bindSteps p n e).flatMap Step.binds = p.vars n := by
  rw [vars_eq]
  rfl

/-- The steps of an event bind the variables of its node; a parameter is bound already. -/
theorem steps_binds (hr : s.Rooted p) {e : WalkEvent} {n : Nat} (hnode : e.node? p = some n)
    (hroot : ∀ i, e = .root i → i ∈ s.roots) {x : String} (hx : x ∈ p.vars n) :
    x ∈ s.param.toList.map nodeVar ++ (e.steps p s).flatMap Step.binds := by
  cases e <;> simp only [node?, reduceCtorEq, Option.some.injEq] at hnode
  · rename_i i
    subst hnode
    rcases hr.start with ⟨j, hroots, hparam⟩ | ⟨hparam, hunit⟩
    · obtain rfl : i = j := by simpa [hroots] using hroot i rfl
      rw [vars_eq] at hx
      simpa [steps, hparam] using hx
    · have hty := hunit i (hroot i rfl)
      simpa [steps, hparam, Program.vars, hty, Step.binds] using hx
  · subst hnode
    simp [steps, bindSteps_binds, hx]
  · subst hnode
    simp [steps, bindSteps_binds, hx]

end WalkEvent

namespace History

open Events

variable {p : Program} {s : Seed} {h : Events} {q : Condition} {bound : List String}

/-- The variables of all nodes that have a value on the path are bound. -/
def Covers (p : Program) (q : Condition) (h : Events) (bound : List String) : Prop :=
  ∀ n, Bound p (· ∈ q.literals) h n → p.vars n ⊆ bound

/-- The steps of an event that holds on the path read nodes that have a value there. -/
theorem steps_scoped (hist : History p s h) (hr : s.Rooted p) (hcovers : Covers p q h bound)
    (hparam : s.param.toList.map nodeVar ⊆ bound) {e : WalkEvent} (allowed : h.Allowed p s e)
    (holds : OnPath q e.condition) : Body.StepsScoped bound (e.steps p s) := by
  have hnode : ∀ {n : Nat}, p.vars n ⊆ bound → nodeVar n ∈ bound := fun hsub => hsub (by simp [Program.vars])
  cases e with
  | root i =>
    rcases hr.start with ⟨j, hroots, hj⟩ | ⟨hnone, _⟩
    · obtain rfl : i = j := by simpa [hroots] using allowed.1
      simp only [WalkEvent.steps, hj]
      exact WalkEvent.unpackSteps_scoped (hparam (by simp [hj]))
    · simp only [WalkEvent.steps, hnone]
      exact ⟨trivial, trivial⟩
  | bring a c e =>
    obtain ⟨_, hleaves, _, _, hexpr, _⟩ := allowed
    have hsource := hcovers _ (hist.leaves_bound hleaves holds)
    exact WalkEvent.bindSteps_scoped ((Program.arrowExpr_scoped hexpr).mono hsource)
  | meet n c items =>
    obtain ⟨⟨_, _, hc, slots, hslots, rfl⟩, _⟩ := allowed
    refine WalkEvent.bindSteps_scoped (Expr.scopedList_iff.2 fun e he => ?_)
    obtain ⟨x, hx, rfl⟩ := List.mem_map.1 he
    rcases Program.slotExprs_mem hslots x hx with hx | ⟨b, hb, _, hxb⟩
    · cases hx
    · obtain ⟨y, hy, rfl⟩ := List.mem_map.1 hb
      -- the condition of the intersection is the conjunction of those of its inputs
      have hyc : OnPath q y.2 := by
        simp only [WalkEvent.condition, hc, OnPath, Condition.holdsOn_foldl_and] at holds
        exact holds.2 y.2 (List.mem_map_of_mem hy)
      have hl := (hist.followed_leaves (mem_arrivals.1 hy).1).2
      rw [hxb]
      exact hnode (hcovers _ (hist.leaves_bound hl hyc))
  | sink n c => exact ⟨hnode (hcovers n (hist.ready_bound allowed.1 holds)), trivial⟩
  | feed a c => trivial
  | pass n c => trivial
  | fork n c labels next => trivial

/-- The labels of a fork read its node. -/
theorem labels_scoped (hist : History p s h) (hcovers : Covers p q h bound) {n : Nat} {c : Condition}
    {labels : List BranchLabel} {next : Nat} (allowed : h.Allowed p s (.fork n c labels next))
    (holds : OnPath q c) : ∀ l ∈ labels, l.Scoped bound := by
  intro l hl
  have hsub := hcovers n (hist.ready_bound allowed.1 holds)
  have hscoped := pinLabels_scoped allowed.2.2.2.2.1 l hl
  cases l with
  | otherwise => trivial
  | pattern x pat ty => exact hsub hscoped
  | guard e => exact hscoped.mono hsub

/-- What an event adds to the path reads what is bound, and binds the node that gets a value. -/
theorem added_scoped (hp : p.Consistent) (hist : History p s h) (hr : s.Rooted p) (hq : q.IsPath)
    (hcovers : Covers p q h bound) (hparam : s.param.toList.map nodeVar ⊆ bound) {e : WalkEvent}
    (allowed : h.Allowed p s e) :
    Trail.Scoped bound (added p s q h e) ∧ Covers p q (e :: h) (bound ++ Trail.binds (added p s q h e)) := by
  have himp := implies_iff_onPath hp hist hq allowed
  have hold : ∀ {more : List String}, ∀ n, Bound p (· ∈ q.literals) h n → p.vars n ⊆ bound ++ more :=
    fun n hb => List.subset_append_of_subset_left _ (hcovers n hb)
  cases hcond : q.implies e.condition with
  | false =>
    rw [added_eq_nil hcond]
    refine ⟨trivial, fun n hb => ?_⟩
    rcases bound_cons.1 hb with hb | ⟨_, holds⟩
    · exact hold n hb
    · rw [himp.2 holds] at hcond
      cases hcond
  | true =>
    have holds := himp.1 hcond
    by_cases hfork : ∃ n c labels next, e = .fork n c labels next
    · obtain ⟨n, c, labels, next, rfl⟩ := hfork
      rw [added_eq_choice (c := c) hcond]
      refine ⟨⟨hist.labels_scoped hcovers allowed holds, trivial⟩, fun m hb => ?_⟩
      rcases bound_cons.1 hb with hb | ⟨hnode, _⟩
      · exact hold m hb
      · cases hnode
    · have hsteps := hist.steps_scoped hr hcovers hparam allowed holds
      rw [added_eq_steps hcond fun n c labels next heq => hfork ⟨n, c, labels, next, heq⟩]
      refine ⟨Trail.scoped_definitions.2 hsteps, fun m hb x hx => ?_⟩
      rcases bound_cons.1 hb with hb | ⟨hnode, _⟩
      · exact hold m hb hx
      · have hroot : ∀ i, e = .root i → i ∈ s.roots := by
          rintro i rfl
          exact allowed.1
        have hbinds := WalkEvent.steps_binds hr hnode hroot hx
        rw [Trail.binds_definitions]
        rcases List.mem_append.1 hbinds with hx | hx
        · exact List.mem_append_left _ (hparam hx)
        · exact List.mem_append_right _ hx

/-- Every path is well scoped, and as long as it has met no sink, all nodes with a value are bound. -/
theorem path_scoped (hp : p.Consistent) (hr : s.Rooted p) (hq : q.IsPath) (hist : History p s h) :
    Trail.Scoped (s.param.toList.map nodeVar) (ScopeOp.passages q 1 (h.log p s)) ∧
      (Unfinished q h → Covers p q h (s.param.toList.map nodeVar ++ Trail.binds (ScopeOp.passages q 1 (h.log p s)))) := by
  induction hist with
  | start =>
    refine ⟨trivial, fun _ n hb => ?_⟩
    cases hb <;> contradiction
  | @step e h before allowed ih =>
    by_cases hopen : Unfinished q h
    · have hadded := before.added_scoped hp hr hq (ih.2 hopen) (List.subset_append_left _ _) allowed
      rw [passages_cons hopen, Trail.scoped_append, Trail.binds_append, ← List.append_assoc]
      exact ⟨⟨ih.1, hadded.1⟩, fun _ => hadded.2⟩
    · obtain ⟨n, c, hsink, himp⟩ : ∃ n c, .sink n c ∈ h ∧ q.implies c = true := by
        simpa [Unfinished] using hopen
      rw [passages_cons_finished hsink himp]
      refine ⟨ih.1, fun hopen' => ?_⟩
      rw [hopen' n c (List.mem_cons_of_mem e hsink)] at himp
      cases himp

end History

/-- The body of a planned function is well scoped. -/
theorem Planned.wellScoped {p : Program} (hp : p.Consistent) {s : Seed} {f : FunctionPlan} {h : Events}
    (hf : Planned p s f h) : Body.WellScoped f.param.toList f.body := by
  have hparam : f.param.toList = s.param.toList.map nodeVar := by
    rw [hf.param]
    cases s.param <;> rfl
  refine Body.wellScoped_of_trails fun τ hτ => ?_
  obtain ⟨q, hq, rfl⟩ := hf.trail hp hτ
  rw [hparam]
  exact (hf.history.path_scoped hp hf.rooted hq.isPath).1

end Dataflow
