import Dataflow.Proofs.Decision
import Dataflow.Proofs.Declared
import Dataflow.Proofs.Yields

/-!
# Planned functions keep to their types

A function of a plan that is called with a value of its parameter type gives a value of its result
type, if it gives one (`Program.plan_sound`). The argument follows the evaluator: every step of a body
is typed, so the variables of a block hold values of the types of their nodes, and calls inside each
other keep to the types of the functions by induction on how deep they nest.
-/

namespace Dataflow

/-! ## Types of data -/

namespace Ty

mutual

/-- A type of data: numbers, characters, truth values, the unit value, texts, and tuples of at least
two such types. -/
def isData : Ty → Bool
  | .atom a => a ≠ .source && a ≠ .target
  | .tuple ts => 2 ≤ ts.length && areData ts
  | .con x args => x = "String" && args.isEmpty
  | .var _ => false
  | .func _ _ => false
termination_by structural t => t

def areData : List Ty → Bool
  | [] => true
  | t :: ts => isData t && areData ts
termination_by structural ts => ts

end

variable {ρ : String → Ty}

mutual

theorem inst_of_isData : ∀ {t : Ty}, t.isData = true → t.inst ρ = t
  | .atom _, _ => rfl
  | .tuple ts, h => by
    simp only [isData, Bool.and_eq_true] at h
    rw [inst, instList_of_areData h.2]
  | .con x args, h => by
    simp only [isData, Bool.and_eq_true, List.isEmpty_iff] at h
    rw [h.2]
    rfl

theorem instList_of_areData : ∀ {ts : List Ty}, areData ts = true → instList ρ ts = ts
  | [], _ => rfl
  | t :: ts, h => by
    simp only [areData, Bool.and_eq_true] at h
    rw [instList, inst_of_isData h.1, instList_of_areData h.2]

end

/-- What a substitution does is what putting in its types does. -/
theorem apply_eq_inst (s : Subst) (t : Ty) : s.apply t = t.inst fun x => (s.get? x).getD (.var x) := by
  have h := inst_apply (ρ := .var) s t
  simpa only [inst_var] using h

theorem areData_iff {ts : List Ty} : areData ts = true ↔ ∀ t ∈ ts, t.isData = true := by
  induction ts with
  | nil => simp [areData]
  | cons t ts ih => simp [areData, ih]

end Ty

/-! ## Variables -/

/-- The type of a variable: that of its node, or that of a component. -/
inductive Program.VarTy (p : Program) : String → Ty → Prop where
  | node (n : Nat) : VarTy p (nodeVar n) (p.node n).ty
  | component {n k : Nat} {items : List Ty} {t : Ty} (hty : (p.node n).ty = .tuple items) (ht : items[k]? = some t) :
      VarTy p (componentVar (nodeVar n) k) t

theorem Program.VarTy.of_node {p : Program} {n : Nat} {t : Ty} (h : p.VarTy (nodeVar n) t) : t = (p.node n).ty := by
  generalize hx : nodeVar n = x at h
  cases h with
  | node m => rw [nodeVar_injective hx]
  | component => exact absurd hx.symm (componentVar_ne_nodeVar _ _ _)

theorem Program.VarTy.of_component {p : Program} {n k : Nat} {items : List Ty} {t : Ty}
    (h : p.VarTy (componentVar (nodeVar n) k) t) (hty : (p.node n).ty = .tuple items) : items[k]? = some t := by
  generalize hx : componentVar (nodeVar n) k = x at h
  cases h with
  | node m => exact absurd hx (componentVar_ne_nodeVar _ _ _)
  | component hty' ht =>
    obtain ⟨rfl, rfl⟩ := componentVar_injective hx
    rw [hty] at hty'
    cases hty'
    exact ht

namespace Env

variable {p : Program} {env : Env}

/-- Every variable that is bound holds a value of its type. -/
def Fits (p : Program) (env : Env) : Prop := ∀ x t v, p.VarTy x t → env.find? x = some v → v.inhabits t = true

theorem value_ok {x : String} {v : Value} (h : env.value x = .ok v) : env.find? x = some v := by
  unfold value at h
  split at h
  · rename_i u hu
    cases h
    exact hu
  · cases h

theorem fits_start : Env.start.Fits p := by
  intro x t v _ h
  simp [find?, start, Assoc.get?] at h

theorem Fits.enter (h : env.Fits p) : env.enter.Fits p := by
  intro x t v ht hv
  rw [find?_enter] at hv
  exact h x t v ht hv

theorem Fits.add (h : env.Fits p) {x : String} {v : Value} (hv : ∀ t, p.VarTy x t → v.inhabits t = true) :
    (env.add x v).Fits p := by
  intro y t u ht hu
  rw [find?_add] at hu
  split at hu
  · rename_i heq
    cases hu
    exact hv t (heq ▸ ht)
  · exact h y t u ht hu

theorem Fits.addAll {vars : List (String × Value)} (h : env.Fits p)
    (hvars : ∀ x ∈ vars, ∀ t, p.VarTy x.1 t → x.2.inhabits t = true) : (env.addAll vars).Fits p := by
  induction vars generalizing env with
  | nil => exact h
  | cons x vars ih => exact ih (h.add (hvars x (by simp))) fun y hy => hvars y (by simp [hy])

end Env

/-! ## What the steps of a body are made of -/

section
variable {invoke : String → List Value → Outcome} {env : Env} {p : Program}

open Eval

theorem Env.Fits.yields (h : env.Fits p) {x : String} {t : Ty} (ht : p.VarTy x t) : Yields invoke env (.var x) t :=
  fun v hv => h x t v ht (var_ok hv)

theorem Morphism.spread?_matches {params : List Ty} {ty : Ty} {s : Subst} (h : spread? params ty = some s) :
    ∃ items, ty = .tuple items ∧ params.length = items.length ∧
      ∀ (k : Nat) (param t : Ty), params[k]? = some param → items[k]? = some t → s.apply param = t := by
  have happly : s.apply (.tuple params) = ty := Ty.matching_ok (spread?_iff.1 h).2
  refine ⟨s.applyList params, happly.symm, (s.length_applyList params).symm, fun k param t hparam ht => ?_⟩
  rw [s.applyList_eq_map, List.getElem?_map, hparam] at ht
  exact Option.some_inj.1 ht

/-- A morphism applied to a node gives a value of the type that comes out. -/
theorem Morphism.applyTo_yields {f : Morphism} (hf : f.Formed (Keeps invoke)) (hwide : f.isWide = true)
    (henv : env.Fits p) {n : Nat} {e : Expr} {out : Ty} (h : f.applyTo (nodeVar n) (p.node n).ty = .ok (e, out)) :
    Yields invoke env e out := by
  unfold applyTo at h
  split at h
  · cases h
    exact henv.yields (.node n)
  · split at h
    · rename_i hparams
      cases h
      have hvalue : Yields invoke env f.value _ := value_yields f (ρ := .var) hf hwide
      rwa [Ty.inst_var, purified, hparams] at hvalue
    · rename_i param params hparams
      split at h
      · -- a tuple gives each parameter one of its components
        rename_i s hspread
        obtain ⟨items, hty, hlen, hmatch⟩ := spread?_matches hspread
        cases h
        have hall : f.params.length = params.length + 1 := by rw [hparams]; rfl
        have hdrop : f.params.drop (params.length + 1) = [] := List.drop_eq_nil_of_le (Nat.le_of_eq hall)
        have hcall : Yields invoke env (f.call _) _ := call_yields f (ρ := fun x => (s.get? x).getD (.var x))
          ((List.range (params.length + 1)).map fun k => Expr.var (componentVar (nodeVar n) k)) hf hwide (by simp)
          (by simp [arity, hall]) fun k e t he ht => ?_
        · rw [List.length_map, List.length_range, hdrop, ← Ty.apply_eq_inst] at hcall
          exact hcall
        · obtain ⟨hk, rfl⟩ : k < params.length + 1 ∧ Expr.var (componentVar (nodeVar n) k) = e := by
            simpa [List.getElem?_eq_some_iff] using he
          rw [List.length_cons] at hlen
          have hitem : items[k]? = some items[k] := List.getElem?_eq_getElem (by omega)
          rw [← Ty.apply_eq_inst, hmatch k t items[k] (hparams ▸ ht) hitem]
          exact henv.yields (.component hty hitem)
      · split at h
        · rename_i s hs
          cases h
          have hcall : Yields invoke env (f.call _) _ := call_yields f (ρ := fun x => (s.get? x).getD (.var x))
            [.var (nodeVar n)] hf hwide (by simp) (by simp [arity, hparams]) fun k e t he ht => ?_
          · rwa [List.length_singleton, List.drop_one, ← Ty.apply_eq_inst] at hcall
          · obtain ⟨rfl, rfl⟩ : k = 0 ∧ Expr.var (nodeVar n) = e := by simpa [List.getElem?_singleton] using he
            obtain rfl : param = t := by simpa [hparams] using ht
            rw [← Ty.apply_eq_inst, Ty.matching_ok hs]
            exact henv.yields (.node n)
        · cases h

/-- An arrow brings its target a value of the target's type. -/
theorem Program.arrowExpr_yields {a : Arrow} (hf : a.morphism.Formed (Keeps invoke)) (hwide : a.morphism.isWide = true)
    (henv : env.Fits p) {e : Expr} (h : p.arrowExpr a = .ok e) : Yields invoke env e (p.node a.target).ty := by
  obtain ⟨out, s, happly, hs⟩ := arrowExpr_matching h
  intro v hv
  rw [← Ty.matching_ok hs, Ty.apply_eq_inst]
  exact Value.inhabits_inst (a.morphism.applyTo_yields hf hwide henv happly v hv)

/-- An intersection into a tuple of two components or more has the type of the tuple. -/
theorem Events.Met.yields (hp : p.Consistent) {s : Seed} {h : Events} (hist : History p s h) {n : Nat} {c : Condition}
    {items : List Expr} (hmet : Met p h n c items) (hdata : (p.node n).ty.isData = true)
    (hwide : 2 ≤ (p.node n).ty.components.length) (henv : env.Fits p) :
    Yields invoke env (.tuple items) (p.node n).ty := by
  obtain ⟨types, hty⟩ : ∃ types, (p.node n).ty = .tuple types := by
    cases hty : (p.node n).ty with
    | tuple types => exact ⟨types, rfl⟩
    | atom a | con x args | var x | func a b =>
      rw [hty] at hwide
      exact absurd hwide (by simp [Ty.components])
  have hpos := hist.met_positional hp hmet
  obtain ⟨slots, hslots, rfl⟩ := hmet.items
  obtain ⟨hlen, hplace⟩ := Program.slotExprs_place hp hpos (hist.arrivals_perm hp hmet.all)
    (by rw [List.map_map]; exact hslots)
  have hcount := (Program.slots_filled hp hpos).2.2.2
  rw [hty] at hcount hdata ⊢
  simp only [Ty.isData, Bool.and_eq_true] at hdata
  refine Yields.tuple (List.forall₂_iff_get.2 ⟨by simpa [hlen, Ty.components] using hcount, fun k hk hk' => ?_⟩)
  obtain ⟨a, ha, hslot, he⟩ := hplace k _ (List.getElem?_eq_getElem hk)
  have hmem : p.arrow a ∈ (h.arrivals p n).map fun x => p.arrow x.1 := by
    obtain ⟨x, hx, rfl⟩ := List.mem_map.1 ((hist.arrivals_perm hp hmet.all).symm.subset ha)
    exact List.mem_map_of_mem hx
  obtain ⟨σ, hσ⟩ := Program.slotExprs_matching hslots (p.arrow a) hmem k hslot
  have hsource := Ty.matching_ok hσ
  rw [hty, Ty.components, List.getD_eq_getElem?_getD, List.getElem?_eq_getElem hk', Option.getD_some,
    Ty.apply_eq_inst, Ty.inst_of_isData (Ty.areData_iff.1 hdata.2 _ (List.getElem_mem hk'))] at hsource
  rw [List.get_eq_getElem, List.get_eq_getElem, he, hsource]
  exact henv.yields (.node _)

end

/-! ## Running bodies -/

/-- A step gives the variables that it binds values of their types, and a result is of the given type. -/
def Step.Typed (p : Program) (result : Ty) (eval : Env → Expr → Outcome) : Step → Prop
  | .bind x _ e => ∀ env v, env.Fits p → eval env e = .ok v → ∀ t, p.VarTy x t → v.inhabits t = true
  | .unpack x xs _ => ∃ n items, x = nodeVar n ∧ (p.node n).ty = .tuple items ∧
      xs = (List.range items.length).map (componentVar x)
  | .result e => ∀ env v, env.Fits p → eval env e = .ok v → v.inhabits result = true

namespace Eval

variable {p : Program} {result : Ty} {eval : Env → Expr → Outcome}

/-- The components of a tuple have the types of its components. -/
theorem unpack_fits {env : Env} (henv : env.Fits p) {n : Nat} {items : List Ty} (hty : (p.node n).ty = .tuple items)
    {vs : List Value} (hvs : List.Forall₂ (fun v t => v.inhabits t = true) vs items) :
    (env.addAll (((List.range items.length).map (componentVar (nodeVar n))).zip vs)).Fits p := by
  refine henv.addAll fun x hx t ht => ?_
  obtain ⟨k, hk⟩ := List.mem_iff_getElem?.1 hx
  rw [List.getElem?_zip_eq_some] at hk
  obtain ⟨hlt, hname⟩ : k < items.length ∧ componentVar (nodeVar n) k = x.1 := by
    simpa [List.getElem?_eq_some_iff] using hk.1
  obtain ⟨hltv, hv⟩ := List.getElem?_eq_some_iff.1 hk.2
  rw [← hname] at ht
  have hitem := ht.of_component hty
  rw [List.getElem?_eq_getElem hlt] at hitem
  rw [← hv, ← Option.some.inj hitem]
  exact hvs.get hltv hlt

theorem steps_typed : ∀ {ds : List Step} {env : Env} {r : Value ⊕ Env}, (∀ d ∈ ds, d.Typed p result eval) →
    env.Fits p → steps eval env ds = .ok r → r.elim (fun v => v.inhabits result = true) (Env.Fits p)
  | [], env, r, _, henv, h => by
    cases h
    exact henv
  | .bind x ty e :: rest, env, r, hds, henv, h => by
    unfold steps at h
    split at h
    · rename_i v hv
      have hfirst := hds _ List.mem_cons_self
      exact steps_typed (fun d hd => hds d (by simp [hd])) (henv.add (hfirst env v henv hv)) h
    · cases h
  | .unpack x xs ty :: rest, env, r, hds, henv, h => by
    obtain ⟨n, items, rfl, hty, rfl⟩ := hds _ List.mem_cons_self
    unfold steps at h
    split at h
    · cases h
    · rename_i vs hvs
      split at h
      · have hvalue : (Value.tuple vs).inhabits (.tuple items) = true := hty ▸ henv _ _ _ (.node n) (Env.value_ok hvs)
        exact steps_typed (fun d hd => hds d (by simp [hd])) (unpack_fits henv hty (Value.inhabitsAll_iff.1 hvalue)) h
      · cases h
    · cases h
  | .result e :: rest, env, r, hds, henv, h => by
    unfold steps at h
    split at h
    · rename_i v hv
      cases h
      have hfirst := hds _ List.mem_cons_self
      exact hfirst env v henv hv
    · cases h

mutual

theorem block_typed {function : String} : ∀ {b : Body} {env : Env} {v : Value},
    (∀ c ∈ b.blocks, ∀ d ∈ c.definitions, d.Typed p result eval) → env.Fits p → block eval function env b = .ok v →
      v.inhabits result = true
  | .mk ds branches, env, v, hb, henv, h => by
    have hds : ∀ d ∈ ds, d.Typed p result eval := hb (.mk ds branches) (by simp [Block.blocks])
    unfold block at h
    split at h
    · cases h
    · rename_i u hu
      cases h
      exact steps_typed hds henv.enter hu
    · rename_i env' henv'
      have hfits : env'.Fits p := steps_typed hds henv.enter henv'
      exact branches_typed (fun c hc => hb c (by simp [Block.blocks, hc])) hfits h

theorem branches_typed {function : String} : ∀ {branches : List (BranchLabel × Body)} {env : Env} {v : Value},
    (∀ c ∈ Block.branchBlocks branches, ∀ d ∈ c.definitions, d.Typed p result eval) → env.Fits p →
      blockBranches eval function env branches = .ok v → v.inhabits result = true
  | [], _, _, _, _, h => by cases h
  | (label, b) :: rest, env, v, hb, henv, h => by
    unfold blockBranches at h
    split at h
    · cases h
    · exact block_typed (fun c hc => hb c (by simp [Block.branchBlocks, hc])) henv h
    · exact branches_typed (fun c hc => hb c (by simp [Block.branchBlocks, hc])) henv h

end

end Eval

/-! ## The steps of a planned function -/

namespace Block

variable {δ ℓ : Type}

mutual

/-- Every definition is on the way to a leaf. -/
theorem mem_trails : ∀ {b c : Block δ ℓ}, c ∈ b.blocks → ∀ d ∈ c.definitions, ∃ τ ∈ b.trails, d ∈ τ.definitions
  | .mk ds branches, c, hc, d, hd => by
    have hhere : ∀ τ : Trail δ ℓ, d ∈ ds ∨ d ∈ τ.definitions →
        d ∈ Trail.definitions (ds.map Passage.definition ++ τ) := by
      intro τ hmem
      rw [Trail.definitions_append, List.mem_append]
      exact hmem.imp_left fun hmem => by simpa [Trail.definitions, Passage.definition?] using hmem
    simp only [blocks, List.mem_cons] at hc
    rcases hc with rfl | hc
    · obtain ⟨τ, hτ⟩ := List.exists_mem_of_ne_nil _ (trails_ne_nil (.mk ds branches))
      refine ⟨τ, hτ, ?_⟩
      unfold trails at hτ
      split at hτ
      · rw [List.mem_singleton.1 hτ]
        simpa using hhere [] (Or.inl hd)
      · obtain ⟨σ, _, rfl⟩ := List.mem_map.1 hτ
        exact hhere σ (Or.inl hd)
    · obtain ⟨τ, hτ, hmem⟩ := mem_branchTrails (branches.map (·.1)) 0 hc d hd
      refine ⟨_, ?_, hhere τ (Or.inr hmem)⟩
      cases branches with
      | nil => cases hc
      | cons branch rest =>
        simp only [trails, List.isEmpty_cons, Bool.false_eq_true, if_false]
        exact List.mem_map_of_mem hτ

theorem mem_branchTrails (labels : List ℓ) : ∀ (k : Nat) {branches : List (ℓ × Block δ ℓ)} {c : Block δ ℓ},
    c ∈ branchBlocks branches → ∀ d ∈ c.definitions, ∃ τ ∈ branchTrails labels k branches, d ∈ τ.definitions
  | k, (l, b) :: rest, c, hc, d, hd => by
    simp only [branchBlocks, List.mem_append] at hc
    rcases hc with hc | hc
    · obtain ⟨τ, hτ, hmem⟩ := mem_trails hc d hd
      refine ⟨.choice labels k :: τ, ?_, hmem⟩
      simp [branchTrails, hτ]
    · obtain ⟨τ, hτ, hmem⟩ := mem_branchTrails labels (k + 1) hc d hd
      exact ⟨τ, by simp [branchTrails, hτ], hmem⟩

end

end Block

theorem ScopeOp.mem_placed {δ ℓ : Type} {s : Condition} {d : δ} : ∀ {ops : List (ScopeOp δ ℓ)}, d ∈ placed s ops →
    ∃ c, .define c d ∈ ops
  | .define c d' :: rest, h => by
    unfold placed at h
    split at h
    · rcases List.mem_cons.1 h with rfl | h
      · exact ⟨c, List.mem_cons_self⟩
      · exact (mem_placed h).imp fun _ hmem => List.mem_cons_of_mem _ hmem
    · exact (mem_placed h).imp fun _ hmem => List.mem_cons_of_mem _ hmem
  | .fork c labels :: rest, h => by
    have h : d ∈ placed s rest := h
    exact (mem_placed h).imp fun _ hmem => List.mem_cons_of_mem _ hmem
  | .close c :: rest, h => by
    unfold placed at h
    split at h
    · cases h
    · exact (mem_placed h).imp fun _ hmem => List.mem_cons_of_mem _ hmem

theorem Events.define_mem_log {p : Program} {s : Seed} {c : Condition} {d : Step} : ∀ {h : Events},
    .define c d ∈ h.log p s → ∃ e ∈ h, d ∈ e.steps p s
  | e :: h, hmem => by
    rw [log_cons, List.mem_append] at hmem
    rcases hmem with hmem | hmem
    · obtain ⟨e', he', hd⟩ := define_mem_log hmem
      exact ⟨e', List.mem_cons_of_mem e he', hd⟩
    · refine ⟨e, List.mem_cons_self, ?_⟩
      cases e <;> simp_all [WalkEvent.ops, WalkEvent.steps]

/-- Every step of a planned function was added by an event of its history. -/
theorem Planned.mem_steps {p : Program} (hp : p.Consistent) {s : Seed} {f : FunctionPlan} {h : Events}
    (hf : Planned p s f h) {c : Body} (hc : c ∈ f.body.blocks) {d : Step} (hd : d ∈ c.definitions) :
    ∃ e ∈ h, d ∈ e.steps p s := by
  obtain ⟨τ, hτ, hmem⟩ := Block.mem_trails hc d hd
  obtain ⟨q, _, rfl⟩ := hf.trail hp hτ
  rw [ScopeOp.passages_definitions] at hmem
  obtain ⟨c, hdefine⟩ := ScopeOp.mem_placed hmem
  exact Events.define_mem_log hdefine

section
variable {invoke : String → List Value → Outcome} {p : Program} {result : Ty}

theorem WalkEvent.unpackSteps_typed (n : Nat) : ∀ d ∈ unpackSteps p n, d.Typed p result (Eval.expr invoke) := by
  intro d hd
  unfold unpackSteps at hd
  split at hd
  · rename_i items hty
    rw [List.mem_singleton.1 hd]
    exact ⟨n, items, rfl, hty, rfl⟩
  · cases hd

theorem WalkEvent.bindSteps_typed {n : Nat} {e : Expr}
    (h : ∀ env : Env, env.Fits p → Eval.Yields invoke env e (p.node n).ty) :
    ∀ d ∈ bindSteps p n e, d.Typed p result (Eval.expr invoke) := by
  intro d hd
  rcases List.mem_cons.1 hd with rfl | hd
  · intro env v henv hv t ht
    rw [ht.of_node]
    exact h env henv v hv
  · exact unpackSteps_typed n d hd

/-- The steps of a planned function are typed if the morphisms of the graph keep to their types. -/
theorem Planned.typed (hp : p.Consistent) (hdata : ∀ n ∈ p.nodes, n.ty.isData = true)
    (hwide : ∀ a ∈ p.arrows, a.morphism.isWide = true)
    (hmeet : ∀ a ∈ p.arrows, a.isPositional = true → 2 ≤ (p.node a.target).ty.components.length)
    (hformed : ∀ a ∈ p.arrows, a.isPositional = false → a.morphism.Formed (Keeps invoke))
    {s : Seed} {f : FunctionPlan} {h : Events}
    (hf : Planned p s f h) {e : WalkEvent} (he : e ∈ h) :
    ∀ d ∈ e.steps p s, d.Typed p f.resultType (Eval.expr invoke) := by
  obtain ⟨_, before, rfl, hbefore, hallowed⟩ := hf.history.exists_allowed he
  have hmem : ∀ a < p.arrows.length, p.arrow a ∈ p.arrows := fun a ha => by
    rw [Program.arrow_of_lt ha]
    exact List.getElem_mem ha
  cases e with
  | root i =>
    cases hparam : s.param with
    | some j =>
      simp only [WalkEvent.steps, hparam]
      exact WalkEvent.unpackSteps_typed i
    | none =>
      have hunit : (p.node i).ty = .unit := by
        rcases hf.rooted.start with ⟨j, _, hj⟩ | ⟨_, hunit⟩
        · rw [hparam] at hj
          cases hj
        · exact hunit i hallowed.1
      simp only [WalkEvent.steps, hparam, List.mem_singleton, forall_eq]
      intro env v henv hv t ht
      cases hv
      rw [ht.of_node, hunit]
      rfl
  | bring a c x =>
    obtain ⟨ha, _, _, hpos, hexpr, _⟩ := hallowed
    exact WalkEvent.bindSteps_typed fun env henv =>
      Program.arrowExpr_yields (hformed _ (hmem a ha) hpos) (hwide _ (hmem a ha)) henv hexpr
  | meet n c items =>
    obtain ⟨a, ha, hpos⟩ := History.met_positional hp hbefore hallowed.1
    obtain ⟨hlt, htarget⟩ := (History.mem_incoming hp).1 ha
    have hn : (p.node n) ∈ p.nodes := by
      have hrange := (hp.ends a hlt).2.1
      rw [htarget] at hrange
      rw [Program.node_of_lt hrange]
      exact List.getElem_mem hrange
    exact WalkEvent.bindSteps_typed fun env henv =>
      hallowed.1.yields hp hbefore (hdata _ hn) (htarget ▸ hmeet _ (hmem a hlt) hpos) henv
  | sink n c =>
    simp only [WalkEvent.steps, List.mem_singleton, forall_eq]
    intro env v henv hv
    rw [← hf.result n c he]
    exact henv.yields (.node n) v hv
  | feed a c | pass n c | fork n c labels next => simp [WalkEvent.steps]

end

/-! ## Calls -/

/-- What the texts of a graph take a name for. -/
def Draft.symbol? (d : Draft) (p : Program) (name : String) : Option Symbol :=
  ((d.functions (p.nodes.map Node.ty)).find? name).or (SymbolTable.prelude.find? name)

/-- The texts of a graph and its plan agree on the types of functions: what the texts take a name for
that calls a function of the plan is a function of the same type. -/
def Draft.AgreesWith (d : Draft) (p : Program) (plan : ProgramPlan) : Prop :=
  ∀ name f, plan.callee? name = some f → ∀ symbol, d.symbol? p name = some symbol →
    symbol = ⟨.function, .func f.paramType f.resultType⟩

/-- Calls of the functions of a plan keep to the types of the functions. -/
def ProgramPlan.KeptBy (plan : ProgramPlan) (call : FunctionPlan → Value → Outcome) : Prop :=
  ∀ f ∈ plan.functions, ∀ arg v, arg.inhabits f.paramType = true → call f arg = .ok v → v.inhabits f.resultType = true

theorem Draft.lookup_texts {d : Draft} {p : Program} {text name : String} {m : Morphism}
    (h : Returns (Term.lookup (d.texts .prelude p) text name) m) :
    ∃ ty, d.symbol? p name = some ⟨.function, ty⟩ ∧ m = .ofFunction name ty := by
  have hvalue : ∀ ty, d.symbol? p name ≠ some ⟨.value, ty⟩ := by
    intro ty hsymbol
    rcases Option.or_eq_some_iff.1 hsymbol with hsymbol | ⟨_, hsymbol⟩
    · obtain ⟨_, _, _, _, _, hfunction⟩ := functions_find? hsymbol
      cases hfunction
    · have hkinds : ∀ entry ∈ SymbolTable.prelude.entries, entry.2.kind ≠ .value := by decide +kernel
      exact hkinds _ (Assoc.get?_mem hsymbol) rfl
  obtain ⟨symbol, hsymbol, h⟩ := h.of_bind
  have hsymbol : symbol = d.symbol? p name := by
    unfold texts SymbolTable.shadowing SymbolTable.resolver at hsymbol
    unfold Draft.symbol?
    obtain ⟨_, _, hsymbol⟩ := hsymbol
    split at hsymbol <;> rename_i hfound <;> rw [hfound] <;> cases hsymbol <;> rfl
  subst hsymbol
  split at h
  · exact absurd h not_returns_throw
  · rename_i ty hty
    exact ⟨ty, hty, h.of_pure⟩
  · rename_i ty hty
    exact absurd hty (hvalue ty)
  · exact absurd h not_returns_throw

/-- The types of nodes hold no variables and are no functions. -/
theorem Program.node_data {p : Program} (hdata : ∀ n ∈ p.nodes, n.ty.isData = true) (ρ : String → Ty) (n : Nat) :
    (p.node n).ty.inst ρ = (p.node n).ty ∧ (p.node n).ty.isFunction = false := by
  by_cases hn : n < p.nodes.length
  · have hty := hdata _ (List.getElem_mem hn)
    rw [Program.node_of_lt hn]
    refine ⟨Ty.inst_of_isData hty, ?_⟩
    generalize p.nodes[n].ty = ty at hty
    cases ty with
    | func => cases hty
    | _ => rfl
  · have hnone : p.node n = default := by simp [Program.node, List.getD_eq_getElem?_getD, hn]
    rw [hnone]
    exact ⟨rfl, rfl⟩

theorem Ty.uncurry_of_not_function {t : Ty} (h : t.isFunction = false) : t.uncurry = ([], t) := by
  cases t with
  | func => cases h
  | _ => rfl

section
variable {d : Draft} {p : Program} {plan : ProgramPlan}

/-- Calls keep to their types if the functions of the plan do. -/
theorem Draft.AgreesWith.invoke_keeps (hread : d.readWith .prelude = .ok p) (hplan : p.plan = .ok plan)
    (hdata : ∀ n ∈ p.nodes, n.ty.isData = true) (hagrees : d.AgreesWith p plan) {call : FunctionPlan → Value → Outcome}
    (hcall : plan.KeptBy call) {apply : Value → Value → Outcome} {name : String} {ty : Ty}
    (hty : d.symbol? p name = some ⟨.function, ty⟩) :
    Keeps (Eval.invoke plan call apply) name ty.uncurry.1 ty.uncurry.2 := by
  intro ρ args v hargs hv
  unfold Eval.invoke at hv
  cases hcallee : plan.callee? name with
  | some f =>
    rw [hcallee] at hv
    dsimp only at hv
    obtain ⟨hf, _⟩ := Program.callee?_ok hcallee
    obtain ⟨s, h, hplanned⟩ := Program.plan_history (Draft.readWith_consistent hread) hplan hf
    have hparam : f.paramType.inst ρ = f.paramType := by
      rw [hplanned.paramType]
      cases s.param with
      | none => rfl
      | some i => exact (Program.node_data hdata ρ i).1
    have hresult : f.resultType.isFunction = false := by
      rcases hplanned.resultType with hunit | ⟨n, _, _, hn⟩
      · rw [hunit]
        rfl
      · rw [← hn]
        exact (Program.node_data hdata ρ n).2
    cases hagrees name f hcallee _ hty
    simp only [Ty.uncurry, Ty.uncurry_of_not_function hresult] at hargs ⊢
    rcases hargs with _ | ⟨harg, _ | _⟩
    rw [hparam] at harg
    split at hv
    · rename_i u hu
      cases hv
      exact Value.inhabits_inst (hcall f hf _ _ harg hu)
    · cases hv
  | none =>
    rw [hcallee] at hv
    dsimp only at hv
    -- a function of the graph would be one of the plan, so the name is one of the prelude
    have hprelude : SymbolTable.prelude.find? name = some ⟨.function, ty⟩ := by
      rcases Option.or_eq_some_iff.1 hty with hfound | ⟨_, hfound⟩
      · obtain ⟨i, node, hnode, hname, hfree, _⟩ := Draft.functions_find? hfound
        obtain ⟨hroot, hsame⟩ := (Draft.readsAs_of_readWith hread).root hnode hfree
        obtain ⟨f, hf⟩ := Program.plan_callee hplan hroot (hsame.trans hname)
        rw [hcallee] at hf
        cases hf
      · exact hfound
    obtain ⟨harity, hkeeps⟩ := Builtin.run_keeps hprelude
    have hlen := hargs.length_eq
    simp only [harity, ← hlen, Nat.lt_irrefl, if_false, List.take_length, List.drop_length] at hv
    split at hv
    · rename_i u hu
      cases hv
      exact hkeeps ρ args _ hargs hu
    · cases hv

/-- The morphisms of arrows are made of functions that keep to their types. -/
theorem Draft.AgreesWith.formed (hread : d.readWith .prelude = .ok p) (hplan : p.plan = .ok plan)
    (hdata : ∀ n ∈ p.nodes, n.ty.isData = true) (hagrees : d.AgreesWith p plan) {call : FunctionPlan → Value → Outcome}
    (hcall : plan.KeptBy call) {apply : Value → Value → Outcome} {a : Arrow} (ha : a ∈ p.arrows)
    (hpos : a.isPositional = false) : a.morphism.Formed (Keeps (Eval.invoke plan call apply)) := by
  refine (Morphism.read_formed (fun name m _ hm => ?_) (Draft.readWith_arrow hread ha)).resolve_left ?_
  · obtain ⟨ty, hty, rfl⟩ := Draft.lookup_texts hm
    exact hagrees.invoke_keeps hread hplan hdata hcall hty
  · rintro ⟨n, _, hslot⟩
    simp [Arrow.isPositional, hslot, Morphism.isPositional] at hpos

/-- The variables that a function starts with. -/
theorem Planned.entryEnv_fits {s : Seed} {f : FunctionPlan} {h : Events} (hf : Planned p s f h) {arg : Value}
    (harg : arg.inhabits f.paramType = true) : (Eval.entryEnv f arg).Fits p := by
  unfold Eval.entryEnv
  rw [hf.param]
  rw [hf.paramType] at harg
  cases hparam : s.param with
  | none => exact Env.fits_start
  | some i =>
    rw [hparam] at harg
    refine Env.fits_start.add fun t ht => ?_
    rw [ht.of_node]
    exact harg

/-- Calls keep to the types of the functions, however deep they may nest. -/
theorem Draft.AgreesWith.keptBy_runWithin (hread : d.readWith .prelude = .ok p) (hplan : p.plan = .ok plan)
    (hdata : ∀ n ∈ p.nodes, n.ty.isData = true) (hagrees : d.AgreesWith p plan)
    (hwide : ∀ a ∈ p.arrows, a.morphism.isWide = true)
    (hmeet : ∀ a ∈ p.arrows, a.isPositional = true → 2 ≤ (p.node a.target).ty.components.length) (nesting limit n : Nat) :
    plan.KeptBy (Eval.runWithin plan nesting limit n) := by
  have hp := Draft.readWith_consistent hread
  induction n with
  | zero =>
    intro f _ arg v _ hrun
    cases hrun
  | succ n ih =>
    intro f hf arg v harg hrun
    obtain ⟨s, h, hplanned⟩ := Program.plan_history hp hplan hf
    refine Eval.block_typed (fun c hc step hstep => ?_) (hplanned.entryEnv_fits harg) hrun
    obtain ⟨e, he, hstep⟩ := hplanned.mem_steps hp hc hstep
    -- calls run with one level less, so the functions that morphisms name keep to their types by induction
    exact hplanned.typed hp hdata hwide hmeet (fun a ha => hagrees.formed hread hplan hdata ih ha) he step hstep

end

/-! ## Graphs that can be worked out -/

namespace Draft

theorem planned?_eq_some {d : Draft} {p : Program} {plan : ProgramPlan} (h : d.planned? = some (p, plan)) :
    d.readWith .prelude = .ok p ∧ p.plan = .ok plan := by
  unfold planned? at h
  dsimp only at h
  split at h
  · cases h
  · rename_i p' hread
    split at h
    · cases h
    · rename_i plan' hplan
      cases h
      exact ⟨hread, hplan⟩

theorem exists_readWith {d : Draft} {check : Program × ProgramPlan → Bool} (h : d.planned?.any check = true) :
    ∃ p plan, d.readWith .prelude = .ok p ∧ p.plan = .ok plan ∧ check (p, plan) = true := by
  obtain ⟨⟨p, plan⟩, hplanned, hcheck⟩ := (Option.any_eq_true _ _).1 h
  obtain ⟨hread, hplan⟩ := planned?_eq_some hplanned
  exact ⟨p, plan, hread, hplan, hcheck⟩

/-- A function of a pair that calls another one, with a fork, tuples of morphisms and an intersection. -/
def doubling : Draft where
  nodes := [⟨"Int", some "double", ["_"], false⟩, ⟨"Int", none, [], true⟩,
    ⟨"(Int, Int)", some "f", ["(0, _)", "_"], false⟩, ⟨"(Int, Int)", none, [], true⟩, ⟨"Int", none, ["_"], true⟩,
    ⟨"Int", none, ["_"], true⟩, ⟨"(Int, Int)", none, ["_"], true⟩, ⟨"(Int, Int)", none, [], true⟩]
  connections := [⟨0, 1, 0, "* 2"⟩, ⟨2, 3, 0, "!(snd, fst)"⟩, ⟨2, 4, 1, "+"⟩, ⟨4, 5, 0, "double"⟩, ⟨4, 6, 0, "$0"⟩,
    ⟨5, 6, 0, "$1"⟩, ⟨6, 7, 0, "!(snd, fst)"⟩]

/-- A graph of data in which a function, called with a value of its parameter type, gives a value that
is not of its result type. -/
def Strays (d : Draft) : Prop :=
  ∃ p plan, d.readWith .prelude = .ok p ∧ p.plan = .ok plan ∧ (∀ n ∈ p.nodes, n.ty.isData = true) ∧
    ∃ f ∈ plan.functions, ∃ (limit : Nat) (arg v : Value), arg.inhabits f.paramType = true ∧
      plan.run Eval.maxNesting limit f arg = .ok v ∧ v.inhabits f.resultType = false

theorem strays_of_run {d : Draft} (arg : Value) (h : d.planned?.any (fun x =>
    x.1.nodes.all (fun n => n.ty.isData) && x.2.functions.any fun f => arg.inhabits f.paramType &&
      (x.2.run Eval.maxNesting 3 f arg).toOption.any fun v => !v.inhabits f.resultType) = true) : d.Strays := by
  obtain ⟨⟨p, plan⟩, hplanned, hcheck⟩ := (Option.any_eq_true _ _).1 h
  obtain ⟨hread, hplan⟩ := planned?_eq_some hplanned
  rw [Bool.and_eq_true, List.all_eq_true, List.any_eq_true] at hcheck
  obtain ⟨hdata, f, hf, hrun⟩ := hcheck
  rw [Bool.and_eq_true] at hrun
  obtain ⟨harg, hrun⟩ := hrun
  obtain ⟨v, hv, hstrays⟩ := Except.any_toOption.1 hrun
  exact ⟨p, plan, hread, hplan, hdata, f, hf, 3, arg, v, harg, hv, by simpa using hstrays⟩

/-- A tuple of one morphism: its type is that of its part, but its value is a tuple. -/
def lonePart : Draft where
  nodes := [⟨"Int", some "f", ["_"], false⟩, ⟨"Int", none, [], true⟩]
  connections := [⟨0, 1, 0, "!(+ 1)"⟩]

/-- An intersection of one arrow, whose value is a tuple. -/
def loneSlot : Draft where
  nodes := [⟨"Int", some "f", ["_"], false⟩, ⟨"Int", none, [], true⟩]
  connections := [⟨0, 1, 0, "$0"⟩]

/-- The texts take `f` for a function to the type of a sink that only a cycle leads to. -/
def behindCycle : Draft where
  nodes := [⟨"Int", some "f", ["_"], false⟩, ⟨"Int", none, [], true⟩, ⟨"Int", none, ["_"], true⟩,
    ⟨"Int", none, ["_"], true⟩, ⟨"Bool", none, [], true⟩, ⟨"Int", some "g", ["_"], false⟩, ⟨"Bool", none, [], true⟩]
  connections := [⟨0, 1, 0, "+ 1"⟩, ⟨0, 2, 0, "+ 2"⟩, ⟨2, 3, 0, "$"⟩, ⟨3, 2, 0, "$"⟩, ⟨2, 4, 0, "== 0"⟩, ⟨5, 6, 0, "f"⟩]

/-- The texts take `f` for the last function of that name, and the plan calls the first. -/
def namesakes : Draft where
  nodes := [⟨"Int", some "f", ["_"], false⟩, ⟨"Int", none, [], true⟩, ⟨"Int", some "f", ["_"], false⟩,
    ⟨"Bool", none, [], true⟩, ⟨"Int", some "g", ["_"], false⟩, ⟨"Bool", none, [], true⟩]
  connections := [⟨0, 1, 0, "+ 1"⟩, ⟨2, 3, 0, "== 0"⟩, ⟨4, 5, 0, "f"⟩]

/-- The plan has a function `not` from a node that takes input, which the texts do not know about. -/
def undeclared : Draft where
  nodes := [⟨"Bool", some "not", ["_"], true⟩, ⟨"Int", none, [], true⟩, ⟨"Bool", some "g", ["_"], false⟩,
    ⟨"Bool", none, [], true⟩]
  connections := [⟨0, 1, 0, "3"⟩, ⟨2, 3, 0, "not"⟩]

end Draft

namespace Program

/-- **Planned functions keep to their types.** In a graph of data, in which tuples and intersections
have two parts or more and texts and plan agree on the types of functions, a function that is called
with a value of its parameter type gives a value of its result type, if it gives one. -/
theorem plan_sound {d : Draft} {p : Program} (hread : d.readWith .prelude = .ok p) {plan : ProgramPlan}
    (hplan : p.plan = .ok plan) (hdata : ∀ n ∈ p.nodes, n.ty.isData = true)
    (hwide : ∀ a ∈ p.arrows, a.morphism.isWide = true)
    (hmeet : ∀ a ∈ p.arrows, a.isPositional = true → 2 ≤ (p.node a.target).ty.components.length)
    (hagrees : d.AgreesWith p plan) :
    ∀ f ∈ plan.functions, ∀ (nesting limit : Nat) (arg v : Value), arg.inhabits f.paramType = true →
      plan.run nesting limit f arg = .ok v → v.inhabits f.resultType = true :=
  fun f hf nesting limit arg v => hagrees.keptBy_runWithin hread hplan hdata hwide hmeet nesting limit limit f hf arg v

theorem plan_sound_doubling : ∃ p plan, Draft.doubling.readWith .prelude = .ok p ∧ p.plan = .ok plan ∧
    (∀ n ∈ p.nodes, n.ty.isData = true) ∧ (∀ a ∈ p.arrows, a.morphism.isWide = true) ∧
    (∀ a ∈ p.arrows, a.isPositional = true → 2 ≤ (p.node a.target).ty.components.length) ∧
    Draft.doubling.AgreesWith p plan ∧
    (plan.functions.map fun f => f.resultType) = [.int, .tuple [.int, .int]] ∧
    ∀ f ∈ plan.functions, ∀ (nesting limit : Nat) (arg v : Value), arg.inhabits f.paramType = true →
      plan.run nesting limit f arg = .ok v → v.inhabits f.resultType = true := by
  have hcheck : Draft.doubling.planned?.any (fun x => x.1.nodes.all (fun n => n.ty.isData) &&
      x.1.arrows.all (fun a => a.morphism.isWide && (!a.isPositional || 2 ≤ (x.1.node a.target).ty.components.length)) &&
      x.2.functions.all (fun f => (Draft.doubling.symbol? x.1 f.name).all
        (· = ⟨.function, .func f.paramType f.resultType⟩)) &&
      (x.2.functions.map fun f => f.resultType) = [.int, .tuple [.int, .int]]) = true := by decide +kernel
  obtain ⟨⟨p, plan⟩, hplanned, hcheck⟩ := (Option.any_eq_true _ _).1 hcheck
  obtain ⟨hread, hplan⟩ := Draft.planned?_eq_some hplanned
  simp only [Bool.and_eq_true, List.all_eq_true, Bool.or_eq_true, Bool.not_eq_true', decide_eq_true_eq] at hcheck
  obtain ⟨⟨⟨hdata, harrows⟩, hsymbols⟩, htypes⟩ := hcheck
  have hwide : ∀ a ∈ p.arrows, a.morphism.isWide = true := fun a ha => (harrows a ha).1
  have hmeet : ∀ a ∈ p.arrows, a.isPositional = true → 2 ≤ (p.node a.target).ty.components.length :=
    fun a ha hpos => (harrows a ha).2.resolve_left (by simp [hpos])
  have hagrees : Draft.doubling.AgreesWith p plan := by
    intro name f hf symbol hsymbol
    obtain ⟨hmem, rfl, _⟩ := callee?_ok hf
    have hall := hsymbols f hmem
    rw [hsymbol] at hall
    exact of_decide_eq_true hall
  exact ⟨p, plan, hread, hplan, hdata, hwide, hmeet, hagrees, htypes,
    plan_sound hread hplan hdata hwide hmeet hagrees⟩

/-- Without two parts in every tuple and in every intersection, or without agreement on the types of
functions, functions leave their types. -/
theorem plan_strays : Draft.lonePart.Strays ∧ Draft.loneSlot.Strays ∧ Draft.behindCycle.Strays ∧
    Draft.namesakes.Strays ∧ Draft.undeclared.Strays :=
  ⟨Draft.strays_of_run (.lit (.int 3)) (by decide +kernel), Draft.strays_of_run (.lit (.int 3)) (by decide +kernel),
    Draft.strays_of_run (.lit (.int 3)) (by decide +kernel), Draft.strays_of_run (.lit (.int 3)) (by decide +kernel),
    Draft.strays_of_run (.lit (.bool true)) (by decide +kernel)⟩

end Program

end Dataflow
