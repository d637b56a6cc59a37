import Dataflow.Eval.Run
import Dataflow.Proofs.Path

/-!
# Runs follow paths

A run that returns a value has taken one path through the body of its function: it carried out the
steps on the path, took the first branch that was open at every choice, and returned at the first
result (`block_follows`). What a run does on a path is a relation between the variables before and
after (`Follows`), so it can be cut wherever the path can.
-/

namespace Dataflow

namespace Eval

variable {eval : Env → Expr → Outcome}

/-- Among the labels, the one at `k` is the first that is taken. -/
structure FirstTaken (eval : Env → Expr → Outcome) (env : Env) (labels : List BranchLabel) (k : Nat) : Prop where
  taken : ∃ l, labels[k]? = some l ∧ select eval env l = .ok true
  refused : ∀ j < k, ∀ l, labels[j]? = some l → select eval env l = .ok false

/-- Following a path without a result, from some variables to others. -/
inductive Follows (eval : Env → Expr → Outcome) : Env → Trail Step BranchLabel → Env → Prop where
  | nil (env : Env) : Follows eval env [] env
  | bind {env last : Env} {x : String} {ty : Ty} {e : Expr} {v : Value} {τ : Trail Step BranchLabel}
      (value : eval env e = .ok v) (rest : Follows eval (env.add x v) τ last) :
      Follows eval env (.definition (.bind x ty e) :: τ) last
  | unpack {env last : Env} {x : String} {xs : List String} {ty : Ty} {items : List Value}
      {τ : Trail Step BranchLabel} (value : env.find? x = some (.tuple items)) (fits : items.length = xs.length)
      (rest : Follows eval (env.addAll (xs.zip items)) τ last) :
      Follows eval env (.definition (.unpack x xs ty) :: τ) last
  | choice {env last : Env} {labels : List BranchLabel} {k : Nat} {τ : Trail Step BranchLabel}
      (first : FirstTaken eval env labels k) (rest : Follows eval env.enter τ last) :
      Follows eval env (.choice labels k :: τ) last

theorem Follows.append {env mid last : Env} {τ σ : Trail Step BranchLabel} (h : Follows eval env τ mid)
    (h' : Follows eval mid σ last) : Follows eval env (τ ++ σ) last := by
  induction h with
  | nil env => exact h'
  | bind value rest ih => exact .bind value (ih h')
  | unpack value fits rest ih => exact .unpack value fits (ih h')
  | choice first rest ih => exact .choice first (ih h')

theorem follows_append_iff {env last : Env} {τ σ : Trail Step BranchLabel} :
    Follows eval env (τ ++ σ) last ↔ ∃ mid, Follows eval env τ mid ∧ Follows eval mid σ last := by
  refine ⟨fun h => ?_, fun ⟨mid, h, h'⟩ => h.append h'⟩
  induction τ generalizing env with
  | nil => exact ⟨env, .nil env, h⟩
  | cons passage τ ih =>
    cases h with
    | bind value rest =>
      obtain ⟨mid, h₁, h₂⟩ := ih rest
      exact ⟨mid, .bind value h₁, h₂⟩
    | unpack value fits rest =>
      obtain ⟨mid, h₁, h₂⟩ := ih rest
      exact ⟨mid, .unpack value fits h₁, h₂⟩
    | choice first rest =>
      obtain ⟨mid, h₁, h₂⟩ := ih rest
      exact ⟨mid, .choice first h₁, h₂⟩

/-- A run of the path that returns at the first result. -/
def ReturnsOn (eval : Env → Expr → Outcome) (env : Env) (τ : Trail Step BranchLabel) (v : Value) : Prop :=
  ∃ before e after last, τ = before ++ .definition (.result e) :: after ∧ Follows eval env before last ∧
    eval last e = .ok v

theorem ReturnsOn.behind {env mid : Env} {τ σ : Trail Step BranchLabel} {v : Value} (h : Follows eval env τ mid)
    (h' : ReturnsOn eval mid σ v) : ReturnsOn eval env (τ ++ σ) v := by
  obtain ⟨before, e, after, last, rfl, hbefore, he⟩ := h'
  exact ⟨τ ++ before, e, after, last, by simp, h.append hbefore, he⟩

theorem ReturnsOn.append {env : Env} {τ : Trail Step BranchLabel} {v : Value} (h : ReturnsOn eval env τ v)
    (σ : Trail Step BranchLabel) : ReturnsOn eval env (τ ++ σ) v := by
  obtain ⟨before, e, after, last, rfl, hbefore, he⟩ := h
  exact ⟨before, e, after ++ σ, last, by simp, hbefore, he⟩

/-- The steps of a block are followed, up to the first result if there is one. -/
theorem steps_follows : ∀ {ds : List Step} {env : Env} {r : Value ⊕ Env}, steps eval env ds = .ok r →
    match r with
    | .inl v => ReturnsOn eval env (ds.map .definition) v
    | .inr last => Follows eval env (ds.map .definition) last
  | [], env, r, h => by
    cases h
    exact .nil env
  | .bind x ty e :: rest, env, r, h => by
    unfold steps at h
    split at h
    · rename_i v hv
      have hrest := steps_follows h
      have hstep : Follows eval env [.definition (.bind x ty e)] (env.add x v) := .bind hv (.nil _)
      cases r with
      | inl w => exact hrest.behind hstep
      | inr last => exact hstep.append hrest
    · cases h
  | .unpack x xs ty :: rest, env, r, h => by
    unfold steps at h
    split at h
    · cases h
    · rename_i items hitems
      have hfind : env.find? x = some (.tuple items) := by
        unfold Env.value at hitems
        split at hitems
        · rename_i v hv
          cases hitems
          exact hv
        · cases hitems
      split at h
      · rename_i hlen
        have hrest := steps_follows h
        have hstep : Follows eval env [.definition (.unpack x xs ty)] (env.addAll (xs.zip items)) :=
          .unpack hfind hlen (.nil _)
        cases r with
        | inl w => exact hrest.behind hstep
        | inr last => exact hstep.append hrest
      · cases h
    · cases h
  | .result e :: rest, env, r, h => by
    unfold steps at h
    split at h
    · rename_i v hv
      cases h
      exact ⟨[], e, rest.map .definition, env, rfl, .nil env, hv⟩
    · cases h

mutual

/-- A run of a block that returns a value follows a path to a leaf. -/
theorem block_follows {function : String} : ∀ {b : Body} {env : Env} {v : Value},
    block eval function env b = .ok v → ∃ τ ∈ b.trails, ReturnsOn eval env.enter τ v
  | .mk ds branches, env, v, h => by
    unfold block at h
    split at h
    · cases h
    · rename_i w hsteps
      cases h
      have hreturns := steps_follows hsteps
      obtain ⟨τ, hτ⟩ := List.exists_mem_of_ne_nil _ (Block.trails_ne_nil (.mk ds branches))
      have hsplit : ∃ σ, τ = ds.map .definition ++ σ := by
        unfold Block.trails at hτ
        split at hτ
        · exact ⟨[], by simpa using hτ⟩
        · obtain ⟨σ, _, rfl⟩ := List.mem_map.1 hτ
          exact ⟨σ, rfl⟩
      obtain ⟨σ, rfl⟩ := hsplit
      exact ⟨_, hτ, hreturns.append σ⟩
    · rename_i last hsteps
      have hfollows := steps_follows hsteps
      obtain ⟨τ, hτ, hreturns⟩ := @branches_follows function (branches.map (·.1)) branches 0 last v rfl (by simp) h
      have hne : branches.isEmpty = false := by
        cases branches with
        | nil => cases hτ
        | cons _ _ => rfl
      refine ⟨ds.map .definition ++ τ, ?_, hreturns.behind hfollows⟩
      unfold Block.trails
      rw [hne]
      exact List.mem_map_of_mem hτ

/-- The branch that is run is the first that is taken; those before it were refused. -/
theorem branches_follows {function : String} {labels : List BranchLabel} : ∀ {branches : List (BranchLabel × Body)}
    {k : Nat} {env : Env} {v : Value}, labels.drop k = branches.map (·.1) →
    (∀ j < k, ∀ l, labels[j]? = some l → select eval env l = .ok false) →
    blockBranches eval function env branches = .ok v →
    ∃ τ ∈ Block.branchTrails labels k branches, ReturnsOn eval env τ v
  | [], _, _, _, _, _, h => by cases h
  | (label, b) :: rest, k, env, v, hlabels, hrefused, h => by
    have hk : labels[k]? = some label := by
      have := congrArg List.head? hlabels
      simpa using this
    unfold blockBranches at h
    split at h
    · cases h
    · rename_i htaken
      obtain ⟨τ, hτ, hreturns⟩ := block_follows h
      have hstep : Follows eval env [.choice labels k] env.enter :=
        .choice ⟨⟨label, hk, htaken⟩, hrefused⟩ (.nil _)
      exact ⟨.choice labels k :: τ, by simp [Block.branchTrails, hτ], hreturns.behind hstep⟩
    · rename_i hnot
      -- one more label is refused, and the search goes on behind it
      have hdrop : labels.drop (k + 1) = rest.map (·.1) := by
        rw [← List.tail_drop, hlabels]
        rfl
      obtain ⟨τ, hτ, hreturns⟩ := branches_follows hdrop (fun j hj l hl => by
        rcases Nat.lt_succ_iff_lt_or_eq.1 hj with hj | rfl
        · exact hrefused j hj l hl
        · rw [hk] at hl
          cases hl
          exact hnot) h
      exact ⟨τ, by simp [Block.branchTrails, hτ], hreturns⟩

end

end Eval

/-! ## The variables of a node -/

/-- The value of a node can be seen: under the variable of the node and, if its type is a tuple, part by
part under the variables of the components. -/
structure Shows (p : Program) (n : Nat) (v : Value) (env : Env) : Prop where
  own : env.find? (nodeVar n) = some v
  components : ∀ tys, (p.node n).ty = .tuple tys → ∃ vs : List Value, v = .tuple vs ∧ vs.length = tys.length ∧
    ∀ k < vs.length, env.find? (componentVar (nodeVar n) k) = vs[k]?

namespace Shows

variable {p : Program} {n : Nat} {v : Value} {env last : Env}

/-- What a node shows depends on its variables only. -/
theorem congr (hsame : ∀ x ∈ p.vars n, last.find? x = env.find? x) (h : Shows p n v env) : Shows p n v last := by
  refine ⟨by rw [hsame _ (p.nodeVar_mem_vars n), h.own], fun tys hty => ?_⟩
  obtain ⟨vs, hv, hlen, hk⟩ := h.components tys hty
  refine ⟨vs, hv, hlen, fun k hlt => ?_⟩
  rw [hsame, hk k hlt]
  simp only [Program.vars, hty, List.mem_cons, List.mem_map, List.mem_range]
  exact Or.inr ⟨k, by omega, rfl⟩

end Shows

namespace Eval

variable {eval : Env → Expr → Outcome} {p : Program} {n : Nat} {env last : Env}

/-- Naming the components of a node shows its value and touches no other variable. -/
theorem follows_unpackSteps (h : Follows eval env ((WalkEvent.unpackSteps p n).map .definition) last) :
    (∀ x ∉ (p.vars n).tail, last.find? x = env.find? x) ∧
      ∀ v, env.find? (nodeVar n) = some v → Shows p n v last := by
  unfold WalkEvent.unpackSteps at h
  split at h
  · rename_i tys hty
    cases h with
    | @unpack _ _ _ _ _ items _ value fits rest =>
      cases rest
      have hlen : items.length = tys.length := by simpa using fits
      have hkeys : (((List.range tys.length).map (componentVar (nodeVar n))).zip items).map (·.1) =
          (List.range tys.length).map (componentVar (nodeVar n)) := List.map_fst_zip (by omega)
      have hframe : ∀ x ∉ (p.vars n).tail,
          (env.addAll (((List.range tys.length).map (componentVar (nodeVar n))).zip items)).find? x = env.find? x := by
        intro x hx
        refine Env.find?_addAll_of_not_mem env fun hmem => hx ?_
        rw [hkeys] at hmem
        simpa only [Program.vars, hty, List.tail_cons] using hmem
      have hnodup : ((((List.range tys.length).map (componentVar (nodeVar n))).zip items).map (·.1)).Nodup := by
        rw [hkeys]
        exact List.pairwise_map.2 (List.nodup_range.imp fun hne heq => hne (componentVar_injective heq).2)
      refine ⟨hframe, fun v hv => ⟨?_, fun tys' hty' => ?_⟩⟩
      · rw [hframe _ (p.nodeVar_not_mem_tail n), hv]
      · rw [hv] at value
        cases value
        rw [hty] at hty'
        cases hty'
        refine ⟨items, rfl, hlen, fun k hk => ?_⟩
        rw [List.getElem?_eq_getElem hk]
        refine Env.find?_addAll_of_mem env hnodup ?_
        rw [List.mem_iff_getElem?]
        refine ⟨k, List.getElem?_zip_eq_some.2 ⟨?_, List.getElem?_eq_getElem hk⟩⟩
        simp [show k < tys.length by omega]
  · rename_i hty
    cases h
    exact ⟨fun _ _ => rfl, fun v hv => ⟨hv, fun tys htys => absurd htys (hty tys)⟩⟩

/-- Binding a node shows the value of the expression and touches the variables of no other node. -/
theorem follows_bindSteps {e : Expr} (h : Follows eval env ((WalkEvent.bindSteps p n e).map .definition) last) :
    (∀ x ∉ p.vars n, last.find? x = env.find? x) ∧ ∃ v, eval env e = .ok v ∧ Shows p n v last := by
  cases h with
  | @bind _ _ _ _ _ v _ value rest =>
    obtain ⟨hsame, hshows⟩ := follows_unpackSteps rest
    refine ⟨fun x hx => ?_, v, value, hshows v (by rw [Env.find?_add, if_pos rfl])⟩
    rw [hsame x fun hmem => hx (List.mem_of_mem_tail hmem), Env.find?_add, if_neg]
    rintro rfl
    exact hx (p.nodeVar_mem_vars n)

end Eval

end Dataflow
