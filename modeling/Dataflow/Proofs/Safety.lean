import Dataflow.Eval.Run
import Dataflow.Proofs.Scoping

/-!
# Well-scoped plans never miss a variable

A value is closed if every function inside it carries the variables that it reads. A well-scoped
plan, started on a closed value, computes closed values and never asks for a variable that is not
bound. The argument follows the two limits of the evaluator: calls inside each other, and within one
call, applications inside each other.
-/

namespace Dataflow

/-! ## Closed values -/

namespace Value

mutual

/-- Every function inside carries the variables that it reads. -/
def Closed : Value → Prop
  | .lit _ => True
  | .tuple items => ClosedList items
  | .waiting _ args => ClosedArgs args
  | .closure param body env => body.Scoped (param :: env.map (·.1)) ∧ ClosedEnv env
termination_by structural v => v

def ClosedList : List Value → Prop
  | [] => True
  | v :: rest => Closed v ∧ ClosedList rest
termination_by structural vs => vs

def ClosedArgs : List (Option Value) → Prop
  | [] => True
  | none :: rest => ClosedArgs rest
  | some v :: rest => Closed v ∧ ClosedArgs rest
termination_by structural vs => vs

def ClosedEnv : List (String × Value) → Prop
  | [] => True
  | (_, v) :: rest => Closed v ∧ ClosedEnv rest
termination_by structural vs => vs

end

mutual

/-- No lambda is inside. -/
def ClosureFree : Value → Prop
  | .lit _ => True
  | .tuple items => ClosureFreeList items
  | .waiting _ args => ClosureFreeArgs args
  | .closure _ _ _ => False
termination_by structural v => v

def ClosureFreeList : List Value → Prop
  | [] => True
  | v :: rest => ClosureFree v ∧ ClosureFreeList rest
termination_by structural vs => vs

def ClosureFreeArgs : List (Option Value) → Prop
  | [] => True
  | none :: rest => ClosureFreeArgs rest
  | some v :: rest => ClosureFree v ∧ ClosureFreeArgs rest
termination_by structural vs => vs

end

theorem closedList_iff {vs : List Value} : ClosedList vs ↔ ∀ v ∈ vs, v.Closed := by
  induction vs with
  | nil => simp [ClosedList]
  | cons v rest ih => simp [ClosedList, ih]

theorem closedArgs_iff {vs : List (Option Value)} : ClosedArgs vs ↔ ∀ v, some v ∈ vs → v.Closed := by
  induction vs with
  | nil => simp [ClosedArgs]
  | cons v rest ih => cases v <;> simp [ClosedArgs, ih]

theorem closedEnv_iff {env : List (String × Value)} : ClosedEnv env ↔ ∀ x ∈ env, x.2.Closed := by
  induction env with
  | nil => simp [ClosedEnv]
  | cons x rest ih => simp [ClosedEnv, ih]

mutual

theorem ClosureFree.closed : ∀ {v : Value}, v.ClosureFree → v.Closed
  | .lit _, _ => trivial
  | .tuple items, h => ClosureFreeList.closed (l := items) h
  | .waiting _ args, h => ClosureFreeArgs.closed (l := args) h

theorem ClosureFreeList.closed : ∀ {l : List Value}, ClosureFreeList l → ClosedList l
  | [], _ => trivial
  | _ :: _, h => ⟨ClosureFree.closed h.1, ClosureFreeList.closed h.2⟩

theorem ClosureFreeArgs.closed : ∀ {l : List (Option Value)}, ClosureFreeArgs l → ClosedArgs l
  | [], _ => trivial
  | none :: rest, h => ClosureFreeArgs.closed (l := rest) h
  | some _ :: _, h => ⟨ClosureFree.closed h.1, ClosureFreeArgs.closed h.2⟩

end

end Value

/-! ## Environments of closed values -/

namespace Env

/-- All values are closed. -/
def Closed (e : Env) : Prop := ∀ frame ∈ e.frames, ∀ x ∈ frame, x.2.Closed

/-- All names mean something. -/
def Binds (e : Env) (names : List String) : Prop := ∀ x ∈ names, ∃ v, e.find? x = some v

variable {e : Env} {names : List String}

theorem find?_mem {x : String} {v : Value} (h : e.find? x = some v) : ∃ frame ∈ e.frames, (x, v) ∈ frame := by
  obtain ⟨frame, hframe, hget⟩ := List.exists_of_findSome?_eq_some h
  exact ⟨frame, hframe, Assoc.get?_mem hget⟩

theorem Closed.find? (he : e.Closed) {x : String} {v : Value} (h : e.find? x = some v) : v.Closed := by
  obtain ⟨frame, hframe, hmem⟩ := find?_mem h
  exact he frame hframe (x, v) hmem

theorem Closed.enter (he : e.Closed) : e.enter.Closed := by
  intro frame hframe x hx
  rcases List.mem_cons.1 hframe with rfl | hframe
  · cases hx
  · exact he frame hframe x hx

theorem Closed.add (he : e.Closed) (x : String) {v : Value} (hv : v.Closed) : (e.add x v).Closed := by
  unfold Env.add
  split
  · intro frame hframe y hy
    obtain rfl := List.mem_singleton.1 hframe
    obtain rfl := List.mem_singleton.1 hy
    exact hv
  · rename_i first rest hframes
    intro frame hframe y hy
    rcases List.mem_cons.1 hframe with rfl | hframe
    · rcases Assoc.mem_insert hy with rfl | hy
      · exact hv
      · exact he first (by simp [hframes]) y hy
    · exact he frame (by simp [hframes, hframe]) y hy

theorem Closed.addAll {vars : List (String × Value)} (he : e.Closed) (hvars : ∀ x ∈ vars, x.2.Closed) :
    (e.addAll vars).Closed := by
  induction vars generalizing e with
  | nil => exact he
  | cons x vars ih =>
    exact ih (he.add x.1 (hvars x (by simp))) fun y hy => hvars y (by simp [hy])

theorem Binds.enter (h : e.Binds names) : e.enter.Binds names := by
  intro x hx
  rw [find?_enter]
  exact h x hx

theorem Binds.add (h : e.Binds names) (x : String) (v : Value) : (e.add x v).Binds (x :: names) := by
  intro y hy
  rw [find?_add]
  split
  · exact ⟨v, rfl⟩
  · rename_i hne
    exact h y ((List.mem_cons.1 hy).resolve_left hne)

theorem Binds.addAll {vars : List (String × Value)} (h : e.Binds names) :
    (e.addAll vars).Binds (names ++ vars.map (·.1)) := by
  induction vars generalizing e names with
  | nil => simpa [addAll] using h
  | cons x vars ih =>
    intro y hy
    refine ih (h.add x.1 x.2) y ?_
    simp only [List.map_cons, List.mem_append, List.mem_cons] at hy ⊢
    tauto

/-! ### What a lambda captures -/

theorem mem_captured {x : String × Value} (h : x ∈ e.captured) : ∃ frame ∈ e.frames, x ∈ frame := by
  have hframe : ∀ (frame outer : List (String × Value)), x ∈ frame.foldl (fun vars v => Assoc.insert v.1 v.2 vars) outer →
      x ∈ frame ∨ x ∈ outer := by
    intro frame
    induction frame with
    | nil => exact fun _ h => Or.inr h
    | cons y frame ih =>
      intro outer h
      rcases ih _ h with h | h
      · exact Or.inl (by simp [h])
      · rcases Assoc.mem_insert h with rfl | h
        · exact Or.inl (by simp)
        · exact Or.inr h
  obtain ⟨frames⟩ := e
  induction frames with
  | nil => cases h
  | cons frame frames ih =>
    rcases hframe frame _ h with h | h
    · exact ⟨frame, by simp, h⟩
    · obtain ⟨other, hother, h⟩ := ih h
      exact ⟨other, by simp [hother], h⟩

theorem mem_keys_captured {x : String} {v : Value} (h : e.find? x = some v) : x ∈ e.captured.map (·.1) := by
  have hframe : ∀ (frame outer : List (String × Value)), x ∈ frame.map (·.1) ∨ x ∈ outer.map (·.1) →
      x ∈ (frame.foldl (fun vars v => Assoc.insert v.1 v.2 vars) outer).map (·.1) := by
    intro frame
    induction frame with
    | nil => exact fun _ h => h.resolve_left (by simp)
    | cons y frame ih =>
      intro outer h
      refine ih _ ?_
      rcases h with h | h
      · rcases List.mem_cons.1 h with rfl | h
        · exact Or.inr (Assoc.mem_keys_insert (Or.inl rfl))
        · exact Or.inl h
      · exact Or.inr (Assoc.mem_keys_insert (Or.inr h))
  obtain ⟨frame, hmem, hx⟩ := find?_mem h
  clear h
  obtain ⟨frames⟩ := e
  induction frames with
  | nil => cases hmem
  | cons first frames ih =>
    refine hframe first _ ?_
    rcases List.mem_cons.1 hmem with rfl | hmem
    · exact Or.inl (List.mem_map_of_mem hx)
    · exact Or.inr (ih hmem)

theorem Closed.captured (he : e.Closed) : Value.ClosedEnv e.captured := by
  refine Value.closedEnv_iff.2 fun x hx => ?_
  obtain ⟨frame, hframe, hx⟩ := mem_captured hx
  exact he frame hframe x hx

theorem Binds.captured (h : e.Binds names) : names ⊆ e.captured.map (·.1) := by
  intro x hx
  obtain ⟨v, hv⟩ := h x hx
  exact mem_keys_captured hv

theorem closed_ofCaptured {vars : List (String × Value)} (h : Value.ClosedEnv vars) : (ofCaptured vars).Closed := by
  intro frame hframe x hx
  obtain rfl := List.mem_singleton.1 hframe
  exact Value.closedEnv_iff.1 h x hx

theorem binds_ofCaptured (vars : List (String × Value)) : (ofCaptured vars).Binds (vars.map (·.1)) := by
  intro x hx
  obtain ⟨v, hv⟩ := Assoc.exists_get? hx
  exact ⟨v, by simp [ofCaptured, find?, hv]⟩

end Env

/-! ## Evaluation -/

/-- The outcome is no missing variable, and what comes out satisfies `P`. -/
def Safe {α : Type} (P : α → Prop) : Except EvalError α → Prop
  | .ok a => P a
  | .error e => ∀ x, e ≠ .unboundVariable x

@[simp] theorem safe_ok {α : Type} {P : α → Prop} {a : α} : Safe P (.ok a) ↔ P a := Iff.rfl

@[simp] theorem safe_error {α : Type} {P : α → Prop} {e : EvalError} :
    Safe P (.error e) ↔ ∀ x, e ≠ .unboundVariable x := Iff.rfl

theorem Safe.cases {α : Type} {P : α → Prop} {r : Except EvalError α} (h : Safe P r) :
    (∃ a, r = .ok a ∧ P a) ∨ ∃ e, r = .error e ∧ ∀ x, e ≠ .unboundVariable x := by
  cases r with
  | ok a => exact Or.inl ⟨a, rfl, h⟩
  | error e => exact Or.inr ⟨e, rfl, h⟩

namespace Builtin

theorem arithmetic_safe (op : String) (a b : Value) : Safe Value.Closed (arithmetic op a b) := by
  unfold arithmetic
  split
  · unfold arithmeticInt
    dsimp only
    split
    · simp [Safe]
    · split
      · trivial
      · simp [Safe]
  · unfold arithmeticFloat
    split <;> simp [Safe, Value.Closed]
  · simp [Safe]
  · simp [Safe]

theorem binary_safe (op : String) (a b : Value) : Safe Value.Closed (binary op a b) := by
  unfold binary
  split
  · exact arithmetic_safe op a b
  · split
    · trivial
    · split
      · trivial
      · split
        · split
          · trivial
          · simp [Safe]
        · split <;> simp [Safe, Value.Closed]

theorem unary_safe (op : String) {a : Value} (ha : a.Closed) : Safe Value.Closed (unary op a) := by
  unfold unary
  split
  · trivial
  · split
    · trivial
    · simp [Safe]
  · trivial
  · exact ha.1
  · exact ha.2.1
  · exact ha
  · simp [Safe]

theorem run_safe (name : String) {args : List Value} (hargs : ∀ v ∈ args, v.Closed) :
    Safe Value.Closed (run name args) := by
  unfold run
  split
  · exact unary_safe name (hargs _ (by simp))
  · exact binary_safe name _ _
  · simp [Safe]

end Builtin

namespace Eval

/-- Calls of functions by name are safe. -/
def SafeInvoke (invoke : String → List Value → Outcome) : Prop :=
  ∀ name args, (∀ v ∈ args, v.Closed) → Safe Value.Closed (invoke name args)

theorem resize_closed {n : Nat} {args : List (Option Value)} (h : Value.ClosedArgs args) :
    Value.ClosedArgs (resize n args) := by
  rw [Value.closedArgs_iff] at h ⊢
  intro v hv
  rcases List.mem_append.1 hv with hv | hv
  · exact h v (List.mem_of_mem_take hv)
  · cases (List.mem_replicate.1 hv).2

mutual

theorem expr_safe {invoke : String → List Value → Outcome} (hinvoke : SafeInvoke invoke) {env : Env}
    (henv : env.Closed) {names : List String} (hbinds : env.Binds names) :
    ∀ {e : Expr}, e.Scoped names → Safe Value.Closed (expr invoke env e)
  | .var x, h => by
    obtain ⟨v, hv⟩ := hbinds x h
    simp only [expr, Env.value, hv]
    exact henv.find? hv
  | .lit _, _ => trivial
  | .tuple items, h => by
    obtain ⟨vs, hvs, hclosed⟩ | ⟨err, herr, hsafe⟩ := (exprList_safe hinvoke henv hbinds (l := items) h).cases
    · simpa only [expr, hvs, safe_ok, Value.Closed] using hclosed
    · simpa only [expr, herr, safe_error] using hsafe
  | .lambda x body, h => by
    refine ⟨Expr.Scoped.mono (e := body) ?_ h, henv.captured⟩
    exact List.cons_subset_cons x hbinds.captured
  | .call func arity args, h => by
    obtain ⟨vs, hvs, hclosed⟩ | ⟨err, herr, hsafe⟩ := (exprArgs_safe hinvoke henv hbinds (l := args) h).cases
    · simp only [expr, hvs]
      split
      · refine hinvoke func _ fun v hv => Value.closedArgs_iff.1 hclosed v ?_
        simpa using hv
      · exact resize_closed hclosed
    · simpa only [expr, herr, safe_error] using hsafe

theorem exprList_safe {invoke : String → List Value → Outcome} (hinvoke : SafeInvoke invoke) {env : Env}
    (henv : env.Closed) {names : List String} (hbinds : env.Binds names) :
    ∀ {l : List Expr}, Expr.ScopedList names l → Safe Value.ClosedList (exprList invoke env l)
  | [], _ => trivial
  | e :: rest, h => by
    obtain ⟨v, hv, hclosed⟩ | ⟨err, herr, hsafe⟩ := (expr_safe hinvoke henv hbinds h.1).cases
    · obtain ⟨vs, hvs, hrest⟩ | ⟨err, herr, hsafe⟩ := (exprList_safe hinvoke henv hbinds h.2).cases
      · simpa only [exprList, hv, hvs] using ⟨hclosed, hrest⟩
      · simpa only [exprList, hv, herr, safe_error] using hsafe
    · simpa only [exprList, herr, safe_error] using hsafe

theorem exprArgs_safe {invoke : String → List Value → Outcome} (hinvoke : SafeInvoke invoke) {env : Env}
    (henv : env.Closed) {names : List String} (hbinds : env.Binds names) :
    ∀ {l : List (Option Expr)}, Expr.ScopedArgs names l → Safe Value.ClosedArgs (exprArgs invoke env l)
  | [], _ => trivial
  | none :: rest, h => by
    obtain ⟨vs, hvs, hrest⟩ | ⟨err, herr, hsafe⟩ := (exprArgs_safe hinvoke henv hbinds (l := rest) h).cases
    · simpa only [exprArgs, hvs, safe_ok, Value.ClosedArgs] using hrest
    · simpa only [exprArgs, herr, safe_error] using hsafe
  | some e :: rest, h => by
    obtain ⟨v, hv, hclosed⟩ | ⟨err, herr, hsafe⟩ := (expr_safe hinvoke henv hbinds h.1).cases
    · obtain ⟨vs, hvs, hrest⟩ | ⟨err, herr, hsafe⟩ := (exprArgs_safe hinvoke henv hbinds h.2).cases
      · simpa only [exprArgs, hv, hvs] using ⟨hclosed, hrest⟩
      · simpa only [exprArgs, hv, herr, safe_error] using hsafe
    · simpa only [exprArgs, herr, safe_error] using hsafe

end

/-! ### Calls and applications -/

theorem applyAll_safe {apply : Value → Value → Outcome}
    (happly : ∀ v arg, v.Closed → arg.Closed → Safe Value.Closed (apply v arg)) :
    ∀ {args : List Value} {v : Value}, v.Closed → (∀ u ∈ args, u.Closed) → Safe Value.Closed (applyAll apply v args)
  | [], _, hv, _ => hv
  | arg :: rest, v, hv, hargs => by
    obtain ⟨u, hu, hclosed⟩ | ⟨err, herr, hsafe⟩ := (happly v arg hv (hargs arg (by simp))).cases
    · simp only [applyAll, hu]
      exact applyAll_safe happly hclosed fun w hw => hargs w (by simp [hw])
    · simpa only [applyAll, herr, safe_error] using hsafe

theorem invoke_safe {p : ProgramPlan} {call : FunctionPlan → Value → Outcome} {apply : Value → Value → Outcome}
    (hcall : ∀ f ∈ p.functions, ∀ arg : Value, arg.Closed → Safe Value.Closed (call f arg))
    (happly : ∀ v arg, v.Closed → arg.Closed → Safe Value.Closed (apply v arg)) :
    SafeInvoke (invoke p call apply) := by
  intro name args hargs
  unfold invoke
  split
  · rename_i f hf
    have hmem : f ∈ p.functions := by
      unfold ProgramPlan.callee? ProgramPlan.function? at hf
      exact List.mem_of_find?_eq_some (Option.eq_some_of_filter_eq_some hf)
    have hfirst : (args.head?.getD .unit).Closed := by
      cases args with
      | nil => trivial
      | cons v rest => exact hargs v (by simp)
    obtain ⟨v, hv, hclosed⟩ | ⟨err, herr, hsafe⟩ := (hcall f hmem _ hfirst).cases
    · simp only [hv]
      exact applyAll_safe happly hclosed fun u hu => hargs u (List.mem_of_mem_tail hu)
    · simpa only [herr, safe_error] using hsafe
  · split
    · simp [Safe]
    · split
      · refine resize_closed (Value.closedArgs_iff.2 fun v hv => hargs v ?_)
        simpa using hv
      · rename_i arity _ _
        have htake : ∀ v ∈ args.take arity, v.Closed := fun v hv => hargs v (List.mem_of_mem_take hv)
        obtain ⟨v, hv, hclosed⟩ | ⟨err, herr, hsafe⟩ := (Builtin.run_safe name htake).cases
        · simp only [hv]
          exact applyAll_safe happly hclosed fun u hu => hargs u (List.mem_of_mem_drop hu)
        · simpa only [herr, safe_error] using hsafe

theorem fillHole_closed {v : Value} (hv : v.Closed) : ∀ {args filled : List (Option Value)},
    fillHole v args = some filled → Value.ClosedArgs args → Value.ClosedArgs filled
  | none :: rest, filled, h, hargs => by
    cases h
    exact ⟨hv, hargs⟩
  | some a :: rest, filled, h, hargs => by
    obtain ⟨more, hmore, rfl⟩ := Option.map_eq_some_iff.1 h
    exact ⟨hargs.1, fillHole_closed hv hmore hargs.2⟩

theorem applyWithin_safe {p : ProgramPlan} {call : FunctionPlan → Value → Outcome}
    (hcall : ∀ f ∈ p.functions, ∀ arg : Value, arg.Closed → Safe Value.Closed (call f arg)) (n : Nat) :
    ∀ v arg, v.Closed → arg.Closed → Safe Value.Closed (applyWithin p call n v arg) := by
  induction n with
  | zero => simp [applyWithin, Safe]
  | succ n ih =>
    intro v arg hv harg
    -- what is applied inside stands one level deeper
    have hinvoke := invoke_safe hcall ih
    cases v with
    | lit l => simp [applyWithin, Safe]
    | tuple items => simp [applyWithin, Safe]
    | waiting func args =>
      unfold applyWithin
      split
      · simp [Safe]
      · rename_i filled hfilled
        have hclosed := fillHole_closed harg hfilled hv
        split
        · refine hinvoke func _ fun u hu => Value.closedArgs_iff.1 hclosed u ?_
          simpa using hu
        · exact hclosed
    | closure param body env =>
      unfold applyWithin
      exact expr_safe hinvoke ((Env.closed_ofCaptured hv.2).add param harg)
        ((Env.binds_ofCaptured env).add param arg) hv.1

/-- The evaluator of expressions is safe. -/
def SafeEval (eval : Env → Expr → Outcome) : Prop :=
  ∀ (env : Env) (names : List String) (e : Expr), env.Closed → env.Binds names → e.Scoped names →
    Safe Value.Closed (eval env e)

/-! ### Blocks -/

theorem select_safe {eval : Env → Expr → Outcome} (heval : SafeEval eval) {env : Env} (henv : env.Closed)
    {names : List String} (hbinds : env.Binds names) {label : BranchLabel} (h : label.Scoped names) :
    Safe (fun _ => True) (select eval env label) := by
  cases label with
  | otherwise => trivial
  | pattern x pat ty =>
    obtain ⟨v, hv⟩ := hbinds x h
    simp only [select, Env.value, hv]
    trivial
  | guard test =>
    unfold select
    obtain ⟨v, hv, _⟩ | ⟨err, herr, hsafe⟩ := (heval env names test henv hbinds h).cases
    · simp only [hv]
      split
      · trivial
      · simp [Safe]
      · contradiction
    · simpa only [herr, safe_error] using hsafe

/-- What the steps of a block leave: a closed result, or an environment that binds what they bound. -/
def StepsLeave (names : List String) (ds : List Step) : Value ⊕ Env → Prop
  | .inl v => v.Closed
  | .inr env => env.Closed ∧ env.Binds (names ++ ds.flatMap Step.binds)

theorem stepsLeave_cons (names : List String) (d : Step) (ds : List Step) :
    StepsLeave names (d :: ds) = StepsLeave (names ++ d.binds) ds := by
  funext r
  cases r <;> simp [StepsLeave]

theorem steps_safe {eval : Env → Expr → Outcome} (heval : SafeEval eval) :
    ∀ {ds : List Step} {env : Env} {names : List String}, env.Closed → env.Binds names →
      Body.StepsScoped names ds → Safe (StepsLeave names ds) (steps eval env ds)
  | [], env, names, henv, hbinds, _ => ⟨henv, by simpa using hbinds⟩
  | .bind x ty e :: rest, env, names, henv, hbinds, h => by
    obtain ⟨v, hv, hclosed⟩ | ⟨err, herr, hsafe⟩ := (heval env names e henv hbinds h.1).cases
    · have hbinds' : (env.add x v).Binds (names ++ [x]) := fun y hy => hbinds.add x v y (by simpa [or_comm] using hy)
      have hrest := steps_safe heval (henv.add x hclosed) hbinds' h.2
      simp only [steps, hv, stepsLeave_cons]
      exact hrest
    · simpa only [steps, herr, safe_error] using hsafe
  | .unpack x xs ty :: rest, env, names, henv, hbinds, h => by
    obtain ⟨v, hv⟩ := hbinds x h.1
    have hclosed := henv.find? hv
    unfold steps
    simp only [Env.value, hv]
    split
    · rename_i err herr
      cases herr
    · rename_i items hitems
      cases hitems
      split
      · rename_i hlen
        have hkeys : (xs.zip items).map (·.1) = xs := List.map_fst_zip (by omega)
        have hvars : ∀ y ∈ xs.zip items, y.2.Closed := fun y hy =>
          Value.closedList_iff.1 hclosed y.2 (List.of_mem_zip hy).2
        have hbinds' : (env.addAll (xs.zip items)).Binds (names ++ xs) := by
          have hall := @Env.Binds.addAll env names (xs.zip items) hbinds
          rwa [hkeys] at hall
        have hrest := steps_safe heval (henv.addAll hvars) hbinds' h.2
        rw [stepsLeave_cons]
        exact hrest
      · simp [Safe]
    · simp [Safe]
  | .result e :: rest, env, names, henv, hbinds, h => by
    obtain ⟨v, hv, hclosed⟩ | ⟨err, herr, hsafe⟩ := (heval env names e henv hbinds h.1).cases
    · simpa only [steps, hv, safe_ok, StepsLeave] using hclosed
    · simpa only [steps, herr, safe_error] using hsafe

mutual

theorem block_safe {eval : Env → Expr → Outcome} (heval : SafeEval eval) {function : String} :
    ∀ {b : Body} {env : Env} {names : List String}, env.Closed → env.Binds names → Body.WellScoped names b →
      Safe Value.Closed (block eval function env b)
  | .mk ds branches, env, names, henv, hbinds, h => by
    obtain ⟨r, hr, hleave⟩ | ⟨err, herr, hsafe⟩ := (steps_safe heval henv.enter hbinds.enter h.1).cases
    · simp only [block, hr]
      cases r with
      | inl v => exact hleave
      | inr env' => exact branches_safe heval hleave.1 hleave.2 h.2
    · simpa only [block, herr, safe_error] using hsafe

theorem branches_safe {eval : Env → Expr → Outcome} (heval : SafeEval eval) {function : String} :
    ∀ {branches : List (BranchLabel × Body)} {env : Env} {names : List String}, env.Closed → env.Binds names →
      Body.BranchesScoped names branches → Safe Value.Closed (blockBranches eval function env branches)
  | [], _, _, _, _, _ => by simp [blockBranches, Safe]
  | (label, b) :: rest, env, names, henv, hbinds, h => by
    obtain ⟨taken, htaken, _⟩ | ⟨err, herr, hsafe⟩ := (select_safe heval henv hbinds h.1).cases
    · cases taken with
      | true =>
        simp only [blockBranches, htaken]
        exact block_safe heval henv hbinds h.2.1
      | false =>
        simp only [blockBranches, htaken]
        exact branches_safe heval henv hbinds h.2.2
    · simpa only [blockBranches, herr, safe_error] using hsafe

end

/-- A well-scoped plan runs safely, whatever the limits are. -/
theorem runWithin_safe {p : ProgramPlan} (hp : ∀ f ∈ p.functions, Body.WellScoped f.param.toList f.body)
    {nesting limit : Nat} (n : Nat) : ∀ f ∈ p.functions, ∀ arg : Value, arg.Closed →
      Safe Value.Closed (runWithin p nesting limit n f arg) := by
  induction n with
  | zero => simp [runWithin, Safe]
  | succ n ih =>
    intro f hf arg harg
    -- calls run with one level less, so they are safe by induction
    have heval : SafeEval (exprWith p nesting (runWithin p nesting limit n)) := fun env names e henv hbinds he =>
      expr_safe (invoke_safe ih (applyWithin_safe ih nesting)) henv hbinds he
    have hstart : Env.start.Closed := by simp [Env.Closed, Env.start]
    unfold runWithin entryEnv
    have hscoped := hp f hf
    cases hparam : f.param with
    | none =>
      rw [hparam] at hscoped
      exact block_safe heval hstart (by simp [Env.Binds]) hscoped
    | some x =>
      rw [hparam] at hscoped
      refine block_safe heval (hstart.add x harg) (fun y hy => ?_) hscoped
      rw [Env.find?_add, if_pos (by simpa using hy)]
      exact ⟨arg, rfl⟩

end Eval

/-- **Planned functions are well scoped.** In every function of a plan, each variable is bound where it
is read. So a function never fails on a missing variable, whatever it is called with, as long as that
is not a lambda from elsewhere. -/
theorem Program.plan_wellScoped {d : Draft} {p : Program} (hread : d.ReadsAs p) {plan : ProgramPlan}
    (hplan : p.plan = .ok plan) :
    (∀ f ∈ plan.functions, Body.WellScoped f.param.toList f.body) ∧
      ∀ f ∈ plan.functions, ∀ (nesting limit : Nat) (arg : Value), arg.ClosureFree →
        ∀ x, plan.run nesting limit f arg ≠ .error (.unboundVariable x) := by
  have hscoped : ∀ f ∈ plan.functions, Body.WellScoped f.param.toList f.body := by
    intro f hf
    obtain ⟨s, h, hplanned⟩ := Program.plan_history hread.consistent hplan hf
    exact hplanned.wellScoped hread.consistent
  refine ⟨hscoped, fun f hf nesting limit arg harg x hrun => ?_⟩
  have hsafe := @Eval.runWithin_safe plan hscoped nesting limit limit f hf arg harg.closed
  rw [← ProgramPlan.run, hrun] at hsafe
  exact hsafe x rfl

theorem Program.plan_wellScoped_spreadSum : ∃ p plan, Draft.spreadSum.ReadsAs p ∧ p.plan = .ok plan ∧
    (∃ f ∈ plan.functions, f.param = some "v0") ∧
    (∀ f ∈ plan.functions, Body.WellScoped f.param.toList f.body) ∧
      ∀ f ∈ plan.functions, ∀ (nesting limit : Nat) (arg : Value), arg.ClosureFree →
        ∀ x, plan.run nesting limit f arg ≠ .error (.unboundVariable x) := by
  obtain ⟨p, plan, hread, hplan, hcheck⟩ := Draft.spreadSum.exists_planned
    (fun _ plan => plan.functions.any fun f => f.param = some "v0") (by decide +kernel)
  exact ⟨p, plan, hread, hplan, by simpa using hcheck, Program.plan_wellScoped hread hplan⟩

end Dataflow
