import Dataflow.Eval.Interpreter
import Dataflow.Proofs.CallLimit

/-!
# Interpreters that are used again

A request leaves an interpreter as it found it, whatever comes out: the depth of calls is what it was,
and no variable is left over. So every request is answered as by a new interpreter, and as by the
evaluator (`Interpreter.perform_fresh`).

The parts of a run are compared with those of the evaluator, which changes nothing. Expressions leave
the machine as it was (`Does`). Blocks do not: frames stay behind when they fail (`Ends`), until the
call around them is over.
-/

namespace Dataflow

namespace Eval

/-! ## What is looked at before it is used -/

section
variable {eval : Env → Expr → Outcome} {env : Env}

theorem select_pattern (subject : String) (pat : Pattern) (ty : Ty) :
    select eval env (.pattern subject pat ty) = env.value subject >>= fun v => .ok (v.fits pat) := by
  rw [select]
  cases env.value subject <;> rfl

theorem select_guard (test : Expr) : select eval env (.guard test) = eval env test >>= fun v =>
    match v with
    | .lit (.bool taken) => .ok taken
    | v => .error (.typeMismatch "guard" v.typeName) := by
  rw [select]
  rcases eval env test with e | v
  · rfl
  · cases v with
    | lit l => cases l <;> rfl
    | tuple _ | waiting _ _ | closure _ _ _ => rfl

theorem steps_unpack (tuple : String) (vars : List String) (ty : Ty) (rest : List Step) :
    steps eval env (.unpack tuple vars ty :: rest) = env.value tuple >>= fun v =>
      match v with
      | .tuple items =>
        if items.length = vars.length then steps eval (env.addAll (vars.zip items)) rest
        else .error (.typeMismatch "unpack" "tuple")
      | v => .error (.typeMismatch "unpack" v.typeName) := by
  rw [steps]
  rcases env.value tuple with e | v
  · rfl
  · cases v <;> rfl

end

end Eval

namespace Act

/-! ## Parts that change nothing, and parts that come back -/

variable {α β : Type}

/-- A part has the given outcome and leaves everything as it was. -/
def Does (x : Act α) (m : Machine) (y : Except EvalError α) : Prop := x.run m = (y, m)

/-- A part has the given outcome and comes back to its depth, with whatever variables. -/
def Ends (x : Act α) (m : Machine) (y : Except EvalError α) : Prop := ∃ env, x.run m = (y, { m with env })

theorem run_bind (x : Act α) (f : α → Act β) (m : Machine) : (x >>= f).run m =
    match x.run m with
    | (.ok a, m') => (f a).run m'
    | (.error e, m') => (.error e, m') := by
  change ExceptT.bindCont f (x.run m).1 (x.run m).2 = _
  rcases x.run m with ⟨e | a, m'⟩ <;> rfl

theorem run_env_bind (f : Env → Act α) (m : Machine) : (env >>= f).run m = (f m.env).run m := rfl

theorem run_setEnv_bind (e : Env) (f : Unit → Act α) (m : Machine) :
    (setEnv e >>= f).run m = (f ()).run { m with env := e } := rfl

theorem run_within (e : Env) (x : Act α) (m : Machine) : (within e x).run m =
    ((x.run { m with env := e }).1, { (x.run { m with env := e }).2 with env := m.env }) := rfl

theorem run_counted (x : Act α) (m : Machine) : (counted x).run m =
    let after := x.run { m with depth := m.depth + 1 }
    (after.1, { after.2 with depth := after.2.depth - 1 }) := rfl

theorem run_leaving (x : Act α) (m : Machine) : (leaving x).run m =
    ((x.run m).1, { (x.run m).2 with env := (x.run m).2.env.leave }) := rfl

section
variable {m : Machine} {x : Act α} {f : α → Act β} {y : Except EvalError α}

theorem Does.bind {g : α → Except EvalError β} (h : Does x m y) (hf : ∀ a, Does (f a) m (g a)) :
    Does (x >>= f) m (y >>= g) := by
  unfold Does at h ⊢
  rw [run_bind, h]
  cases y with
  | error e => rfl
  | ok a => exact hf a

theorem Does.ends (h : Does x m y) : Ends x m y := ⟨m.env, h⟩

/-- What a part that leaves everything as it was gives is handed on. -/
theorem Does.bind_ends {g : α → Except EvalError β} (h : Does x m y) (hf : ∀ a, Ends (f a) m (g a)) :
    Ends (x >>= f) m (y >>= g) := by
  unfold Ends
  rw [run_bind, h]
  cases y with
  | error e => exact ⟨m.env, rfl⟩
  | ok a => exact hf a

/-- Variables of a part's own are gone behind it. -/
theorem Ends.within {env : Env} (h : Ends x { m with env } y) : Does (within env x) m y := by
  obtain ⟨env', h⟩ := h
  rw [Does, run_within, h]

/-- A part further inside comes back to the depth around it. -/
theorem Does.counted (h : Does x { m with depth := m.depth + 1 } y) : Does (counted x) m y := by
  rw [Does, run_counted, h]
  rfl

theorem Ends.leaving (h : Ends x m y) : Ends (leaving x) m y := by
  obtain ⟨env, h⟩ := h
  exact ⟨env.leave, by rw [run_leaving, h]⟩

end

theorem does_pure (a : α) (m : Machine) : Does (pure a) m (.ok a) := rfl

theorem does_throw (e : EvalError) (m : Machine) : Does (throw e : Act α) m (.error e) := rfl

theorem does_settled (y : Except EvalError α) (m : Machine) : Does (settled y) m y := rfl

/-! ## Application -/

section
variable {p : ProgramPlan} {d : Nat} {call : FunctionPlan → Value → Act Value} {call' : FunctionPlan → Value → Outcome}

theorem applyAll_does {m : Machine} {apply : Value → Value → Act Value} {apply' : Value → Value → Outcome}
    (happly : ∀ v arg, Does (apply v arg) m (apply' v arg)) (v : Value) (args : List Value) :
    Does (applyAll apply v args) m (Eval.applyAll apply' v args) := by
  induction args generalizing v with
  | nil => exact does_pure v m
  | cons arg rest ih =>
    rw [applyAll, Eval.applyAll_cons]
    exact (happly v arg).bind ih

theorem invoke_does {m : Machine} (hcall : ∀ f v, Does (call f v) m (call' f v)) {apply : Value → Value → Act Value}
    {apply' : Value → Value → Outcome} (happly : ∀ v arg, Does (apply v arg) m (apply' v arg)) (name : String)
    (args : List Value) : Does (invoke p call apply name args) m (Eval.invoke p call' apply' name args) := by
  unfold invoke
  cases hcallee : p.callee? name with
  | some f =>
    rw [Eval.invoke_callee hcallee]
    exact (hcall f _).bind fun v => applyAll_does happly v _
  | none =>
    rw [Eval.invoke_builtin hcallee]
    cases Builtin.arity? name with
    | none => exact does_throw _ m
    | some arity =>
      dsimp only
      split
      · exact does_pure _ m
      · exact (does_settled _ m).bind fun v => applyAll_does happly v _

/-! ## Expressions -/

mutual

theorem expr_does {inv : String → List Value → Act Value} {inv' : String → List Value → Outcome} {m : Machine}
    (hinv : ∀ name args, Does (inv name args) m (inv' name args)) :
    ∀ e : Expr, Does (expr inv e) m (Eval.expr inv' m.env e)
  | .var name => rfl
  | .lit l => rfl
  | .lambda param body => rfl
  | .tuple items => by
    rw [expr, Eval.expr_tuple]
    exact (exprList_does hinv items).bind fun vs => does_pure _ m
  | .call func arity args => by
    rw [expr, Eval.expr_call]
    refine (exprArgs_does hinv args).bind fun vs => ?_
    split
    · exact hinv func _
    · exact does_pure _ m

theorem exprList_does {inv : String → List Value → Act Value} {inv' : String → List Value → Outcome} {m : Machine}
    (hinv : ∀ name args, Does (inv name args) m (inv' name args)) :
    ∀ es : List Expr, Does (exprList inv es) m (Eval.exprList inv' m.env es)
  | [] => rfl
  | e :: es => by
    rw [exprList, Eval.exprList_cons]
    exact (expr_does hinv e).bind fun v => (exprList_does hinv es).bind fun vs => does_pure _ m

theorem exprArgs_does {inv : String → List Value → Act Value} {inv' : String → List Value → Outcome} {m : Machine}
    (hinv : ∀ name args, Does (inv name args) m (inv' name args)) :
    ∀ es : List (Option Expr), Does (exprArgs inv es) m (Eval.exprArgs inv' m.env es)
  | [] => rfl
  | none :: es => by
    rw [exprArgs, Eval.exprArgs_hole]
    exact (exprArgs_does hinv es).bind fun vs => does_pure _ m
  | some e :: es => by
    rw [exprArgs, Eval.exprArgs_cons]
    exact (expr_does hinv e).bind fun v => (exprArgs_does hinv es).bind fun vs => does_pure _ m

end

section
variable (hcall : ∀ f v m, m.depth = d → Does (call f v) m (call' f v))
include hcall

theorem applyWithin_does (n : Nat) (v arg : Value) {m : Machine} (hm : m.depth = d) :
    Does (applyWithin p call n v arg) m (Eval.applyWithin p call' n v arg) := by
  induction n generalizing v arg m with
  | zero => exact does_throw _ m
  | succ n ih =>
    have hinvoke : ∀ m : Machine, m.depth = d → ∀ name args, Does (invoke p call (applyWithin p call n) name args) m
        (Eval.invoke p call' (Eval.applyWithin p call' n) name args) :=
      fun m hm => invoke_does (fun f v => hcall f v m hm) fun v arg => ih v arg hm
    cases v with
    | lit l => exact does_throw _ m
    | tuple items => exact does_throw _ m
    | waiting func args =>
      unfold applyWithin Eval.applyWithin
      cases Eval.fillHole arg args with
      | none => exact does_throw _ m
      | some args =>
        dsimp only
        split
        · exact hinvoke m hm func _
        · exact does_pure _ m
    | closure param body vars =>
      -- the body is evaluated with the captured variables, at the same depth
      exact (expr_does (hinvoke { m with env := (Env.ofCaptured vars).add param arg } hm) body).ends.within

theorem exprWith_does (nesting : Nat) (e : Expr) {m : Machine} (hm : m.depth = d) :
    Does (exprWith p nesting call e) m (Eval.exprWith p nesting call' m.env e) :=
  expr_does (invoke_does (fun f v => hcall f v m hm) fun v arg => applyWithin_does hcall _ v arg hm) e

end

end

/-! ## Blocks -/

section
variable {d : Nat} {eval : Expr → Act Value} {eval' : Env → Expr → Outcome}

/-- What becomes of the steps of a block: variables for the branches, or an end. -/
def Ran (x : Act (Option Value)) (m : Machine) : Except EvalError (Value ⊕ Env) → Prop
  | .ok (.inr env) => x.run m = (.ok none, { m with env })
  | .ok (.inl v) => Ends x m (.ok (some v))
  | .error e => Ends x m (.error e)

theorem Does.bind_ran {α : Type} {m : Machine} {x : Act α} {f : α → Act (Option Value)} {y : Except EvalError α}
    {g : α → Except EvalError (Value ⊕ Env)} (h : Does x m y) (hf : ∀ a, Ran (f a) m (g a)) :
    Ran (x >>= f) m (y >>= g) := by
  have hrun : ∀ a, y = .ok a → (x >>= f).run m = (f a).run m := by
    rintro a rfl
    rw [run_bind, h]
  cases y with
  | error e => exact ⟨m.env, by rw [run_bind, h]⟩
  | ok a =>
    have hnext := hf a
    have hsame := hrun a rfl
    change Ran _ m (g a)
    rcases hg : g a with e | v | env <;> rw [hg] at hnext <;> simp only [Ran, Ends] at hnext ⊢ <;> rwa [hsame]

variable (heval : ∀ e m, m.depth = d → Does (eval e) m (eval' m.env e))
include heval

theorem select_does (label : BranchLabel) {m : Machine} (hm : m.depth = d) :
    Does (select eval label) m (Eval.select eval' m.env label) := by
  cases label with
  | otherwise => exact does_pure true m
  | pattern subject pat ty =>
    rw [select, Eval.select_pattern]
    exact (does_settled (m.env.value subject) m).bind fun v => does_pure _ m
  | guard test =>
    rw [select, Eval.select_guard]
    refine (heval test m hm).bind fun v => ?_
    cases v with
    | lit l =>
      cases l with
      | bool taken => exact does_pure taken m
      | int _ | float _ | char _ | text _ | unit => exact does_throw _ m
    | tuple _ | waiting _ _ | closure _ _ _ => exact does_throw _ m

theorem steps_ran (ds : List Step) {m : Machine} (hm : m.depth = d) :
    Ran (steps eval ds) m (Eval.steps eval' m.env ds) := by
  induction ds generalizing m with
  | nil => rfl
  | cons s rest ih =>
    cases s with
    | bind x ty e =>
      rw [steps, Eval.steps_bind]
      exact (heval e m hm).bind_ran fun v => ih (m := { m with env := m.env.add x v }) hm
    | unpack tuple vars ty =>
      rw [steps, Eval.steps_unpack]
      refine (does_settled (m.env.value tuple) m).bind_ran fun v => ?_
      cases v with
      | tuple items =>
        dsimp only
        split
        · exact ih (m := { m with env := m.env.addAll (vars.zip items) }) hm
        · exact (does_throw _ m).ends
      | lit _ | waiting _ _ | closure _ _ _ => exact (does_throw _ m).ends
    | result e =>
      rw [steps, Eval.steps_result]
      exact (heval e m hm).bind_ran fun v => (does_pure _ m).ends

mutual

theorem block_ends (function : String) : ∀ (b : Body) {m : Machine}, m.depth = d →
    Ends (block eval function b) m (Eval.block eval' function m.env b)
  | .mk definitions branches, m, hm => by
    have hsteps := steps_ran heval definitions (m := { m with env := m.env.enter }) hm
    rw [block, Eval.block_mk]
    unfold Ends
    rw [run_env_bind, run_setEnv_bind, run_bind]
    rcases hdone : Eval.steps eval' m.env.enter definitions with e | v | env <;> rw [hdone] at hsteps
    · obtain ⟨env, hrun⟩ := hsteps
      rw [hrun]
      exact ⟨env, rfl⟩
    · obtain ⟨env, hrun⟩ := hsteps
      rw [hrun]
      exact ⟨env.leave, rfl⟩
    · rw [show (steps eval definitions).run { m with env := m.env.enter } = _ from hsteps]
      exact branches_ends function branches (m := { m with env := env }) hm

theorem branches_ends (function : String) : ∀ (branches : List (BranchLabel × Body)) {m : Machine}, m.depth = d →
    Ends (blockBranches eval function branches) m (Eval.blockBranches eval' function m.env branches)
  | [], m, hm => ⟨m.env.leave, rfl⟩
  | (label, body) :: rest, m, hm => by
    rw [blockBranches, Eval.blockBranches_cons]
    refine (select_does heval label hm).bind_ends fun taken => ?_
    cases taken with
    | true => exact (block_ends function body hm).leaving
    | false => exact branches_ends function rest hm

end

end

/-! ## Calls inside each other -/

/-- A function that is run at some depth has the calls up to the limit left, and gives back the depth. -/
theorem runFunction_does (p : ProgramPlan) (nesting limit n : Nat) (f : FunctionPlan) (arg : Value) {m : Machine}
    (hn : limit ≤ m.depth + n) :
    Does (runFunction p nesting limit n f arg) m (Eval.runWithin p nesting limit (limit - m.depth) f arg) := by
  induction n generalizing f arg m with
  | zero =>
    have hleft : limit - m.depth = 0 := by omega
    rw [hleft]
    exact does_throw _ m
  | succ n ih =>
    change (if limit ≤ m.depth then throw (.recursionLimit limit) else _ : Act Value).run m = _
    split
    · rename_i hfull
      have hleft : limit - m.depth = 0 := by omega
      rw [hleft]
      rfl
    · rename_i hfree
      obtain ⟨k, hk⟩ : ∃ k, limit - m.depth = k + 1 := ⟨limit - m.depth - 1, by omega⟩
      have hcall : ∀ f v (m' : Machine), m'.depth = m.depth + 1 →
          Does (runFunction p nesting limit n f v) m' (Eval.runWithin p nesting limit k f v) := by
        intro f v m' hm'
        have hinside := ih f v (m := m') (by omega)
        rwa [show limit - m'.depth = k by omega] at hinside
      have hblock := block_ends (exprWith_does (p := p) hcall nesting) f.name f.body
        (m := ⟨m.depth + 1, Eval.entryEnv f arg⟩) rfl
      rw [hk]
      exact hblock.within.counted

end Act

/-! ## Requests -/

/-- What an interpreter can be asked. -/
inductive Request where
  | main
  | call (name : String) (arg : Value)

/-- What the evaluator answers. -/
def Request.outcome (r : Request) (p : ProgramPlan) (nesting limit : Nat) : Outcome :=
  match r with
  | .main => p.runMain nesting limit
  | .call name arg => p.call nesting limit name arg

namespace Interpreter

def perform (i : Interpreter) : Request → Outcome × Interpreter
  | .main => i.runMain
  | .call name arg => i.call name arg

/-- An interpreter behind some requests. -/
def after (i : Interpreter) : List Request → Interpreter
  | [] => i
  | r :: rest => (i.perform r).2.after rest

theorem run_eq (p : ProgramPlan) (nesting limit : Nat) (f : FunctionPlan) (arg : Value) :
    run { plan := p, limit, nesting } f arg = (p.run nesting limit f arg, { plan := p, limit, nesting }) := by
  have hdoes := Act.runFunction_does p nesting limit limit f arg (m := ⟨0, .start⟩) (by simp)
  unfold run
  dsimp only
  rw [show (Act.runFunction p nesting limit limit f arg).run ⟨0, .start⟩ = _ from hdoes]
  rfl

theorem perform_eq (p : ProgramPlan) (nesting limit : Nat) (r : Request) :
    perform { plan := p, limit, nesting } r = (r.outcome p nesting limit, { plan := p, limit, nesting }) := by
  cases r with
  | main =>
    unfold perform runMain Request.outcome ProgramPlan.runMain
    dsimp only
    cases p.main? with
    | none => rfl
    | some f => exact run_eq p nesting limit f .unit
  | call name arg =>
    unfold perform call Request.outcome ProgramPlan.call
    dsimp only
    cases p.callee? name with
    | none => rfl
    | some f => exact run_eq p nesting limit f arg

theorem after_eq (p : ProgramPlan) (nesting limit : Nat) (before : List Request) :
    after { plan := p, limit, nesting } before = { plan := p, limit, nesting } := by
  induction before with
  | nil => rfl
  | cons r rest ih => rw [after, perform_eq, ih]

/-- **An interpreter can be used again.** Behind any requests, whatever their outcomes were, the depth of
calls is what it was at first, and a request is answered as by a new interpreter and as the evaluator
answers it, and leaves the depth there again. -/
theorem perform_fresh (p : ProgramPlan) (nesting limit : Nat) (before : List Request) (r : Request) :
    let fresh : Interpreter := { plan := p, limit, nesting }
    (fresh.after before).depth = fresh.depth ∧
      ((fresh.after before).perform r).1 = (fresh.perform r).1 ∧
      (fresh.perform r).1 = r.outcome p nesting limit ∧
      ((fresh.after before).perform r).2 = fresh := by
  intro fresh
  have hafter : fresh.after before = fresh := after_eq p nesting limit before
  have hperform : fresh.perform r = (r.outcome p nesting limit, fresh) := perform_eq p nesting limit r
  rw [hafter, hperform]
  exact ⟨rfl, rfl, rfl, rfl⟩

/-- Behind a request that failed two calls deep, two calls are free again. -/
example :
    let i : Interpreter := { plan := ProgramPlan.countdown, limit := 2 }
    (i.call "down" (.int 2)).1 = .error (.recursionLimit 2) ∧
      ((i.after [.call "down" (.int 2), .main]).call "down" (.int 1)).1 = .ok (.int 0) := ⟨rfl, rfl⟩

end Interpreter

end Dataflow
