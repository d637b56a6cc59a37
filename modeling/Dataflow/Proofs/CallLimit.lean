import Dataflow.Eval.Run
import Mathlib.Tactic.Common

/-!
# The limit of calls

The evaluator stops with an error when calls nest deeper than a limit. Nothing in it catches that
error, so an outcome of another kind was found without the calls that the limit forbids, and a higher
limit gives the same one (`ProgramPlan.run_raised`). The bound on applications of values inside each other is no
more than that either (`ProgramPlan.run_deeper`).

What a call means is a parameter of the evaluator. Two meanings are compared by `CutOff`: the first
gives what the second gives, or stops with a certain error. Every part of the evaluator keeps this relation.
-/

namespace Dataflow

/-- The first outcome is the second one, or it was cut off with the error `stop`. -/
def CutOff {α : Type} (stop : EvalError) (x y : Except EvalError α) : Prop := x = .error stop ∨ x = y

namespace CutOff

variable {α β : Type} {stop : EvalError}

theorem refl (x : Except EvalError α) : CutOff stop x x := Or.inr rfl

/-- An error that ends the first part ends the whole. -/
theorem bind {x y : Except EvalError α} {f g : α → Except EvalError β} (h : CutOff stop x y)
    (hfg : ∀ a, CutOff stop (f a) (g a)) : CutOff stop (x >>= f) (y >>= g) := by
  rcases h with rfl | rfl
  · exact Or.inl rfl
  · cases x with
    | error e => exact refl _
    | ok a => exact hfg a

end CutOff

namespace Eval

/-! ## What is evaluated one after the other -/

section
variable {apply : Value → Value → Outcome} {call : FunctionPlan → Value → Outcome} {p : ProgramPlan}
  {inv : String → List Value → Outcome} {eval : Env → Expr → Outcome} {env : Env}

theorem applyAll_cons (v arg : Value) (rest : List Value) :
    applyAll apply v (arg :: rest) = apply v arg >>= fun v => applyAll apply v rest := by
  rw [applyAll]
  cases apply v arg <;> rfl

theorem invoke_callee {name : String} {f : FunctionPlan} (h : p.callee? name = some f) (args : List Value) :
    invoke p call apply name args =
      call f (args.head?.getD .unit) >>= fun v => applyAll apply v args.tail := by
  rw [invoke, h]
  dsimp only
  cases call f (args.head?.getD .unit) <;> rfl

theorem invoke_builtin {name : String} (h : p.callee? name = none) (args : List Value) :
    invoke p call apply name args =
      match Builtin.arity? name with
      | none => .error (.unknownFunction name)
      | some arity =>
        if args.length < arity then .ok (.waiting name (resize arity (args.map some)))
        else Builtin.run name (args.take arity) >>= fun v => applyAll apply v (args.drop arity) := by
  rw [invoke, h]
  dsimp only
  cases Builtin.arity? name with
  | none => rfl
  | some arity =>
    dsimp only
    cases Builtin.run name (args.take arity) <;> rfl

theorem expr_tuple (items : List Expr) :
    expr inv env (.tuple items) = exprList inv env items >>= fun vs => .ok (.tuple vs) := by
  rw [expr]
  cases exprList inv env items <;> rfl

theorem expr_call (func : String) (arity : Nat) (args : List (Option Expr)) :
    expr inv env (.call func arity args) = exprArgs inv env args >>= fun vs =>
      if arity ≤ vs.length && vs.all Option.isSome then inv func (vs.filterMap id)
      else .ok (.waiting func (resize arity vs)) := by
  rw [expr]
  cases exprArgs inv env args <;> rfl

theorem exprList_cons (e : Expr) (es : List Expr) :
    exprList inv env (e :: es) =
      expr inv env e >>= fun v => exprList inv env es >>= fun vs => .ok (v :: vs) := by
  rw [exprList]
  cases expr inv env e <;> cases exprList inv env es <;> rfl

theorem exprArgs_hole (es : List (Option Expr)) :
    exprArgs inv env (none :: es) = exprArgs inv env es >>= fun vs => .ok (none :: vs) := by
  rw [exprArgs]
  cases exprArgs inv env es <;> rfl

theorem exprArgs_cons (e : Expr) (es : List (Option Expr)) :
    exprArgs inv env (some e :: es) =
      expr inv env e >>= fun v => exprArgs inv env es >>= fun vs => .ok (some v :: vs) := by
  rw [exprArgs]
  cases expr inv env e <;> cases exprArgs inv env es <;> rfl

theorem steps_bind (x : String) (ty : Ty) (e : Expr) (rest : List Step) :
    steps eval env (.bind x ty e :: rest) = eval env e >>= fun v => steps eval (env.add x v) rest := by
  rw [steps]
  cases eval env e <;> rfl

theorem steps_result (e : Expr) (rest : List Step) :
    steps eval env (.result e :: rest) = eval env e >>= fun v => .ok (.inl v) := by
  rw [steps]
  cases eval env e <;> rfl

theorem block_mk (function : String) (definitions : List Step) (branches : List (BranchLabel × Body)) :
    block eval function env (.mk definitions branches) = steps eval env.enter definitions >>= fun r =>
      match r with
      | .inl v => .ok v
      | .inr env => blockBranches eval function env branches := by
  rw [block]
  rcases steps eval env.enter definitions with e | v | env <;> rfl

theorem blockBranches_cons (function : String) (label : BranchLabel) (body : Body) (rest : List (BranchLabel × Body)) :
    blockBranches eval function env ((label, body) :: rest) = select eval env label >>= fun taken =>
      if taken then block eval function env body else blockBranches eval function env rest := by
  rw [blockBranches]
  rcases select eval env label with e | _ | _ <;> rfl

end

variable {stop : EvalError} {p : ProgramPlan}

/-! ## Application -/

section
variable {call call' : FunctionPlan → Value → Outcome} (hcall : ∀ f v, CutOff stop (call f v) (call' f v))

theorem applyAll_cutOff {apply apply' : Value → Value → Outcome}
    (happly : ∀ v arg, CutOff stop (apply v arg) (apply' v arg)) (v : Value) (args : List Value) :
    CutOff stop (applyAll apply v args) (applyAll apply' v args) := by
  induction args generalizing v with
  | nil => exact .refl _
  | cons arg rest ih =>
    rw [applyAll_cons, applyAll_cons]
    exact (happly v arg).bind ih

include hcall

theorem invoke_cutOff {apply apply' : Value → Value → Outcome}
    (happly : ∀ v arg, CutOff stop (apply v arg) (apply' v arg)) (name : String) (args : List Value) :
    CutOff stop (invoke p call apply name args) (invoke p call' apply' name args) := by
  cases hcallee : p.callee? name with
  | some f =>
    rw [invoke_callee hcallee, invoke_callee hcallee]
    exact (hcall f _).bind fun v => applyAll_cutOff happly v _
  | none =>
    rw [invoke_builtin hcallee, invoke_builtin hcallee]
    split
    · exact .refl _
    · split
      · exact .refl _
      · exact (CutOff.refl _).bind fun v => applyAll_cutOff happly v _

end

/-! ## Expressions -/

section
variable {invoke invoke' : String → List Value → Outcome}

mutual

theorem expr_cutOff (hinvoke : ∀ name args, CutOff stop (invoke name args) (invoke' name args)) (env : Env) :
    ∀ e : Expr, CutOff stop (expr invoke env e) (expr invoke' env e)
  | .var name => .refl _
  | .lit l => .refl _
  | .lambda param body => .refl _
  | .tuple items => by
    rw [expr_tuple, expr_tuple]
    exact (exprList_cutOff hinvoke env items).bind fun vs => .refl _
  | .call func arity args => by
    rw [expr_call, expr_call]
    refine (exprArgs_cutOff hinvoke env args).bind fun vs => ?_
    split
    · exact hinvoke func _
    · exact .refl _

theorem exprList_cutOff (hinvoke : ∀ name args, CutOff stop (invoke name args) (invoke' name args)) (env : Env) :
    ∀ es : List Expr, CutOff stop (exprList invoke env es) (exprList invoke' env es)
  | [] => .refl _
  | e :: es => by
    rw [exprList_cons, exprList_cons]
    exact (expr_cutOff hinvoke env e).bind fun v => (exprList_cutOff hinvoke env es).bind fun vs => .refl _

theorem exprArgs_cutOff (hinvoke : ∀ name args, CutOff stop (invoke name args) (invoke' name args)) (env : Env) :
    ∀ es : List (Option Expr), CutOff stop (exprArgs invoke env es) (exprArgs invoke' env es)
  | [] => .refl _
  | none :: es => by
    rw [exprArgs_hole, exprArgs_hole]
    exact (exprArgs_cutOff hinvoke env es).bind fun vs => .refl _
  | some e :: es => by
    rw [exprArgs_cons, exprArgs_cons]
    exact (expr_cutOff hinvoke env e).bind fun v => (exprArgs_cutOff hinvoke env es).bind fun vs => .refl _

end

end

section
variable {call call' : FunctionPlan → Value → Outcome} (hcall : ∀ f v, CutOff stop (call f v) (call' f v))
include hcall

/-- A function value is applied by a call or by the evaluation of a lambda's body, and what these apply in turn is
one level further down. -/
theorem applyWithin_succ_cutOff {n n' : Nat}
    (h : ∀ v arg, CutOff stop (applyWithin p call n v arg) (applyWithin p call' n' v arg)) (v arg : Value) :
    CutOff stop (applyWithin p call (n + 1) v arg) (applyWithin p call' (n' + 1) v arg) := by
  have hinvoke := invoke_cutOff (p := p) hcall h
  cases v with
  | lit l => exact .refl _
  | tuple items => exact .refl _
  | waiting func args =>
    unfold applyWithin
    split
    · exact .refl _
    · split
      · exact hinvoke func _
      · exact .refl _
  | closure param body env => exact expr_cutOff hinvoke _ body

theorem applyWithin_cutOff (n : Nat) (v arg : Value) :
    CutOff stop (applyWithin p call n v arg) (applyWithin p call' n v arg) := by
  induction n generalizing v arg with
  | zero => exact .refl _
  | succ n ih => exact applyWithin_succ_cutOff hcall ih v arg

theorem exprWith_cutOff (nesting : Nat) (env : Env) (e : Expr) :
    CutOff stop (exprWith p nesting call env e) (exprWith p nesting call' env e) :=
  expr_cutOff (invoke_cutOff hcall (applyWithin_cutOff hcall nesting)) env e

end

/-! ## Blocks -/

section
variable {eval eval' : Env → Expr → Outcome}

theorem select_cutOff (heval : ∀ env e, CutOff stop (eval env e) (eval' env e)) (env : Env) (label : BranchLabel) :
    CutOff stop (select eval env label) (select eval' env label) := by
  cases label with
  | otherwise => exact .refl _
  | pattern subject pat ty => exact .refl _
  | guard test =>
    unfold select
    dsimp only
    -- what the test gives is looked at: the error has to come out as it is
    rcases heval env test with h | h
    · rw [h]
      exact Or.inl rfl
    · rw [h]
      exact .refl _

theorem steps_cutOff (heval : ∀ env e, CutOff stop (eval env e) (eval' env e)) (env : Env) (ds : List Step) :
    CutOff stop (steps eval env ds) (steps eval' env ds) := by
  induction ds generalizing env with
  | nil => exact .refl _
  | cons d rest ih =>
    cases d with
    | bind x ty e =>
      rw [steps_bind, steps_bind]
      exact (heval env e).bind fun v => ih _
    | unpack tuple vars ty =>
      unfold steps
      split
      · exact .refl _
      · split
        · exact ih _
        · exact .refl _
      · exact .refl _
    | result e =>
      rw [steps_result, steps_result]
      exact (heval env e).bind fun v => .refl _

mutual

theorem block_cutOff (heval : ∀ env e, CutOff stop (eval env e) (eval' env e)) (function : String) :
    ∀ (env : Env) (b : Body), CutOff stop (block eval function env b) (block eval' function env b)
  | env, .mk definitions branches => by
    rw [block_mk, block_mk]
    refine (steps_cutOff heval env.enter definitions).bind fun r => ?_
    cases r with
    | inl v => exact .refl _
    | inr env => exact branches_cutOff heval function env branches

theorem branches_cutOff (heval : ∀ env e, CutOff stop (eval env e) (eval' env e)) (function : String) :
    ∀ (env : Env) (branches : List (BranchLabel × Body)),
      CutOff stop (blockBranches eval function env branches) (blockBranches eval' function env branches)
  | env, [] => .refl _
  | env, (label, body) :: rest => by
    rw [blockBranches_cons, blockBranches_cons]
    refine (select_cutOff heval env label).bind fun taken => ?_
    cases taken with
    | true => exact block_cutOff heval function env body
    | false => exact branches_cutOff heval function env rest

end

end

/-! ## Calls inside each other -/

/-- Runs a function; a call inside `n` others means `beyond`. -/
def runOver (p : ProgramPlan) (nesting : Nat) (beyond : FunctionPlan → Value → Outcome) :
    (n : Nat) → FunctionPlan → Value → Outcome
  | 0, f, arg => beyond f arg
  | n + 1, f, arg => block (exprWith p nesting (runOver p nesting beyond n)) f.name (entryEnv f arg) f.body

variable {nesting : Nat}

/-- The evaluator stops at the limit. -/
theorem runWithin_eq_runOver (limit n : Nat) :
    runWithin p nesting limit n = runOver p nesting (fun _ _ => .error (.recursionLimit limit)) n := by
  induction n with
  | zero => rfl
  | succ n ih =>
    funext f arg
    rw [runWithin, runOver, ih]

/-- Calls inside `n` others, which mean calls inside `m` more. -/
theorem runOver_add (beyond : FunctionPlan → Value → Outcome) (m n : Nat) :
    runOver p nesting beyond (m + n) = runOver p nesting (runOver p nesting beyond m) n := by
  induction n with
  | zero => rfl
  | succ n ih =>
    funext f arg
    rw [← Nat.add_assoc, runOver, runOver, ih]

theorem runOver_cutOff {beyond beyond' : FunctionPlan → Value → Outcome}
    (h : ∀ f v, CutOff stop (beyond f v) (beyond' f v)) (n : Nat) (f : FunctionPlan) (arg : Value) :
    CutOff stop (runOver p nesting beyond n f arg) (runOver p nesting beyond' n f arg) := by
  induction n generalizing f arg with
  | zero => exact h f arg
  | succ n ih => exact block_cutOff (exprWith_cutOff ih nesting) f.name _ f.body

/-- Whatever calls beyond the limit would mean: a run that stops at the limit instead has the same
outcome, or it is the limit's error. -/
theorem runWithin_cutOff (limit n : Nat) (beyond : FunctionPlan → Value → Outcome) (f : FunctionPlan) (arg : Value) :
    CutOff (.recursionLimit limit) (runWithin p nesting limit n f arg) (runOver p nesting beyond n f arg) := by
  rw [runWithin_eq_runOver]
  exact runOver_cutOff (fun _ _ => Or.inl rfl) n f arg

/-! ## Applications inside each other -/

/-- The error of an evaluation that applies values too deep inside each other. -/
abbrev tooDeep : EvalError := .nestingLimit

section
variable {call call' : FunctionPlan → Value → Outcome} (hcall : ∀ f v, CutOff tooDeep (call f v) (call' f v))
  {n n' : Nat} (hle : n ≤ n')
include hcall hle

theorem applyWithin_deeper (v arg : Value) :
    CutOff tooDeep (applyWithin p call n v arg) (applyWithin p call' n' v arg) := by
  induction n generalizing n' v arg with
  | zero => exact Or.inl rfl
  | succ n ih =>
    obtain ⟨n', rfl⟩ := Nat.exists_eq_add_of_le' hle
    exact applyWithin_succ_cutOff hcall (fun v arg => ih (Nat.le_of_succ_le_succ hle) v arg) v arg

theorem exprWith_deeper (env : Env) (e : Expr) :
    CutOff tooDeep (exprWith p n call env e) (exprWith p n' call' env e) :=
  expr_cutOff (invoke_cutOff hcall (applyWithin_deeper hcall hle)) env e

end

theorem runWithin_deeper {nesting' : Nat} (hle : nesting ≤ nesting') (limit n : Nat) (f : FunctionPlan) (arg : Value) :
    CutOff tooDeep (runWithin p nesting limit n f arg) (runWithin p nesting' limit n f arg) := by
  induction n generalizing f arg with
  | zero => exact .refl _
  | succ n ih => exact block_cutOff (exprWith_deeper ih hle) f.name _ f.body

end Eval

namespace ProgramPlan

/-- **The bound on applications only cuts off.** A run that does not end at it has the same outcome under every
greater bound, so this is the outcome without one. -/
theorem run_deeper (p : ProgramPlan) {nesting nesting' : Nat} (hle : nesting ≤ nesting') (limit : Nat)
    (f : FunctionPlan) (arg : Value) (h : p.run nesting limit f arg ≠ .error .nestingLimit) :
    p.run nesting' limit f arg = p.run nesting limit f arg :=
  ((Eval.runWithin_deeper hle limit limit f arg).resolve_left h).symm

variable {nesting : Nat}

theorem run_cutOff (p : ProgramPlan) {d d' : Nat} (hle : d ≤ d') (f : FunctionPlan) (arg : Value) :
    CutOff (.recursionLimit d) (p.run nesting d f arg) (p.run nesting d' f arg) := by
  obtain ⟨m, rfl⟩ : ∃ m, d' = m + d := ⟨d' - d, by omega⟩
  have hsplit : p.run nesting (m + d) f arg =
      Eval.runOver p nesting (Eval.runWithin p nesting (m + d) m) d f arg := by
    rw [run, Eval.runWithin_eq_runOver, Eval.runOver_add, ← Eval.runWithin_eq_runOver]
  rw [hsplit]
  exact Eval.runWithin_cutOff d d _ f arg

/-- **A limit only cuts off.** If a run within `d` calls has another outcome than the limit's error, a
higher limit gives that outcome too, and so does any meaning of the calls that the limit forbids: none
of them had a part in it. The same holds of calls by name and of the main function. -/
theorem run_raised (p : ProgramPlan) (nesting : Nat) {d d' : Nat} (hle : d ≤ d') :
    (∀ (f : FunctionPlan) (arg : Value), p.run nesting d f arg ≠ .error (.recursionLimit d) →
      p.run nesting d' f arg = p.run nesting d f arg ∧
        ∀ beyond, Eval.runOver p nesting beyond d f arg = p.run nesting d f arg) ∧
    (∀ (name : String) (arg : Value), p.call nesting d name arg ≠ .error (.recursionLimit d) →
      p.call nesting d' name arg = p.call nesting d name arg) ∧
    (p.runMain nesting d ≠ .error (.recursionLimit d) → p.runMain nesting d' = p.runMain nesting d) := by
  refine ⟨fun f arg h => ⟨?_, fun beyond => ?_⟩, fun name arg h => ?_, fun h => ?_⟩
  · exact ((p.run_cutOff hle f arg).resolve_left h).symm
  · exact ((Eval.runWithin_cutOff d d beyond f arg).resolve_left h).symm
  · unfold call at h ⊢
    cases hcallee : p.callee? name with
    | none => rfl
    | some f =>
      rw [hcallee] at h
      exact ((p.run_cutOff hle f arg).resolve_left h).symm
  · unfold runMain at h ⊢
    cases hmain : p.main? with
    | none => rfl
    | some f =>
      rw [hmain] at h
      exact ((p.run_cutOff hle f .unit).resolve_left h).symm

/-- A function that calls itself with the number before, down to zero, and a main function that calls
it with two. -/
def countdown : ProgramPlan where
  functions := [
    { name := "down", param := some "n", paramType := .int, resultType := .int,
      body := .mk [] [
        (.pattern "n" (.value (.int 0)) .int, .mk [.result (.var "n")] []),
        (.otherwise, .mk [.result (.call "down" 1 [some (.call "-" 2 [some (.var "n"), some (.lit (.int 1))])])] [])] },
    { name := "main", param := none, paramType := .unit, resultType := .int,
      body := .mk [.result (.call "down" 1 [some (.lit (.int 2))])] [] }]

/-- From two, three calls stand inside each other: within two the limit is reached, and what comes out
within three comes out within five thousand. -/
theorem run_raised_countdown : countdown.call 9 2 "down" (.int 2) = .error (.recursionLimit 2) ∧ 3 ≤ 5000 ∧
    countdown.call 9 3 "down" (.int 2) = .ok (.int 0) ∧ countdown.call 9 5000 "down" (.int 2) = .ok (.int 0) ∧
    countdown.runMain 9 4 = .ok (.int 0) ∧ countdown.runMain 9 5000 = .ok (.int 0) := by
  have hcall : countdown.call 9 3 "down" (.int 2) = .ok (.int 0) := rfl
  have hmain : countdown.runMain 9 4 = .ok (.int 0) := rfl
  refine ⟨rfl, by decide, hcall, ?_, hmain, ?_⟩
  · rw [← hcall]
    exact (run_raised countdown 9 (by decide)).2.1 "down" (.int 2) (by rw [hcall]; simp)
  · rw [← hmain]
    exact (run_raised countdown 9 (by decide)).2.2 (by rw [hmain]; simp)

end ProgramPlan

end Dataflow
