import Dataflow.Proofs.CallLimit
import Dataflow.Proofs.PartialApplication
import Dataflow.Proofs.Yields

/-!
# Morphisms as function values

A morphism with parameters is called with inputs, or it stands as a value that is applied to arguments one at a
time. The two take different ways through the evaluator: a value is a call that waits for its open arguments, a
lambda for a tuple, or the name `id` for the identity. They come to the same, with two exceptions
(`Morphism.applied_eq_called`). The name `id` may be taken by a function of the plan, and the lambda of a tuple adds
`arg` to the variables that lambdas inside it capture, which the equality of values sees
(`Morphism.applied_ne_called`).

Applications inside each other are bounded, and a value spends one more level than a call. So the two
outcomes are compared at bounds next to each other: each is the other or stops at the bound.
-/

namespace Dataflow

namespace Eval

variable {p : ProgramPlan} {call : FunctionPlan → Value → Outcome} {inv : String → List Value → Outcome} {env env' : Env}

theorem invoke_deeper (n : Nat) (name : String) (args : List Value) :
    CutOff tooDeep (invoke p call (applyWithin p call n) name args)
      (invoke p call (applyWithin p call (n + 1)) name args) :=
  invoke_cutOff (fun _ _ => .refl _) (applyWithin_deeper (fun _ _ => .refl _) (Nat.le_succ n)) name args

/-! ## Arguments that are waited for -/

theorem applyAll_singleton (apply : Value → Value → Outcome) (v x : Value) : applyAll apply v [x] = apply v x := by
  rw [applyAll_cons]
  cases apply v x <;> rfl

/-- Values in the places of the arguments that are waited for, in order. -/
def fillAll : List (Option Value) → List Value → List Value
  | [], _ => []
  | some a :: args, xs => a :: fillAll args xs
  | none :: args, x :: xs => x :: fillAll args xs
  | none :: args, [] => fillAll args []

/-- The first value goes to the first place. -/
theorem exists_fillHole (x : Value) {args : List (Option Value)} (h : 0 < args.countP Option.isNone) :
    ∃ args', fillHole x args = some args' ∧ args'.countP Option.isNone + 1 = args.countP Option.isNone ∧
      ∀ xs, fillAll args' xs = fillAll args (x :: xs) := by
  induction args with
  | nil => simp at h
  | cons arg args ih =>
    cases arg with
    | none => exact ⟨some x :: args, rfl, by simp, fun xs => rfl⟩
    | some a =>
      obtain ⟨args', hfill, hcount, hall⟩ := ih (by simpa using h)
      refine ⟨some a :: args', by simp [fillHole, hfill], by simpa using hcount, fun xs => ?_⟩
      simp only [fillAll, hall]

/-- Nothing is waited for if every argument is there. -/
theorem all_isSome_iff {args : List (Option Value)} :
    args.all Option.isSome = true ↔ args.countP Option.isNone = 0 := by
  simp [List.countP_eq_zero, Option.ne_none_iff_isSome]

theorem filterMap_eq_fillAll {args : List (Option Value)} (h : args.all Option.isSome = true) :
    args.filterMap id = fillAll args [] := by
  induction args with
  | nil => rfl
  | cons arg args ih =>
    cases arg with
    | none => simp at h
    | some a => simp [fillAll, ← ih (by simpa using h)]

/-- Applied to as many values as it waits for, one at a time, a call is made with the last of them. -/
theorem applyAll_waiting (name : String) (n : Nat) {args : List (Option Value)} {xs : List Value} (hne : xs ≠ [])
    (hcount : args.countP Option.isNone = xs.length) :
    applyAll (applyWithin p call (n + 1)) (.waiting name args) xs =
      invoke p call (applyWithin p call n) name (fillAll args xs) := by
  induction xs generalizing args with
  | nil => exact absurd rfl hne
  | cons x xs ih =>
    rw [List.length_cons] at hcount
    have hhole : 0 < args.countP Option.isNone := by omega
    obtain ⟨args', hfill, hcount', hall⟩ := exists_fillHole x hhole
    rw [← hall]
    cases xs with
    | nil =>
      have hfull : args'.all Option.isSome = true := by
        rw [List.length_nil] at hcount
        exact all_isSome_iff.2 (by omega)
      rw [applyAll_singleton]
      simp only [applyWithin, hfill, hfull, if_true, filterMap_eq_fillAll hfull]
    | cons y ys =>
      have hopen : ¬ args'.all Option.isSome = true := by
        rw [List.length_cons] at hcount
        rw [all_isSome_iff]
        omega
      rw [applyAll_cons]
      simp only [applyWithin, hfill, if_neg hopen]
      exact ih (by simp) (by omega)

/-- A call waits for the arguments that it was not given. -/
theorem exprArgs_countP {args : List (Option Expr)} {vs : List (Option Value)} (h : exprArgs inv env args = .ok vs) :
    vs.length = args.length ∧ vs.countP Option.isNone = args.countP Option.isNone := by
  have hholes := exprArgs_holes h
  have hcount : ∀ {α : Type} (l : List (Option α)), l.countP Option.isNone = (l.map Option.isSome).countP not := by
    intro α l
    rw [List.countP_map]
    exact List.countP_congr fun a _ => by cases a <;> simp
  exact ⟨by simpa using congrArg List.length hholes, by rw [hcount, hcount, hholes]⟩

end Eval

namespace Morphism

open Eval

variable {p : ProgramPlan} {call : FunctionPlan → Value → Outcome} {inv : String → List Value → Outcome} {env env' : Env}
  {bound : List (Nat × Expr)} {positions : List Nat} {es : List Expr} {xs : List Value}

/-! ## Names and partial applications -/

/-- The positions that nothing is bound to. -/
theorem countP_fill_nil (bound : List (Nat × Expr)) (positions : List Nat) :
    (fill bound positions []).countP Option.isNone = positions.countP fun i => (Assoc.get? i bound).isNone := by
  induction positions with
  | nil => rfl
  | cons i positions ih =>
    cases h : Assoc.get? i bound <;> simp [fill, h, ih]

/-- Inputs that are given at once come to the places that values given later would fill. -/
theorem exprArgs_fill (hes : List.Forall₂ (fun e x => expr inv env e = .ok x) es xs)
    (hcount : (positions.countP fun i => (Assoc.get? i bound).isNone) = es.length) :
    exprArgs inv env (fill bound positions es) =
      exprArgs inv env (fill bound positions []) >>= fun vs => .ok ((fillAll vs xs).map some) := by
  induction positions generalizing es xs with
  | nil => rfl
  | cons i positions ih =>
    cases h : Assoc.get? i bound with
    | some e =>
      have hrest := ih hes (by simpa [h] using hcount)
      simp only [fill, h, exprArgs_cons, hrest]
      cases expr inv env e with
      | error err => rfl
      | ok v => cases exprArgs inv env (fill bound positions []) <;> rfl
    | none =>
      cases hes with
      | nil => simp [h] at hcount
      | @cons e x es xs he hes =>
        have hrest := ih hes (by simpa [h] using hcount)
        simp only [fill, h, exprArgs_cons, exprArgs_hole, hrest, he]
        cases exprArgs inv env (fill bound positions []) <;> rfl

section
variable (name : String) (hes : List.Forall₂ (fun e x => expr inv env e = .ok x) es xs)
  (hcount : (positions.countP fun i => (Assoc.get? i bound).isNone) = es.length)
include hes hcount

/-- All arguments are there at once. -/
theorem expr_call_fill : expr inv env (.call name positions.length (fill bound positions es)) =
    exprArgs inv env (fill bound positions []) >>= fun vs => inv name (fillAll vs xs) := by
  rw [expr_call, exprArgs_fill hes hcount]
  have hlen : ∀ vs, exprArgs inv env (fill bound positions es) = .ok ((fillAll vs xs).map some) →
      positions.length ≤ (fillAll vs xs).length := by
    intro vs h
    have := (exprArgs_countP h).1
    simp only [List.length_map, fill_length] at this
    omega
  rw [exprArgs_fill hes hcount] at hlen
  cases hvs : exprArgs inv env (fill bound positions []) with
  | error err => rfl
  | ok vs =>
    have hlen := hlen vs (by rw [hvs]; rfl)
    have hfull : (decide (positions.length ≤ ((fillAll vs xs).map some).length) &&
        ((fillAll vs xs).map some).all Option.isSome) = true := by simpa using hlen
    have hvalues : ((fillAll vs xs).map some).filterMap id = fillAll vs xs := by simp [List.filterMap_map]
    show (if _ then _ else _) = inv name (fillAll vs xs)
    rw [if_pos hfull, hvalues]

/-- The arguments come one at a time. -/
theorem applyAll_fill (hne : xs ≠ []) (n : Nat) :
    (expr inv env (.call name positions.length (fill bound positions [])) >>= fun f =>
        applyAll (applyWithin p call (n + 1)) f xs) =
      exprArgs inv env (fill bound positions []) >>= fun vs =>
        invoke p call (applyWithin p call n) name (fillAll vs xs) := by
  rw [expr_call]
  cases hvs : exprArgs inv env (fill bound positions []) with
  | error err => rfl
  | ok vs =>
    obtain ⟨hlen, hholes⟩ := exprArgs_countP hvs
    rw [fill_length] at hlen
    rw [countP_fill_nil, hcount, hes.length_eq] at hholes
    have hopen : ¬ (decide (positions.length ≤ vs.length) && vs.all Option.isSome) = true := by
      intro hfull
      have hzero := all_isSome_iff.1 (Bool.and_eq_true_iff.1 hfull).2
      exact hne (List.eq_nil_of_length_eq_zero (hholes.symm.trans hzero))
    have hresize : resize positions.length vs = vs := by simp [resize, hlen]
    show ((if _ then _ else _) >>= _) = _
    rw [if_neg hopen, hresize]
    exact applyAll_waiting name n hne hholes

end

/-! ## Tuples -/

mutual

/-- Whether the expression of a morphism, as a value or called with inputs, has no lambda of its own. -/
def lambdaFree : Morphism → (asValue : Bool) → Bool
  | .named _ _ _, _ | .slot _, _ | .literal _, _ => true
  | .tuple parts params _, asValue => (params.isEmpty || !asValue) && lambdaFreeParts parts asValue
  | .bound base bindings _ _, _ => lambdaFreeBindings bindings && lambdaFree base false
termination_by structural f => f

def lambdaFreeParts : List Morphism → (asValues : Bool) → Bool
  | [], _ => true
  | f :: fs, asValues => lambdaFree f (asValues || f.arity = 0) && lambdaFreeParts fs asValues
termination_by structural fs => fs

def lambdaFreeBindings : List (Nat × Morphism) → Bool
  | [] => true
  | (_, f) :: rest => lambdaFree f true && lambdaFreeBindings rest
termination_by structural fs => fs

end

/-- Two expressions have one outcome, each in its own environment. -/
def SameOutcome (inv : String → List Value → Outcome) (env env' : Env) (e e' : Expr) : Prop :=
  expr inv env e = expr inv env' e'

section
variable {args args' : List (Option Expr)} {es' : List Expr}

theorem exprList_same (h : List.Forall₂ (SameOutcome inv env env') es es') :
    exprList inv env es = exprList inv env' es' := by
  induction h with
  | nil => rfl
  | cons he _ ih => rw [exprList_cons, exprList_cons, he, ih]

theorem exprArgs_same (h : List.Forall₂ (Option.Rel (SameOutcome inv env env')) args args') :
    exprArgs inv env args = exprArgs inv env' args' := by
  induction h with
  | nil => rfl
  | cons harg _ ih =>
    cases harg with
    | none => rw [exprArgs_hole, exprArgs_hole, ih]
    | some he => rw [exprArgs_cons, exprArgs_cons, he, ih]

theorem filterMap_same (h : List.Forall₂ (Option.Rel (SameOutcome inv env env')) args args') :
    List.Forall₂ (SameOutcome inv env env') (args.filterMap id) (args'.filterMap id) := by
  induction h with
  | nil => exact .nil
  | cons harg _ ih =>
    cases harg with
    | none => exact ih
    | some he => exact .cons he ih

theorem fill_same (hbound : ∀ x ∈ bound, SameOutcome inv env env' x.2 x.2) (positions : List Nat)
    (hes : List.Forall₂ (SameOutcome inv env env') es es') :
    List.Forall₂ (Option.Rel (SameOutcome inv env env')) (fill bound positions es) (fill bound positions es') := by
  induction positions generalizing es es' with
  | nil => exact .nil
  | cons i positions ih =>
    cases h : Assoc.get? i bound with
    | some e =>
      simp only [fill, h]
      exact .cons (.some (hbound (i, e) (Assoc.get?_mem h))) (ih hes)
    | none =>
      cases hes with
      | nil =>
        simp only [fill, h]
        exact .cons .none (ih .nil)
      | cons he hes =>
        simp only [fill, h]
        exact .cons (.some he) (ih hes)

/-- The arguments of a partial application go to a name, or they are the inputs of its base. -/
theorem call_bound_same {base : Morphism} {bindings : List (Nat × Morphism)} {params : List Ty} {result : Ty}
    (hbase : ∀ {es es'}, List.Forall₂ (SameOutcome inv env env') es es' →
      SameOutcome inv env env' (base.call es) (base.call es'))
    (hbindings : ∀ x ∈ valueBindings bindings, SameOutcome inv env env' x.2 x.2)
    (hes : List.Forall₂ (SameOutcome inv env env') es es') :
    SameOutcome inv env env' ((Morphism.bound base bindings params result).call es)
      ((Morphism.bound base bindings params result).call es') := by
  have hargs := fill_same hbindings (List.range base.arity) hes
  cases base with
  | named name ps r =>
    unfold SameOutcome Morphism.call
    rw [expr_call, expr_call, exprArgs_same hargs]
  | slot | literal | tuple | bound => exact hbase (filterMap_same hargs)

theorem value_bound (base : Morphism) (bindings : List (Nat × Morphism)) (params : List Ty) (result : Ty) :
    (Morphism.bound base bindings params result).value = (Morphism.bound base bindings params result).call [] := by
  cases base <;> rfl

end

mutual

/-- Only lambdas see more of the environment than the inputs. -/
theorem call_same : ∀ (f : Morphism) {es es' : List Expr}, env.captured = env'.captured ∨ f.lambdaFree false = true →
    List.Forall₂ (SameOutcome inv env env') es es' → SameOutcome inv env env' (f.call es) (f.call es')
  | .named name params result, es, es', _, hes => by
    have hargs : List.Forall₂ (Option.Rel (SameOutcome inv env env')) (es.map some) (es'.map some) := by
      simpa [List.forall₂_map_left_iff, List.forall₂_map_right_iff] using hes
    unfold SameOutcome Morphism.call
    rw [expr_call, expr_call, exprArgs_same hargs]
  | .literal l, _, _, _, _ => rfl
  | .slot index, _, _, _, hes => by
    cases hes with
    | nil => rfl
    | cons he _ => exact he
  | .tuple parts params result, _, _, h, hes => by
    have hparts := callParts_same parts (h.imp_right fun hfree => by simpa [lambdaFree] using hfree) hes
    unfold SameOutcome Morphism.call
    rw [expr_tuple, expr_tuple, exprList_same hparts]
  | .bound base bindings params result, _, _, h, hes => by
    simp only [lambdaFree, Bool.and_eq_true] at h
    exact call_bound_same (fun hes => call_same base (h.imp_right And.right) hes)
      (valueBindings_same bindings (h.imp_right And.left)) hes

theorem callParts_same : ∀ (fs : List Morphism) {es es' : List Expr},
    env.captured = env'.captured ∨ lambdaFreeParts fs false = true → List.Forall₂ (SameOutcome inv env env') es es' →
    List.Forall₂ (SameOutcome inv env env') (callParts fs es) (callParts fs es')
  | [], _, _, _, _ => .nil
  | f :: fs, _, _, h, hes => by
    simp only [lambdaFreeParts, Bool.false_or, Bool.and_eq_true] at h
    refine .cons ?_ (callParts_same fs (h.imp_right And.right) hes)
    by_cases hzero : f.arity = 0
    · rw [if_pos hzero, if_pos hzero]
      exact value_same f (h.imp_right fun hfree => by simpa [hzero] using hfree.1)
    · rw [if_neg hzero, if_neg hzero]
      exact call_same f (h.imp_right fun hfree => by simpa [hzero] using hfree.1) hes

theorem value_same : ∀ (f : Morphism), env.captured = env'.captured ∨ f.lambdaFree true = true →
    SameOutcome inv env env' f.value f.value
  | .named name params result, _ => by
    have hargs : List.Forall₂ (Option.Rel (SameOutcome inv env env')) (params.map fun _ => none)
        (params.map fun _ => none) := by simp [List.forall₂_same]
    unfold SameOutcome value
    rw [expr_call, expr_call, exprArgs_same hargs]
  | .literal l, _ => rfl
  | .slot index, _ => rfl
  | .tuple parts [] result, h => by
    have hparts := valueParts_same parts (h.imp_right fun hfree => by simpa [lambdaFree] using hfree)
    unfold SameOutcome value
    rw [expr_tuple, expr_tuple, exprList_same hparts]
  | .tuple parts (param :: params) result, h => by
    have hcaptured : env.captured = env'.captured := h.resolve_right (by simp [lambdaFree])
    unfold SameOutcome value
    rw [expr, expr, hcaptured]
  | .bound base bindings params result, h => by
    simp only [lambdaFree, Bool.and_eq_true] at h
    rw [value_bound]
    exact call_bound_same (fun hes => call_same base (h.imp_right And.right) hes)
      (valueBindings_same bindings (h.imp_right And.left)) .nil

theorem valueParts_same : ∀ (fs : List Morphism), env.captured = env'.captured ∨ lambdaFreeParts fs true = true →
    List.Forall₂ (SameOutcome inv env env') (valueParts fs) (valueParts fs)
  | [], _ => .nil
  | f :: fs, h => by
    simp only [lambdaFreeParts, Bool.true_or, Bool.and_eq_true] at h
    exact .cons (value_same f (h.imp_right And.left)) (valueParts_same fs (h.imp_right And.right))

theorem valueBindings_same : ∀ (bindings : List (Nat × Morphism)),
    env.captured = env'.captured ∨ lambdaFreeBindings bindings = true →
    ∀ x ∈ valueBindings bindings, SameOutcome inv env env' x.2 x.2
  | [], _, x, hx => by cases hx
  | (i, f) :: rest, h, x, hx => by
    simp only [lambdaFreeBindings, Bool.and_eq_true] at h
    rcases List.mem_cons.1 hx with rfl | hx
    · exact value_same f (h.imp_right And.left)
    · exact valueBindings_same rest (h.imp_right And.right) x hx

end

end Morphism

/-- The variables that a lambda captures are a table in order. -/
theorem Env.captured_ascending (env : Env) : Assoc.Ascending env.captured := by
  have hframe : ∀ (frame outer : List (String × Value)), Assoc.Ascending outer →
      Assoc.Ascending (frame.foldl (fun vars v => Assoc.insert v.1 v.2 vars) outer) := by
    intro frame
    induction frame with
    | nil => exact fun _ houter => houter
    | cons v frame ih => exact fun _ houter => ih _ (Assoc.insert_ascending houter)
  unfold captured
  induction env.frames with
  | nil => simp [Assoc.Ascending]
  | cons frame frames ih => exact hframe frame _ ih

/-- The body of a lambda captures what is around the lambda, if its parameter has the same meaning there. -/
theorem Env.captured_body {env : Env} {param : String} {x : Value} (h : (param, x) ∈ env.captured) :
    ((Env.ofCaptured env.captured).add param x).captured = env.captured := by
  have hasc := env.captured_ascending
  have hinsert : Assoc.insert param x env.captured = env.captured := by
    refine Assoc.Ascending.ext (Assoc.insert_ascending hasc) hasc fun name => ?_
    rw [Assoc.get?_insert]
    split
    · rename_i heq
      rw [heq, hasc.get?_of_mem h]
    · rfl
  calc ((Env.ofCaptured env.captured).add param x).captured
      = Assoc.ofList (Assoc.insert param x env.captured) := rfl
    _ = Assoc.ofList env.captured := by rw [hinsert]
    _ = env.captured := Assoc.ofList_ascending hasc

namespace Morphism

open Eval

variable {p : ProgramPlan} {call : FunctionPlan → Value → Outcome} {env : Env} {m f g : Morphism}
  {args : List (Nat × Morphism)} {es : List Expr} {xs : List Value}

/-! ## What is built -/

/-- What a partial application is of. -/
def core : Morphism → Morphism
  | .bound base _ _ _ => base
  | f => f

theorem bind_core (h : f.bind args = .ok g) : g.core = f.core := by
  unfold bind at h
  dsimp only at h
  split at h
  · cases h
  · split at h
    · obtain ⟨s, -, rfl⟩ := bindBase_ok h
      rfl
    · rename_i hfirst
      obtain ⟨s, -, rfl⟩ := bindBase_ok h
      cases f with
      | bound b bs ps r => exact absurd rfl (hfirst b bs ps r)
      | named | slot | literal | tuple => rfl

/-- Tuples take one input at most. -/
theorem Constructed.tuple_arity (h : m.Constructed) {parts : List Morphism} {params : List Ty} {result : Ty}
    (hcore : m.core = .tuple parts params result) : params.length ≤ 1 := by
  induction h with
  | ofFunction name ty | ofValue name ty | slot index | literal l => cases hcore
  | ofParts hparts h ih =>
    obtain ⟨params', result', rfl⟩ := ofParts_shape h
    cases hcore
    rcases ofParts_ok h with ⟨-, rfl, -⟩ | ⟨source, types, -, rfl, -⟩ <;> simp
  | bind hm hargs hasc h ih => exact ih ((bind_core h).symm.trans hcore)
  | applyAt hm harg h ih => exact ih ((bind_core h).symm.trans hcore)

/-- A partial application that takes further inputs is one of a name. -/
theorem Constructed.exists_named {base : Morphism} {bindings : List (Nat × Morphism)} {params : List Ty} {result : Ty}
    (h : (Morphism.bound base bindings params result).Constructed) (hpos : 0 < params.length) :
    ∃ name ps r, base = .named name ps r := by
  obtain ⟨hbase, hargs, hparams⟩ := h.flat base bindings params result rfl
  have hbound : 0 < bindings.length := List.length_pos_iff.2 hargs.nonempty
  have harity : 2 ≤ base.arity := by omega
  cases base with
  | named name ps r => exact ⟨name, ps, r, rfl⟩
  | slot index => simp [arity, Morphism.params] at harity
  | literal l => simp [arity, Morphism.params] at harity
  | tuple parts ps r =>
    have hone : ps.length ≤ 1 := h.tuple_arity rfl
    have htwo : 2 ≤ ps.length := harity
    omega
  | bound b bs ps r => exact absurd rfl (hbase b bs ps r)

/-! ## Applied and called -/

/-- The morphism as a value, applied to arguments one at a time; `n` applications may stand inside each other. -/
def appliedTo (p : ProgramPlan) (call : FunctionPlan → Value → Outcome) (env : Env) (m : Morphism) (xs : List Value)
    (n : Nat) : Outcome :=
  expr (invoke p call (applyWithin p call n)) env m.value >>= fun f => Eval.applyAll (applyWithin p call n) f xs

/-- The morphism called with inputs; `n` applications may stand inside each other. The evaluator of plans
allows `maxNesting` if nothing else is said. -/
def calledWith (p : ProgramPlan) (call : FunctionPlan → Value → Outcome) (env : Env) (m : Morphism) (es : List Expr)
    (n : Nat) : Outcome :=
  expr (invoke p call (applyWithin p call n)) env (m.call es)

theorem called_deeper (n : Nat) : CutOff tooDeep (m.calledWith p call env es n) (m.calledWith p call env es (n + 1)) :=
  expr_cutOff (invoke_deeper n) env _

/-- A value that is applied goes one level deeper than a call, and not two. -/
def Between (p : ProgramPlan) (call : FunctionPlan → Value → Outcome) (env : Env) (m : Morphism) (es : List Expr)
    (xs : List Value) : Prop :=
  ∀ n, CutOff tooDeep (m.calledWith p call env es n) (m.appliedTo p call env xs (n + 1)) ∧
    CutOff tooDeep (m.appliedTo p call env xs (n + 1)) (m.calledWith p call env es (n + 1))

/-- Each input has its value, whatever calls mean. -/
def Inputs (env : Env) (es : List Expr) (xs : List Value) : Prop :=
  List.Forall₂ (fun e x => ∀ inv, expr inv env e = .ok x) es xs

theorem Inputs.eval (h : Inputs env es xs) (inv : String → List Value → Outcome) :
    List.Forall₂ (fun e x => expr inv env e = .ok x) es xs :=
  h.imp fun _ _ he => he inv

/-- A name, with some arguments or none. -/
theorem between_fill {name : String} {bound : List (Nat × Expr)} {positions : List Nat}
    (hvalue : m.value = .call name positions.length (fill bound positions []))
    (hcall : m.call es = .call name positions.length (fill bound positions es)) (hes : Inputs env es xs) (hne : xs ≠ [])
    (hcount : (positions.countP fun i => (Assoc.get? i bound).isNone) = es.length) : Between p call env m es xs := by
  intro n
  unfold appliedTo calledWith
  rw [hvalue, hcall, expr_call_fill name (hes.eval _) hcount, expr_call_fill name (hes.eval _) hcount,
    applyAll_fill name (hes.eval _) hcount hne]
  -- both evaluate the bound arguments at their own bound; the value makes the call itself one level further down
  constructor
  · exact (exprArgs_cutOff (invoke_deeper n) env _).bind fun vs => .refl _
  · exact (CutOff.refl _).bind fun vs => invoke_deeper n name _

theorem fill_unbound {positions : List Nat} (h : es.length = positions.length) : fill [] positions es = es.map some := by
  induction positions generalizing es with
  | nil => simp_all [fill]
  | cons i positions ih =>
    cases es with
    | nil => simp at h
    | cons e es => simp [fill, Assoc.get?, ih (by simpa using h)]

theorem fill_nothing (positions : List Nat) : fill [] positions [] = positions.map fun _ => none := by
  induction positions with
  | nil => rfl
  | cons i positions ih => simp [fill, Assoc.get?, ih]

theorem between_named {name : String} {params : List Ty} {result : Ty} (hes : Inputs env es xs) (hne : xs ≠ [])
    (hlen : es.length = params.length) : Between p call env (.named name params result) es xs := by
  have hpositions : (List.range params.length).length = params.length := List.length_range
  have hvalue : value (.named name params result) = .call name (List.range params.length).length
      (fill [] (List.range params.length) []) := by
    rw [value, fill_nothing, hpositions, List.map_const', List.map_const', hpositions]
  have hcall : Morphism.call (.named name params result) es = .call name (List.range params.length).length
      (fill [] (List.range params.length) es) := by
    rw [Morphism.call, fill_unbound (by rw [hlen, hpositions]), hpositions]
  exact between_fill hvalue hcall hes hne (by simp [Assoc.get?, hlen])

theorem between_bound {name : String} {ps params : List Ty} {r result : Ty} {bindings : List (Nat × Morphism)}
    (hm : (Morphism.bound (.named name ps r) bindings params result).Constructed) (hes : Inputs env es xs) (hne : xs ≠ [])
    (hlen : es.length = params.length) :
    Between p call env (.bound (.named name ps r) bindings params result) es xs := by
  obtain ⟨-, hargs, hparams⟩ := hm.flat _ _ _ _ rfl
  have hopen := length_openPositions hargs.ascending hargs.below
  have hpositions : (List.range ps.length).length = ps.length := List.length_range
  have hcall : ∀ es, Morphism.call (.bound (.named name ps r) bindings params result) es =
      .call name (List.range ps.length).length (fill (valueBindings bindings) (List.range ps.length) es) := by
    intro es
    rw [hpositions]
    rfl
  have hcount : ((List.range ps.length).countP fun i => (Assoc.get? i (valueBindings bindings)).isNone) =
      (openPositions (.named name ps r) bindings).length := by
    rw [List.countP_eq_length_filter]
    simp [openPositions, get?_valueBindings, arity, Morphism.params]
  exact between_fill ((value_bound _ _ _ _).trans (hcall [])) (hcall es) hes hne (by omega)

/-- The identity is a name as a value, and called it is its input. -/
theorem between_slot {index : Option Nat} {e : Expr} {x : Value} (hes : Inputs env [e] [x])
    (hid : ∀ f, p.callee? "id" = some f → call f x = .ok x) : Between p call env (.slot index) [e] [x] := by
  have hcalled : ∀ n, calledWith p call env (.slot index) [e] n = .ok x := fun n => (List.forall₂_cons.1 hes).1 _
  intro n
  have happlied : appliedTo p call env (.slot index) [x] (n + 1) = .ok x := by
    have hwaiting : appliedTo p call env (.slot index) [x] (n + 1) =
        invoke p call (applyWithin p call n) "id" [x] := applyAll_waiting "id" n (by simp) rfl
    rw [hwaiting]
    cases hcallee : p.callee? "id" with
    | some f =>
      rw [invoke_callee hcallee]
      exact congrArg (· >>= _) (hid f hcallee)
    | none =>
      rw [invoke_builtin hcallee]
      rfl
  rw [hcalled, hcalled, happlied]
  exact ⟨.refl _, .refl _⟩

/-- The lambda of a tuple calls the parts with its parameter. -/
theorem between_tuple {parts : List Morphism} {param : Ty} {result : Ty} {e : Expr} {x : Value}
    (hes : Inputs env [e] [x])
    (h : lambdaFree (.tuple parts [param] result) false = true ∨ ("arg", x) ∈ env.captured) :
    Between p call env (.tuple parts [param] result) [e] [x] := by
  intro n
  have happlied : appliedTo p call env (.tuple parts [param] result) [x] (n + 1) =
      calledWith p call env (.tuple parts [param] result) [e] n := by
    have hinput : SameOutcome (invoke p call (applyWithin p call n)) env ((Env.ofCaptured env.captured).add "arg" x) e
        (.var "arg") := by
      unfold SameOutcome
      rw [(List.forall₂_cons.1 hes).1, expr, Env.value, Env.find?_add, if_pos rfl]
    -- inside the lambda the input is `arg`, and the rest of the environment shows only in what lambdas capture
    have hsame := call_same (.tuple parts [param] result) (h.symm.imp_left fun hmem => (Env.captured_body hmem).symm)
      (.cons hinput .nil)
    exact (applyAll_singleton _ _ x).trans hsame.symm
  rw [happlied]
  exact ⟨.refl _, called_deeper n⟩

/-- Whatever takes inputs is a name, with some arguments or none, the identity or a tuple. -/
theorem Constructed.between (hm : m.Constructed) (hpos : 0 < m.arity) (hlen : es.length = m.arity)
    (hes : Inputs env es xs)
    (hid : ∀ index, m = .slot index → ∀ f, p.callee? "id" = some f → ∀ x ∈ xs, call f x = .ok x)
    (hlambda : ∀ parts params result, m = .tuple parts params result →
      m.lambdaFree false = true ∨ ∀ x ∈ xs, ("arg", x) ∈ env.captured) : Between p call env m es xs := by
  have hlength : xs.length = m.arity := hes.length_eq.symm.trans hlen
  have hne : xs ≠ [] := List.length_pos_iff.1 (by omega)
  -- the identity and tuples have one input
  have hone : m.arity = 1 → ∃ e x, es = [e] ∧ xs = [x] := fun h => by
    obtain ⟨e, rfl⟩ := List.length_eq_one_iff.1 (hlen.trans h)
    obtain ⟨x, rfl⟩ := List.length_eq_one_iff.1 (hlength.trans h)
    exact ⟨e, x, rfl, rfl⟩
  cases m with
  | named name params result => exact between_named hes hne hlen
  | literal l => exact absurd hpos (Nat.lt_irrefl 0)
  | slot index =>
    obtain ⟨e, x, rfl, rfl⟩ := hone rfl
    exact between_slot hes fun f hf => hid index rfl f hf x (by simp)
  | tuple parts params result =>
    obtain ⟨param, rfl⟩ := List.length_eq_one_iff.1 (Nat.le_antisymm (hm.tuple_arity rfl) hpos)
    obtain ⟨e, x, rfl, rfl⟩ := hone rfl
    exact between_tuple hes ((hlambda parts _ result rfl).imp_right fun h => h x (by simp))
  | bound base bindings params result =>
    obtain ⟨name, ps, r, rfl⟩ := hm.exists_named hpos
    exact between_bound hm hes hne hlen

/-- What a call gives below the bound it gives from there on. -/
theorem called_stable {n k : Nat} (h : m.calledWith p call env es n ≠ .error tooDeep) :
    m.calledWith p call env es (n + k) = m.calledWith p call env es n := by
  induction k with
  | zero => rfl
  | succ k ih =>
    have hdeeper : CutOff tooDeep (m.calledWith p call env es (n + k)) (m.calledWith p call env es (n + (k + 1))) :=
      called_deeper (n + k)
    rw [ih] at hdeeper
    exact (hdeeper.resolve_left h).symm

theorem Between.eventually (h : Between p call env m es xs) :
    ∃ bound, ∀ n ≥ bound, m.appliedTo p call env xs n = m.calledWith p call env es n := by
  -- a call that stops at every bound leaves the value nothing else to do
  by_cases hdeep : ∀ n, m.calledWith p call env es n = .error tooDeep
  · refine ⟨1, fun n hn => ?_⟩
    obtain ⟨k, rfl⟩ : ∃ k, n = k + 1 := ⟨n - 1, by omega⟩
    exact (h k).2.elim (fun hstop => hstop.trans (hdeep _).symm) id
  · obtain ⟨first, hfirst⟩ := not_forall.1 hdeep
    refine ⟨first + 1, fun n hn => ?_⟩
    obtain ⟨k, rfl⟩ : ∃ k, n = first + k + 1 := ⟨n - first - 1, by omega⟩
    have hcalled := called_stable (k := k) hfirst
    have hnext := called_stable (k := k + 1) hfirst
    have happlied := (h (first + k)).1.resolve_left (hcalled ▸ hfirst)
    rw [← happlied, hcalled, ← hnext]
    rfl

/-- **A morphism as a value behaves like the morphism applied.** A morphism with parameters that was built by the
constructors stands as a value and is applied to values one at a time, or it is called with expressions that have
these values. From some bound on applications inside each other both give the same value or the same error,
and at every bound they do so unless the value stops at the bound. For the identity this needs that a function of
the plan called `id`, if there is one, gives its argument back. For a tuple it needs that the tuple has no
lambda inside it, or that the environment has the input as its `arg` already. -/
theorem applied_eq_called (p : ProgramPlan) (call : FunctionPlan → Value → Outcome) (env : Env) {m : Morphism}
    {es : List Expr} {xs : List Value} (hm : m.Constructed) (hpos : 0 < m.arity) (hlen : es.length = m.arity)
    (hes : Inputs env es xs)
    (hid : ∀ index, m = .slot index → ∀ f, p.callee? "id" = some f → ∀ x ∈ xs, call f x = .ok x)
    (hlambda : ∀ parts params result, m = .tuple parts params result →
      m.lambdaFree false = true ∨ ∀ x ∈ xs, ("arg", x) ∈ env.captured) :
    (∃ bound, ∀ n ≥ bound, m.appliedTo p call env xs n = m.calledWith p call env es n) ∧
    ∀ n > 0, m.appliedTo p call env xs n = .error tooDeep ∨ m.appliedTo p call env xs n = m.calledWith p call env es n := by
  have hbetween := hm.between hpos hlen hes hid hlambda
  refine ⟨hbetween.eventually, fun n hn => ?_⟩
  obtain ⟨k, rfl⟩ : ∃ k, n = k + 1 := ⟨n - 1, by omega⟩
  exact (hbetween k).2

/-- Adds a number to its input. -/
def adding (k : Int64) : Morphism := .bound (.named "+" [.int, .int] .int) [(1, .literal (.int k))] [.int] .int

theorem adding_constructed (k : Int64) : (adding k).Constructed := by
  have hbind : (Morphism.named "+" [.int, .int] .int).applyAt 1 (.literal (.int k)) = .ok (adding k) := rfl
  exact .applyAt (.ofFunction "+" (.curried [.int, .int] .int)) (.literal (.int k)) hbind

/-- The input beside the input plus two, for five. -/
theorem applied_eq_called_five :
    let pair : Morphism := .tuple [.slot none, adding 2] [.int] (.tuple [.int, .int])
    let p : ProgramPlan := { functions := [] }
    let env := Env.start.add "n" (.int 5)
    (pair.Constructed ∧ 0 < pair.arity ∧ Inputs env [.var "n"] [.int 5] ∧ pair.lambdaFree false = true) ∧
    pair.calledWith p (p.run maxNesting 1) env [.var "n"] 1 = .ok (.tuple [.int 5, .int 7]) ∧
    (∃ bound, ∀ n ≥ bound,
      pair.appliedTo p (p.run maxNesting 1) env [.int 5] n = pair.calledWith p (p.run maxNesting 1) env [.var "n"] n) ∧
    ∀ n > 0, pair.appliedTo p (p.run maxNesting 1) env [.int 5] n = .error tooDeep ∨
      pair.appliedTo p (p.run maxNesting 1) env [.int 5] n = pair.calledWith p (p.run maxNesting 1) env [.var "n"] n := by
  intro pair p env
  have hpair : pair.Constructed := by
    have hparts : ofParts [.slot none, adding 2] = .ok pair := rfl
    refine .ofParts (fun part hpart => ?_) hparts
    rcases List.mem_pair.1 hpart with rfl | rfl
    · exact .slot none
    · exact adding_constructed 2
  have hinputs : Inputs env [.var "n"] [.int 5] := .cons (fun inv => rfl) .nil
  exact ⟨⟨hpair, by decide, hinputs, rfl⟩, rfl, applied_eq_called p (p.run maxNesting 1) env hpair (by decide) rfl hinputs
    (fun index heq => by simp [pair] at heq) fun _ _ _ _ => .inl rfl⟩

/-- In a plan with a function `id` that adds one, the identity as a value takes five to six. And where the input is
a tuple function, a tuple that compares it with that same function finds them equal if it is called and
different if it is applied as a value, since the second one has captured `arg`. -/
theorem applied_ne_called :
    (let succ : FunctionPlan :=
        { name := "id", param := some "n", paramType := .int, resultType := .int,
          body := .mk [.result (.call "+" 2 [some (.var "n"), some (.lit (.int 1))])] [] }
      let p : ProgramPlan := { functions := [succ] }
      Constructed (.slot none) ∧ Inputs Env.start [.lit (.int 5)] [.int 5] ∧ ∀ n,
        calledWith p (p.run maxNesting 1) Env.start (.slot none) [.lit (.int 5)] n = .ok (.int 5) ∧
        appliedTo p (p.run maxNesting 1) Env.start (.slot none) [.int 5] (n + 1) = .ok (.int 6)) ∧
    (let shifts : Morphism := .tuple [adding 1, adding 2] [.int] (.tuple [.int, .int])
      let ty : Ty := .func .int (.tuple [.int, .int])
      let same : Morphism := .bound (.named "==" [.var "a", .var "a"] .bool) [(1, shifts)] [ty] .bool
      let both : Morphism := .tuple [same, same] [ty] (.tuple [.bool, .bool])
      let shiftsValue : Value := .closure "arg" (shifts.call [.var "arg"]) []
      let p : ProgramPlan := { functions := [] }
      both.Constructed ∧ Inputs Env.start [shifts.value] [shiftsValue] ∧ ∀ n,
        both.calledWith p (p.run maxNesting 1) Env.start [shifts.value] n = .ok (.tuple [.lit (.bool true), .lit (.bool true)]) ∧
        both.appliedTo p (p.run maxNesting 1) Env.start [shiftsValue] (n + 1) =
          .ok (.tuple [.lit (.bool false), .lit (.bool false)])) := by
  constructor
  · intro succ p
    exact ⟨.slot none, .cons (fun inv => rfl) .nil, fun n => ⟨rfl, rfl⟩⟩
  · intro shifts ty same both shiftsValue p
    have hshifts : shifts.Constructed := by
      have hparts : ofParts [adding 1, adding 2] = .ok shifts := rfl
      refine .ofParts (fun part hpart => ?_) hparts
      rcases List.mem_pair.1 hpart with rfl | rfl
      · exact adding_constructed 1
      · exact adding_constructed 2
    have hsame : same.Constructed := by
      have hbind : (Morphism.named "==" [.var "a", .var "a"] .bool).applyAt 1 shifts = .ok same := rfl
      exact .applyAt (.ofFunction "==" (.curried [.var "a", .var "a"] .bool)) hshifts hbind
    have hboth : both.Constructed := by
      have hparts : ofParts [same, same] = .ok both := rfl
      refine .ofParts (fun part hpart => ?_) hparts
      rcases List.mem_pair.1 hpart with rfl | rfl <;> exact hsame
    exact ⟨hboth, .cons (fun inv => rfl) .nil, fun n => ⟨rfl, rfl⟩⟩

end Morphism

end Dataflow
