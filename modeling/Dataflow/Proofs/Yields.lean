import Dataflow.Proofs.Inhabits
import Dataflow.Proofs.Meaning
import Dataflow.Proofs.Piecewise

/-!
# Morphisms keep to their types

The expression that a morphism becomes gives a value of the type that the morphism has, if it gives
one at all: `Morphism.call_yields` for a morphism that is called with inputs, `Morphism.value_yields`
for one that stands as a value. Two things are needed. The functions that it names keep to their
types, and every tuple in it has two parts or more: a tuple of one part has the type of that part,
but becomes a tuple.
-/

namespace Dataflow

/-! ## Expressions -/

namespace Eval

variable {invoke : String → List Value → Outcome} {env : Env}

/-- If the expression has a value, it is one of the type. -/
def Yields (invoke : String → List Value → Outcome) (env : Env) (e : Expr) (t : Ty) : Prop :=
  ∀ v, expr invoke env e = .ok v → v.inhabits t = true

theorem Yields.tuple {es : List Expr} {ts : List Ty} (h : List.Forall₂ (Yields invoke env) es ts) :
    Yields invoke env (.tuple es) (.tuple ts) := by
  intro v hv
  obtain ⟨vs, hvs, rfl⟩ := tuple_ok hv
  have hlen := h.length_eq
  refine Value.inhabitsAll_iff.2 (List.forall₂_iff_get.2 ⟨by rw [← hvs.length_eq, hlen], fun k hk hk' => ?_⟩)
  have hk₀ : k < es.length := by omega
  exact h.get hk₀ hk' _ (hvs.get hk₀ hk)

/-- The holes among arguments stay where they are. -/
theorem exprArgs_holes : ∀ {args : List (Option Expr)} {vs : List (Option Value)}, exprArgs invoke env args = .ok vs →
    vs.map Option.isSome = args.map Option.isSome
  | [], vs, h => by
    cases h
    rfl
  | none :: args, vs, h => by
    unfold exprArgs at h
    split at h
    · rename_i rest hrest
      cases h
      simpa using exprArgs_holes hrest
    · cases h
  | some e :: args, vs, h => by
    unfold exprArgs at h
    split at h
    · cases h
    · split at h
      · rename_i rest hrest
        cases h
        simpa using exprArgs_holes hrest
      · cases h

theorem exprArgs_map_some (es : List Expr) :
    exprArgs invoke env (es.map some) = (exprList invoke env es).map (List.map some) := by
  induction es with
  | nil => rfl
  | cons e es ih =>
    simp only [List.map_cons, exprArgs, exprList, ih]
    cases expr invoke env e with
    | error err => rfl
    | ok v => cases exprList invoke env es <;> rfl

/-- A call that lacks an argument is a function. -/
theorem Yields.waiting {name : String} {arity : Nat} {args : List (Option Expr)} {t : Ty}
    (h : args.length < arity ∨ none ∈ args) (ht : t.isFunction = true) :
    Yields invoke env (.call name arity args) t := by
  intro v hv
  unfold expr at hv
  split at hv
  · cases hv
  · rename_i vs hvs
    have hholes := exprArgs_holes hvs
    have hlen : vs.length = args.length := by simpa using congrArg List.length hholes
    split at hv
    · rename_i hall
      simp only [Bool.and_eq_true, decide_eq_true_eq, List.all_eq_true] at hall
      have hnone : none ∈ args := h.resolve_left (by omega)
      have hfalse : false ∈ vs.map Option.isSome := hholes ▸ List.mem_map.2 ⟨none, hnone, rfl⟩
      obtain ⟨a, ha, hfalse⟩ := List.mem_map.1 hfalse
      rw [hall.2 a ha] at hfalse
      cases hfalse
    · cases hv
      exact Value.inhabits_waiting ht

/-- A call with all arguments gives the result of the function. -/
theorem Yields.call {name : String} {params : List Ty} {result : Ty} (hkeeps : Keeps invoke name params result)
    {ρ : String → Ty} {es : List Expr} (h : List.Forall₂ (fun e t => Yields invoke env e (Ty.inst ρ t)) es params) :
    Yields invoke env (.call name params.length (es.map some)) (result.inst ρ) := by
  intro v hv
  have hlen := h.length_eq
  simp only [expr, exprArgs_map_some] at hv
  cases hvs : exprList invoke env es with
  | error err =>
    rw [hvs] at hv
    cases hv
  | ok vs =>
    have hok := exprList_ok hvs
    have hvlen := hok.length_eq
    rw [hvs] at hv
    have hall : (decide (params.length ≤ (vs.map some).length) && (vs.map some).all Option.isSome) = true := by
      simp only [List.length_map, Bool.and_eq_true, decide_eq_true_eq, List.all_map, List.all_eq_true]
      exact ⟨by omega, fun _ _ => rfl⟩
    simp only [Except.map, hall, if_true, List.filterMap_map, Function.comp_def, id, List.filterMap_some] at hv
    refine hkeeps ρ vs v (List.forall₂_iff_get.2 ⟨by omega, fun k hk hk' => ?_⟩) hv
    have hk₀ : k < es.length := by omega
    exact h.get hk₀ hk' _ (hok.get hk₀ hk)

end Eval

/-! ## Morphisms -/

namespace Morphism

open Eval

mutual

/-- Every tuple inside has two parts or more. -/
def isWide : Morphism → Bool
  | .named _ _ _ | .slot _ | .literal _ => true
  | .tuple parts _ _ => 2 ≤ parts.length && areWide parts
  | .bound base bindings _ _ => isWide base && areWideBindings bindings
termination_by structural f => f

def areWide : List Morphism → Bool
  | [] => true
  | f :: fs => isWide f && areWide fs
termination_by structural fs => fs

def areWideBindings : List (Nat × Morphism) → Bool
  | [] => true
  | (_, f) :: rest => isWide f && areWideBindings rest
termination_by structural fs => fs

end

/-! ### Arguments and their places -/

theorem get?_valueBindings (i : Nat) (bindings : List (Nat × Morphism)) :
    Assoc.get? i (valueBindings bindings) = (Assoc.get? i bindings).map value := by
  induction bindings with
  | nil => rfl
  | cons b rest ih =>
    obtain ⟨j, f⟩ := b
    simp only [valueBindings, Assoc.get?_cons, ih]
    split <;> rfl

/-- Every position gets what is bound to it, and the open ones get the inputs in order. -/
theorem fill_places {bound : List (Nat × Expr)} {P : Nat → Expr → Prop} : ∀ (positions : List Nat) (inputs : List Expr),
    (∀ i e, Assoc.get? i bound = some e → P i e) →
    (∀ (k i : Nat) (e : Expr), (positions.filter fun i => (Assoc.get? i bound).isNone)[k]? = some i →
      inputs[k]? = some e → P i e) →
    List.Forall₂ (fun i a => ∀ e, a = some e → P i e) positions (fill bound positions inputs)
  | [], _, _, _ => .nil
  | i :: rest, inputs, hbound, hinputs => by
    unfold fill
    split
    · rename_i e he
      refine .cons (fun e' heq => Option.some.inj heq ▸ hbound i e he) (fill_places rest _ hbound fun k j e' hj hin => ?_)
      exact hinputs k j e' (by simpa [he] using hj) hin
    · rename_i e inputs he
      refine .cons (fun e' heq => Option.some.inj heq ▸ hinputs 0 i e (by simp [he]) rfl)
        (fill_places rest _ hbound fun k j e' hj hin => ?_)
      exact hinputs (k + 1) j e' (by simpa [he] using hj) (by simpa using hin)
    · exact .cons (fun e' heq => by cases heq) (fill_places rest _ hbound fun k j e' _ hin => by simp at hin)

/-- A hole is left exactly if there are more open positions than inputs. -/
theorem none_mem_fill {bound : List (Nat × Expr)} : ∀ (positions : List Nat) (inputs : List Expr),
    none ∈ fill bound positions inputs ↔
      inputs.length < (positions.filter fun i => (Assoc.get? i bound).isNone).length
  | [], inputs => by simp [fill]
  | i :: rest, inputs => by
    unfold fill
    split
    · rename_i e he
      simpa [he] using none_mem_fill rest _
    · rename_i e _ he
      simpa [he] using none_mem_fill rest _
    · rename_i he
      simp [he]

theorem fill_length (bound : List (Nat × Expr)) : ∀ (positions : List Nat) (inputs : List Expr),
    (fill bound positions inputs).length = positions.length
  | [], _ => rfl
  | i :: rest, inputs => by
    unfold fill
    split <;> simp [fill_length bound rest]

theorem exists_map_some {α : Type} {l : List (Option α)} (h : none ∉ l) : ∃ as : List α, l = as.map some := by
  induction l with
  | nil => exact ⟨[], rfl⟩
  | cons a l ih =>
    obtain ⟨as, rfl⟩ := ih fun hmem => h (List.mem_cons_of_mem _ hmem)
    cases a with
    | none => exact absurd List.mem_cons_self h
    | some a => exact ⟨a :: as, rfl⟩

theorem isFunction_curried {params : List Ty} (h : params ≠ []) (result : Ty) {ρ : String → Ty} :
    ((Ty.curried params result).inst ρ).isFunction = true := by
  cases params with
  | nil => exact absurd rfl h
  | cons t params => rfl

/-- The type of a component whose part is fed an input, if it takes one. -/
def Fed (source : Ty) (f : Morphism) (t : Ty) : Prop :=
  (f.arity = 0 ∧ t = f.result) ∨ (f.arity ≠ 0 ∧ ∃ s, f.source.matching source = .ok s ∧ t = s.apply f.target)

theorem componentTypes_ok {source : Ty} : ∀ {parts : List Morphism} {types : List Ty},
    componentTypes source parts = .ok types → List.Forall₂ (Fed source) parts types
  | [], types, h => by
    cases h
    exact .nil
  | f :: fs, types, h => by
    have hcons : ∀ {t : Ty}, Fed source f t → (componentTypes source fs >>= fun rest => pure (t :: rest)) = .ok types →
        List.Forall₂ (Fed source) (f :: fs) types := by
      intro t ht h
      obtain ⟨rest, hrest, h⟩ := Except.bind_ok.1 h
      cases h
      exact .cons ht (componentTypes_ok hrest)
    unfold componentTypes at h
    dsimp only at h
    split at h
    · rename_i hzero
      exact hcons (Or.inl ⟨hzero, rfl⟩) h
    · rename_i hsome
      split at h
      · rename_i s hs
        exact hcons (Or.inr ⟨hsome, s, hs, rfl⟩) h
      · cases h

/-- A tuple has no parameter, and then its parts have none, or one that they share. -/
theorem ofParts_ok {parts : List Morphism} {params : List Ty} {result : Ty}
    (h : ofParts parts = .ok (.tuple parts params result)) :
    ((∀ f ∈ parts, f.arity = 0) ∧ params = [] ∧ result = Ty.ofComponents (parts.map Morphism.result)) ∨
      ∃ source types, List.Forall₂ (Fed source) parts types ∧ params = [source] ∧ result = Ty.ofComponents types := by
  unfold ofParts at h
  split at h
  · rename_i hnone
    cases h
    refine Or.inl ⟨fun f hf => ?_, rfl, rfl⟩
    simp only [sharedSource, Option.or_eq_none_iff, List.head?_eq_none_iff, List.map_eq_nil_iff,
      List.filter_eq_nil_iff, decide_eq_true_eq, Nat.not_lt, Nat.le_zero] at hnone
    exact hnone.2 f hf
  · rename_i source _
    obtain ⟨types, htypes, h⟩ := Except.bind_ok.1 h
    cases h
    exact Or.inr ⟨source, types, componentTypes_ok htypes, rfl, rfl⟩

theorem tuple_yields {invoke : String → List Value → Outcome} {env : Env} {ρ : String → Ty} {es : List Expr}
    {ts : List Ty} (hlen : 2 ≤ ts.length) (h : List.Forall₂ (fun e t => Yields invoke env e (Ty.inst ρ t)) es ts) :
    Yields invoke env (.tuple es) ((Ty.ofComponents ts).inst ρ) := by
  have hwide : Ty.ofComponents ts = .tuple ts := by
    match ts, hlen with
    | _ :: _ :: _, _ => rfl
  rw [hwide, Ty.inst, Ty.instList_eq_map]
  exact Yields.tuple (List.forall₂_map_right_iff.2 h)

/-- A base that is not a name takes one argument, and that is the one bound to it. -/
theorem Formed.single {known : String → List Ty → Ty → Prop} {base : Morphism} {bindings : List (Nat × Morphism)}
    {params : List Ty} {result : Ty} (h : (bound base bindings params result).Formed known)
    (hbase : ∀ name ps r, base ≠ .named name ps r) : base.arity = 1 ∧ ∃ f, bindings = [(0, f)] := by
  obtain ⟨hformed, _, _, hfirst, hasc, hne, hlt⟩ := h
  have harity : base.arity ≤ 1 := by
    cases base with
    | named name ps r => exact absurd rfl (hbase name ps r)
    | slot i => exact Nat.le_refl 1
    | literal l => exact Nat.zero_le 1
    | tuple parts ps r =>
      rcases ofParts_ok hformed.2.1 with ⟨_, rfl, _⟩ | ⟨_, _, _, rfl, _⟩
      · exact Nat.zero_le 1
      · exact Nat.le_refl 1
    | bound b bs ps r => exact absurd rfl (hfirst b bs ps r)
  match bindings, hne, hlt, hasc with
  | [(i, f)], _, hlt, _ =>
    have hi := hlt (i, f) (by simp)
    obtain rfl : i = 0 := by
      dsimp only at hi
      omega
    exact ⟨by dsimp only at hi; omega, f, rfl⟩
  | (i, f) :: (j, g) :: rest, _, hlt, hasc =>
    have hi := hlt (i, f) (by simp)
    have hj := hlt (j, g) (by simp)
    have hij : i < j := by simpa [Assoc.Ascending, Nat.compare_eq_lt] using (List.pairwise_cons.1 hasc).1 j (by simp)
    dsimp only at hi hj
    omega

/-! ### Calls and values -/

section
variable {invoke : String → List Value → Outcome} {env : Env}

/-- A function with some arguments bound, called with some inputs for the others. -/
theorem bound_yields {name : String} {params : List Ty} {result : Ty} (hkeeps : Keeps invoke name params result)
    {bindings : List (Nat × Morphism)} {s : Subst}
    (hs : matchBindings (.named name params result) .empty bindings = .ok s)
    (hvalues : ∀ x ∈ bindings, ∀ ρ, Yields invoke env x.2.value (x.2.purified.inst ρ)) {ρ : String → Ty}
    {opens : List Ty} (hopens : opens = (openPositions (.named name params result) bindings).filterMap fun i =>
      params[i]?.map s.apply)
    (inputs : List Expr) (hlen : inputs.length ≤ opens.length)
    (hinputs : ∀ (k : Nat) (e : Expr) (t : Ty), inputs[k]? = some e → opens[k]? = some t →
      Yields invoke env e (t.inst ρ)) :
    Yields invoke env (.call name params.length (fill (valueBindings bindings) (List.range params.length) inputs))
      ((Ty.curried (opens.drop inputs.length) (s.apply result)).inst ρ) := by
  have hfilter : (List.range params.length).filter (fun i => (Assoc.get? i (valueBindings bindings)).isNone) =
      openPositions (.named name params result) bindings := by
    simp [openPositions, get?_valueBindings, arity, Morphism.params]
  have hmap : opens = (openPositions (.named name params result) bindings).map fun i => s.apply (params.getD i .unit) := by
    rw [hopens, ← List.filterMap_eq_map]
    refine List.filterMap_congr fun i hi => ?_
    have hlt : i < params.length := (mem_openPositions.1 hi).1
    simp [List.getD_eq_getElem?_getD, hlt]
  have hcount : opens.length = (openPositions (.named name params result) bindings).length := by simp [hmap]
  by_cases hhole : none ∈ fill (valueBindings bindings) (List.range params.length) inputs
  · refine Yields.waiting (Or.inr hhole) (isFunction_curried ?_ _)
    rw [none_mem_fill, hfilter] at hhole
    simp only [ne_eq, List.drop_eq_nil_iff]
    omega
  · obtain ⟨es, hes⟩ := exists_map_some hhole
    have hall : opens.drop inputs.length = [] := by
      rw [none_mem_fill, hfilter] at hhole
      simp only [List.drop_eq_nil_iff]
      omega
    -- the variables stand for what the substitution puts there
    have hplaces : List.Forall₂ (fun i a => ∀ e, a = some e → ∀ t, params[i]? = some t →
        Yields invoke env e (t.inst fun x => ((s.get? x).getD (.var x)).inst ρ)) (List.range params.length)
        (fill (valueBindings bindings) (List.range params.length) inputs) :=
      fill_places _ inputs (fun i e he t ht => ?_) (fun k i e hi he t ht => ?_)
    · rw [hes, hall]
      have hresult := Ty.inst_apply (ρ := ρ) s result
      rw [Ty.curried, List.foldr_nil, hresult]
      refine Yields.call hkeeps (List.forall₂_iff_get.2 ⟨?_, fun k hk hk' => ?_⟩)
      · have hlength := congrArg List.length hes
        simpa [fill_length] using hlength.symm
      · rw [hes] at hplaces
        have hk₀ : k < (List.range params.length).length := by simpa using hk'
        exact hplaces.get hk₀ (by simpa using hk) es[k] (by simp) params[k] (by simp)
    · rw [get?_valueBindings] at he
      obtain ⟨f, hf, rfl⟩ := Option.map_eq_some_iff.1 he
      have hmem := Assoc.get?_mem hf
      rw [← Ty.inst_apply, matchBindings_apply hs hmem ht]
      exact hvalues _ hmem ρ
    · rw [← Ty.inst_apply]
      refine hinputs k e _ he ?_
      rw [hfilter] at hi
      simp [hmap, hi, List.getD_eq_getElem?_getD, ht]

mutual

/-- A morphism that is called gives what is left of its type once the inputs are taken off. -/
theorem call_yields : ∀ (f : Morphism) {ρ : String → Ty} (inputs : List Expr), f.Formed (Keeps invoke) →
    f.isWide = true → inputs ≠ [] → inputs.length ≤ f.arity →
    (∀ (k : Nat) (e : Expr) (t : Ty), inputs[k]? = some e → f.params[k]? = some t → Yields invoke env e (t.inst ρ)) →
    Yields invoke env (f.call inputs) ((Ty.curried (f.params.drop inputs.length) f.result).inst ρ)
  | .named name params result, ρ, inputs, hf, _, _, hlen, hinputs => by
    have hlen : inputs.length ≤ params.length := hlen
    rcases Nat.lt_or_eq_of_le hlen with hlt | heq
    · refine Yields.waiting (Or.inl (by simpa using hlt)) (isFunction_curried ?_ _)
      simpa [Morphism.params] using hlt
    · have hnil : params.drop inputs.length = [] := List.drop_eq_nil_of_le (Nat.le_of_eq heq.symm)
      simp only [Morphism.params, hnil]
      refine Yields.call hf (List.forall₂_iff_get.2 ⟨heq, fun k hk hk' => ?_⟩)
      exact hinputs k _ _ (List.getElem?_eq_getElem hk) (List.getElem?_eq_getElem hk')
  | .literal l, _, inputs, _, _, hne, hlen, _ => by
    exact absurd (List.eq_nil_of_length_eq_zero (Nat.le_zero.1 hlen)) hne
  | .slot _, _, inputs, _, _, hne, hlen, hinputs => by
    match inputs, hne, hlen with
    | [e], _, _ => exact hinputs 0 e (.var "a") rfl rfl
  | .tuple parts params result, ρ, inputs, hf, hwide, hne, hlen, hinputs => by
    simp only [isWide, Bool.and_eq_true, decide_eq_true_eq] at hwide
    rcases ofParts_ok hf.2.1 with ⟨_, rfl, _⟩ | ⟨source, types, htypes, rfl, rfl⟩
    · exact absurd (List.eq_nil_of_length_eq_zero (Nat.le_zero.1 hlen)) hne
    · match inputs, hne, hlen with
      | [e], _, _ =>
        refine tuple_yields (by rw [← htypes.length_eq]; exact hwide.1) ?_
        exact callParts_yields parts hf.1 hwide.2 htypes (hinputs 0 e source rfl rfl)
  | .bound base bindings params result, ρ, inputs, hf, hwide, hne, hlen, hinputs => by
    simp only [isWide, Bool.and_eq_true] at hwide
    obtain ⟨s, hs, heq⟩ := bindBase_ok hf.2.2.1
    cases heq
    unfold call
    dsimp only
    split
    · exact bound_yields hf.1 hs (valueBindings_yields bindings hf.2.1 hwide.2) rfl inputs hlen hinputs
    · rename_i hname
      -- nothing is left to be called with
      obtain ⟨hone, f, rfl⟩ := hf.single hname
      have hnone : openPositions base [(0, f)] = [] := by simp [openPositions, hone, List.range_one, Assoc.get?]
      simp only [arity, Morphism.params, hnone, List.filterMap_nil, List.length_nil] at hlen
      exact absurd (List.eq_nil_of_length_eq_zero (Nat.le_zero.1 hlen)) hne

/-- The parts of a tuple give the types of its components. -/
theorem callParts_yields : ∀ (parts : List Morphism) {ρ : String → Ty} {source : Ty} {types : List Ty} {e : Expr},
    FormedParts (Keeps invoke) parts → areWide parts = true → List.Forall₂ (Fed source) parts types →
    Yields invoke env e (source.inst ρ) →
    List.Forall₂ (fun e t => Yields invoke env e (Ty.inst ρ t)) (callParts parts [e]) types
  | [], _, _, types, _, _, _, htypes, _ => by
    cases htypes
    exact .nil
  | f :: fs, ρ, source, types, e, hf, hwide, htypes, he => by
    simp only [areWide, Bool.and_eq_true] at hwide
    cases htypes with
    | @cons _ t _ ts hfed htypes =>
      refine .cons ?_ (callParts_yields fs hf.2 hwide.2 htypes he)
      rcases hfed with ⟨hzero, rfl⟩ | ⟨hsome, s, hs, rfl⟩
      · rw [if_pos hzero]
        have hnil : f.params = [] := List.eq_nil_of_length_eq_zero hzero
        have hvalue := value_yields f (ρ := ρ) hf.1 hwide.1
        rwa [purified, hnil] at hvalue
      · rw [if_neg hsome, Ty.inst_apply]
        have hcall := call_yields f (ρ := fun x => ((s.get? x).getD (.var x)).inst ρ) [e] hf.1 hwide.1
          (by simp) (Nat.one_le_iff_ne_zero.2 hsome) fun k e' t he' ht => ?_
        · rwa [List.length_singleton, List.drop_one] at hcall
        · obtain ⟨rfl, rfl⟩ : k = 0 ∧ e = e' := by simpa [List.getElem?_singleton] using he'
          have hsource : f.source = t := by simp [Morphism.source, List.head?_eq_getElem?, ht]
          rw [← Ty.inst_apply, ← hsource, Ty.matching_ok hs]
          exact he

/-- A morphism that stands as a value is a value of its type. -/
theorem value_yields : ∀ (f : Morphism) {ρ : String → Ty}, f.Formed (Keeps invoke) → f.isWide = true →
    Yields invoke env f.value (f.purified.inst ρ)
  | .named name params result, ρ, hf, _ => by
    cases params with
    | nil => exact Yields.call hf (List.Forall₂.nil : List.Forall₂ _ ([] : List Expr) _)
    | cons t params => exact Yields.waiting (Or.inr (by simp)) rfl
  | .literal l, _, _, _ => by
    intro v hv
    cases hv
    exact Value.inhabits_inst (Value.inhabits_lit.2 rfl)
  | .slot _, _, _, _ => Yields.waiting (Or.inr (by simp)) rfl
  | .tuple parts [] result, ρ, hf, hwide => by
    simp only [isWide, Bool.and_eq_true, decide_eq_true_eq] at hwide
    rcases ofParts_ok hf.2.1 with ⟨hzero, _, rfl⟩ | ⟨_, _, _, hnil, _⟩
    · exact tuple_yields (by simpa using hwide.1) (valueParts_yields parts hf.1 hwide.2 hzero)
    · cases hnil
  | .tuple parts (_ :: _) result, _, _, _ => by
    intro v hv
    cases hv
    rfl
  | .bound base bindings params result, ρ, hf, hwide => by
    simp only [isWide, Bool.and_eq_true] at hwide
    have hvalues := valueBindings_yields bindings hf.2.1 hwide.2
    obtain ⟨s, hs, heq⟩ := bindBase_ok hf.2.2.1
    cases heq
    unfold value
    dsimp only
    split
    · exact bound_yields hf.1 hs hvalues rfl [] (Nat.zero_le _) (by simp)
    · rename_i hname
      obtain ⟨hone, f, rfl⟩ := hf.single hname
      have hnone : openPositions base [(0, f)] = [] := by simp [openPositions, hone, List.range_one, Assoc.get?]
      have hargs : (fill (valueBindings [(0, f)]) (List.range base.arity) []).filterMap id = [f.value] := by
        simp [hone, List.range_one, valueBindings, fill, Assoc.get?]
      have hdrop : base.params.drop 1 = [] := List.drop_eq_nil_of_le (Nat.le_of_eq hone)
      have hcall := call_yields base (ρ := fun x => ((s.get? x).getD (.var x)).inst ρ) [f.value] hf.1 hwide.1
        (by simp) (Nat.le_of_eq hone.symm) fun k e t he ht => ?_
      · rw [List.length_singleton, hdrop] at hcall
        simp only [purified, Morphism.params, Morphism.result, hnone, hargs, List.filterMap_nil]
        exact (Ty.inst_apply s base.result).symm ▸ hcall
      · obtain ⟨rfl, rfl⟩ : k = 0 ∧ f.value = e := by simpa [List.getElem?_singleton] using he
        rw [← Ty.inst_apply, matchBindings_apply hs (List.mem_singleton_self (0, f)) ht]
        exact hvalues (0, f) (by simp) ρ

theorem valueParts_yields : ∀ (parts : List Morphism) {ρ : String → Ty}, FormedParts (Keeps invoke) parts →
    areWide parts = true → (∀ f ∈ parts, f.arity = 0) →
    List.Forall₂ (fun e t => Yields invoke env e (Ty.inst ρ t)) (valueParts parts) (parts.map result)
  | [], _, _, _, _ => .nil
  | f :: fs, ρ, hf, hwide, hzero => by
    simp only [areWide, Bool.and_eq_true] at hwide
    have hvalue := value_yields f (ρ := ρ) hf.1 hwide.1
    have hnil : f.params = [] := List.eq_nil_of_length_eq_zero (hzero f (by simp))
    rw [purified, hnil] at hvalue
    exact .cons hvalue (valueParts_yields fs hf.2 hwide.2 fun g hg => hzero g (by simp [hg]))

theorem valueBindings_yields : ∀ (bindings : List (Nat × Morphism)), FormedBindings (Keeps invoke) bindings →
    areWideBindings bindings = true → ∀ x ∈ bindings, ∀ ρ, Yields invoke env x.2.value (x.2.purified.inst ρ)
  | [], _, _, x, hx, _ => by cases hx
  | (i, f) :: rest, hf, hwide, x, hx, ρ => by
    simp only [areWideBindings, Bool.and_eq_true] at hwide
    rcases List.mem_cons.1 hx with rfl | hx
    · exact value_yields f hf.1 hwide.1
    · exact valueBindings_yields rest hf.2 hwide.2 x hx ρ

end

end

end Morphism

end Dataflow
