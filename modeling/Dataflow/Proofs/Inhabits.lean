import Dataflow.Eval.Builtin
import Dataflow.Proofs.Matching
import Dataflow.Symbol
import Mathlib.Data.List.Forall2

/-!
# Values of types

A constant belongs to its own type and a tuple to the types of its components. The built-in functions
keep to the types under which the prelude declares them, whatever types stand for the variables
(`Builtin.run_keeps`).
-/

namespace Dataflow

namespace Value

mutual

/-- Whether a value belongs to a type. A function belongs to every function type, and nothing belongs
to a variable or to a constructor other than `String`. -/
def inhabits : Value → Ty → Bool
  | .lit l, t => l.ty = t
  | .tuple vs, .tuple ts => inhabitsAll vs ts
  | .waiting _ _, .func _ _ => true
  | .closure _ _ _, .func _ _ => true
  | _, _ => false
termination_by structural v => v

def inhabitsAll : List Value → List Ty → Bool
  | [], [] => true
  | v :: vs, t :: ts => inhabits v t && inhabitsAll vs ts
  | _, _ => false
termination_by structural vs => vs

end

theorem inhabits_lit {l : Literal} {t : Ty} : (lit l).inhabits t = true ↔ t = l.ty := by
  simp [inhabits, eq_comm]

theorem inhabitsAll_iff {vs : List Value} {ts : List Ty} :
    inhabitsAll vs ts = true ↔ List.Forall₂ (fun v t => v.inhabits t = true) vs ts := by
  induction vs generalizing ts with
  | nil => cases ts <;> simp [inhabitsAll]
  | cons v vs ih => cases ts <;> simp [inhabitsAll, ih]

theorem inhabits_tuple {v : Value} {ts : List Ty} (h : v.inhabits (.tuple ts) = true) :
    ∃ vs, v = .tuple vs ∧ List.Forall₂ (fun v t => v.inhabits t = true) vs ts := by
  cases v with
  | lit l => cases l <;> cases inhabits_lit.1 h
  | tuple vs => exact ⟨vs, rfl, inhabitsAll_iff.1 h⟩
  | waiting f args => cases h
  | closure x body env => cases h

/-- What is waited for is left open in some function type. -/
theorem inhabits_waiting {f : String} {args : List (Option Value)} {t : Ty} (h : t.isFunction = true) :
    (waiting f args).inhabits t = true := by
  cases t with
  | func a b => rfl
  | atom a | tuple ts | con x ts | var x => cases h

mutual

/-- No value looks at the variables of its type. -/
theorem inhabits_inst {ρ : String → Ty} : ∀ {v : Value} {t : Ty}, v.inhabits t = true → v.inhabits (t.inst ρ) = true
  | .lit l, t, h => by
    rw [inhabits_lit] at h ⊢
    rw [h]
    cases l <;> rfl
  | .tuple vs, .tuple ts, h => by
    have hall : inhabitsAll vs ts = true := h
    exact inhabitsAll_instList hall
  | .waiting _ _, .func _ _, _ => rfl
  | .closure _ _ _, .func _ _, _ => rfl

theorem inhabitsAll_instList {ρ : String → Ty} : ∀ {vs : List Value} {ts : List Ty}, inhabitsAll vs ts = true →
    inhabitsAll vs (Ty.instList ρ ts) = true
  | [], [], _ => rfl
  | v :: vs, t :: ts, h => by
    simp only [inhabitsAll, Ty.instList, Bool.and_eq_true] at h ⊢
    exact ⟨inhabits_inst h.1, inhabitsAll_instList h.2⟩

end

end Value

/-- A function that is called by name keeps to its type: arguments of the types of its parameters give
a value of the type of its result, whatever types stand for the variables. -/
def Keeps (call : String → List Value → Except EvalError Value) (name : String) (params : List Ty) (result : Ty) :
    Prop :=
  ∀ (ρ : String → Ty) (args : List Value) (v : Value),
    List.Forall₂ (fun a t => a.inhabits (Ty.inst ρ t) = true) args params → call name args = .ok v →
      v.inhabits (result.inst ρ) = true

/-! ## Built-in functions -/

namespace Builtin

open Value

/-- Arithmetic stays in the type of its operands. -/
theorem arithmetic_inhabits {op : String} {a b v : Value} {t : Ty} (h : arithmetic op a b = .ok v)
    (ha : a.inhabits t = true) : v.inhabits t = true := by
  unfold arithmetic at h
  split at h
  · unfold arithmeticInt at h
    dsimp only at h
    split at h
    · cases h
    · split at h
      · cases h
        exact ha
      · cases h
  · unfold arithmeticFloat at h
    split at h
    · cases h; exact ha
    · cases h; exact ha
    · cases h; exact ha
    · cases h; exact ha
    · cases h
  · cases h
  · cases h

/-- The functions of two arguments that compute with numbers. -/
def arithmeticNames : List String := ["+", "-", "*", "/", "div", "mod"]

/-- A function of two arguments computes with numbers or decides something. -/
theorem binary_ok {op : String} {a b v : Value} (h : binary op a b = .ok v) :
    (op ∈ arithmeticNames ∧ arithmetic op a b = .ok v) ∨ (op ∉ arithmeticNames ∧ v.inhabits .bool = true) := by
  unfold binary at h
  split at h
  · rename_i hop
    exact Or.inl ⟨hop, h⟩
  · rename_i hop
    refine Or.inr ⟨hop, ?_⟩
    split at h
    · cases h; rfl
    · split at h
      · cases h; rfl
      · split at h
        · split at h
          · cases h; rfl
          · cases h
        · split at h
          · cases h; rfl
          · cases h; rfl
          · cases h

theorem not_inhabits {a v : Value} (h : unary "not" a = .ok v) : v.inhabits .bool = true := by
  unfold unary at h
  split at h
  · cases h; rfl
  all_goals simp_all

theorem negate_inhabits {a v : Value} {t : Ty} (h : unary "negate" a = .ok v) (ha : a.inhabits t = true) :
    v.inhabits t = true := by
  unfold unary at h
  split at h
  · simp_all
  · split at h
    · cases h
      exact ha
    · cases h
  · cases h
    exact ha
  all_goals simp_all

theorem pair_inhabits {a v : Value} {t u : Ty} (ha : a.inhabits (.tuple [t, u]) = true) :
    (unary "fst" a = .ok v → v.inhabits t = true) ∧ (unary "snd" a = .ok v → v.inhabits u = true) := by
  obtain ⟨vs, rfl, hvs⟩ := inhabits_tuple ha
  obtain ⟨x, y, rfl, hx, hy⟩ : ∃ x y, vs = [x, y] ∧ x.inhabits t = true ∧ y.inhabits u = true := by
    match vs, hvs with
    | [x, y], .cons hx (.cons hy .nil) => exact ⟨x, y, rfl, hx, hy⟩
  constructor
  · intro h
    cases h
    exact hx
  · intro h
    cases h
    exact hy

/-- The functions of the prelude, by their types. -/
def signatures : List (List String × Ty) :=
  [(["+", "-", "*", "/"], .curried [.var "a", .var "a"] (.var "a")), (["div", "mod"], .curried [.int, .int] .int),
   (["<", "<=", ">", ">=", "==", "/="], .curried [.var "a", .var "a"] .bool),
   (["&&", "||"], .curried [.bool, .bool] .bool), (["not"], .func .bool .bool),
   (["negate"], .func (.var "a") (.var "a")), (["fst"], .func (.tuple [.var "a", .var "b"]) (.var "a")),
   (["snd"], .func (.tuple [.var "a", .var "b"]) (.var "b"))]

theorem prelude_function {name : String} {ty : Ty} (h : SymbolTable.prelude.find? name = some ⟨.function, ty⟩) :
    ∃ s ∈ signatures, name ∈ s.1 ∧ ty = s.2 := by
  have hall : ∀ entry ∈ SymbolTable.prelude.entries, entry.2.kind = .function →
      ∃ s ∈ signatures, entry.1 ∈ s.1 ∧ entry.2.ty = s.2 := by decide +kernel
  exact hall _ (Assoc.get?_mem h) rfl

theorem binary_keeps {name : String} {t result : Ty}
    (hresult : (name ∈ arithmeticNames ∧ result = t) ∨ (name ∉ arithmeticNames ∧ result = .bool)) :
    Keeps run name [t, t] result := by
  rintro ρ _ v (_ | ⟨ha, _ | ⟨hb, _ | _⟩⟩) hrun
  rcases binary_ok hrun with ⟨hop, hrun⟩ | ⟨hop, hbool⟩
  · obtain rfl := (hresult.resolve_right fun h => h.1 hop).2
    exact arithmetic_inhabits hrun ha
  · obtain rfl := (hresult.resolve_left fun h => hop h.1).2
    exact hbool

/-- **Built-in functions keep to their types**, and take as many arguments as the prelude says. -/
theorem run_keeps {name : String} {ty : Ty} (h : SymbolTable.prelude.find? name = some ⟨.function, ty⟩) :
    arity? name = some ty.uncurry.1.length ∧ Keeps run name ty.uncurry.1 ty.uncurry.2 := by
  obtain ⟨signature, hsignature, hname, rfl⟩ := prelude_function h
  have harity : ∀ s ∈ signatures, ∀ x ∈ s.1, arity? x = some s.2.uncurry.1.length := by decide
  refine ⟨harity signature hsignature name hname, ?_⟩
  simp only [signatures, List.mem_cons, List.not_mem_nil, or_false] at hsignature
  rcases hsignature with rfl | rfl | rfl | rfl | rfl | rfl | rfl | rfl
  · exact binary_keeps (Or.inl ⟨List.mem_of_mem_take (i := 4) hname, rfl⟩)
  · exact binary_keeps (Or.inl ⟨List.mem_of_mem_drop (i := 4) hname, rfl⟩)
  · refine binary_keeps (Or.inr ⟨?_, rfl⟩)
    revert name
    decide
  · refine binary_keeps (Or.inr ⟨?_, rfl⟩)
    revert name
    decide
  · obtain rfl := List.mem_singleton.1 hname
    rintro ρ _ v (_ | ⟨ha, _ | _⟩) hrun
    exact not_inhabits hrun
  · obtain rfl := List.mem_singleton.1 hname
    rintro ρ _ v (_ | ⟨ha, _ | _⟩) hrun
    exact negate_inhabits hrun ha
  · obtain rfl := List.mem_singleton.1 hname
    rintro ρ _ v (_ | ⟨ha, _ | _⟩) hrun
    exact (pair_inhabits ha).1 hrun
  · obtain rfl := List.mem_singleton.1 hname
    rintro ρ _ v (_ | ⟨ha, _ | _⟩) hrun
    exact (pair_inhabits ha).2 hrun

end Builtin

end Dataflow
