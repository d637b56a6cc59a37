import Dataflow.Plan.Walk
import Dataflow.Proofs.Inhabits
import Dataflow.Proofs.TupleOrder

/-!
# Patterns that match every value

The last pin of a fork must be irrefutable, so that every value takes some pin. Three recursions over
the pattern have to agree for that: the check against the type of the node, the test for irrefutability
and the match against a value. `Pattern.fits_of_check` puts them together: at a type without variables,
an irrefutable pattern that passes the check matches every value of the type.
-/

namespace Dataflow

/-! ## Values by their form -/

namespace Value

mutual

/-- Whether a value has the form that its type prescribes: unit at the unit type, and at a tuple type a
tuple whose components have the forms of the component types. Other types prescribe nothing. -/
def hasForm (v : Value) : Ty → Bool
  | .atom a => a ≠ .unit || (v matches .lit .unit)
  | .tuple ts =>
    match v with
    | .tuple vs => haveForms vs ts
    | _ => false
  | .con _ _ | .var _ | .func _ _ => true
termination_by structural t => t

def haveForms : List Value → List Ty → Bool
  | [], [] => true
  | v :: vs, t :: ts => hasForm v t && haveForms vs ts
  | _, _ => false
termination_by structural _ ts => ts

end

theorem hasForm_unit {v : Value} : v.hasForm .unit = true ↔ v = .unit := by
  constructor
  · intro h
    cases v with
    | lit l =>
      cases l with
      | unit => rfl
      | int | float | char | bool | text => cases h
    | tuple vs => cases h
    | waiting f args => cases h
    | closure x body env => cases h
  · rintro rfl
    rfl

theorem hasForm_tuple {v : Value} {ts : List Ty} :
    v.hasForm (.tuple ts) = true ↔ ∃ vs, v = .tuple vs ∧ haveForms vs ts = true := by
  constructor
  · intro h
    cases v with
    | tuple vs => exact ⟨vs, rfl, h⟩
    | lit l => cases h
    | waiting f args => cases h
    | closure x body env => cases h
  · rintro ⟨vs, rfl, hvs⟩
    exact hvs

mutual

/-- Values of a type have its form. -/
theorem hasForm_of_inhabits : ∀ {t : Ty} {v : Value}, v.inhabits t = true → v.hasForm t = true
  | .atom a, v, h => by
    cases a with
    | unit =>
      rw [hasForm_unit]
      cases v with
      | lit l =>
        rw [inhabits_lit] at h
        cases l <;> cases h
        rfl
      | tuple vs => cases h
      | waiting f args => cases h
      | closure x body env => cases h
    | int | char | bool | float | source | target => rfl
  | .tuple ts, v, h => by
    obtain ⟨vs, rfl, hvs⟩ := inhabits_tuple h
    exact haveForms_of_inhabitsAll (inhabitsAll_iff.2 hvs)
  | .con _ _, _, _ | .var _, _, _ | .func _ _, _, _ => rfl

theorem haveForms_of_inhabitsAll : ∀ {ts : List Ty} {vs : List Value}, inhabitsAll vs ts = true →
    haveForms vs ts = true
  | [], [], _ => rfl
  | t :: ts, v :: vs, h => by
    simp only [inhabitsAll, haveForms, Bool.and_eq_true] at h ⊢
    exact ⟨hasForm_of_inhabits h.1, haveForms_of_inhabitsAll h.2⟩

end

end Value

/-! ## Patterns -/

namespace Pattern

variable {node : Nat} {ty : Ty}

/-- A constant passes the check at the types that accept its own type. -/
theorem check_value {l : Literal} : (value l).check node ty = .ok () ↔ ty.Accepts l.ty := by
  rw [Ty.accepts_iff]
  unfold check
  split
  · rename_i s hs
    exact ⟨fun _ => ⟨s, hs⟩, fun _ => rfl⟩
  · rename_i e he
    simp [he]

/-- A tuple passes the check at the tuple types of its length, if its items do. -/
theorem check_tuple {ps : List Pattern} : (tuple ps).check node ty = .ok () ↔
    ∃ tys, ty = .tuple tys ∧ tys.length = ps.length ∧ checkList node ps tys = .ok () := by
  cases ty with
  | tuple tys =>
    simp only [check]
    split
    · rename_i hlen
      simp [hlen]
    · rename_i hlen
      simp [hlen]
  | atom a => simp [check]
  | con x ts => simp [check]
  | var x => simp [check]
  | func a b => simp [check]

theorem checkList_cons {p : Pattern} {ps : List Pattern} {tys : List Ty} :
    checkList node (p :: ps) (ty :: tys) = .ok () ↔ p.check node ty = .ok () ∧ checkList node ps tys = .ok () := by
  simp only [checkList]
  split
  · rename_i u hu
    simp [hu]
  · rename_i e he
    simp [he]

/-- At a type without variables the unit pattern is checked against the unit type. -/
theorem eq_unit_of_check (hground : ty.vars = []) (hcheck : (value .unit).check node ty = .ok ()) : ty = .unit :=
  ((check_value.1 hcheck).eq_of_isGround (List.isEmpty_iff.2 hground)).symm

mutual

/-- The wildcard asks nothing of a value. The unit pattern was checked against the unit type, which has
one value; a tuple against a tuple type, which gives the value its components. -/
theorem fits_of_hasForm : ∀ {p : Pattern} {ty : Ty} {v : Value}, ty.vars = [] → p.check node ty = .ok () →
    p.isIrrefutable = true → v.hasForm ty = true → v.fits p = true
  | .any, _, _, _, _, _, _ => by simp [Value.fits]
  | .value l, ty, v, hground, hcheck, hp, hv => by
    cases l with
    | unit =>
      obtain rfl := eq_unit_of_check hground hcheck
      obtain rfl := Value.hasForm_unit.1 hv
      rfl
    | int | float | char | bool | text => cases hp
  | .tuple ps, ty, v, hground, hcheck, hp, hv => by
    obtain ⟨tys, rfl, hlen, hcheck⟩ := check_tuple.1 hcheck
    obtain ⟨vs, rfl, hvs⟩ := Value.hasForm_tuple.1 hv
    exact fitsAll_of_haveForms hground hlen hcheck hp hvs

theorem fitsAll_of_haveForms : ∀ {ps : List Pattern} {tys : List Ty} {vs : List Value}, Ty.varsList tys = [] →
    tys.length = ps.length → checkList node ps tys = .ok () → allIrrefutable ps = true →
      Value.haveForms vs tys = true → Value.fitsAll vs ps = true
  | [], [], [], _, _, _, _, _ => rfl
  | p :: ps, ty :: tys, v :: vs, hground, hlen, hcheck, hp, hv => by
    obtain ⟨hfirst, hrest⟩ := List.append_eq_nil_iff.1 hground
    obtain ⟨hcheck, hchecks⟩ := checkList_cons.1 hcheck
    simp only [allIrrefutable, Bool.and_eq_true] at hp
    simp only [Value.haveForms, Bool.and_eq_true] at hv
    have hlen : tys.length = ps.length := by simpa using hlen
    simp only [Value.fitsAll, Bool.and_eq_true]
    exact ⟨fits_of_hasForm hfirst hcheck hp.1 hv.1, fitsAll_of_haveForms hrest hlen hchecks hp.2 hv.2⟩

end

/-- **Irrefutable patterns match every value.** -/
theorem fits_of_check (node : Nat) {ty : Ty} (hground : ty.isGround = true) {p : Pattern}
    (hcheck : p.check node ty = .ok ()) (hirrefutable : p.isIrrefutable = true) {v : Value}
    (hv : v.hasForm ty = true) : v.fits p = true :=
  fits_of_hasForm (List.isEmpty_iff.1 hground) hcheck hirrefutable hv

/-- The pattern `((), (_, ()))`, checked at `((), (Int, ()))`. -/
theorem fits_of_check_nested :
    (Ty.tuple [.unit, .tuple [.int, .unit]]).isGround = true ∧
    (tuple [.value .unit, .tuple [.any, .value .unit]]).check 0 (.tuple [.unit, .tuple [.int, .unit]]) = .ok () ∧
    (tuple [.value .unit, .tuple [.any, .value .unit]]).isIrrefutable = true ∧
    (Value.tuple [.unit, .tuple [.int 5, .unit]]).inhabits (.tuple [.unit, .tuple [.int, .unit]]) = true ∧
    (Value.tuple [.unit, .tuple [.int 5, .unit]]).fits (tuple [.value .unit, .tuple [.any, .value .unit]]) = true :=
  have hv : (Value.tuple [.unit, .tuple [.int 5, .unit]]).inhabits (.tuple [.unit, .tuple [.int, .unit]]) = true := rfl
  ⟨rfl, rfl, rfl, hv, fits_of_check 0 rfl rfl rfl (Value.hasForm_of_inhabits hv)⟩

end Pattern

end Dataflow
