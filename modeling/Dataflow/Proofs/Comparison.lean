import Dataflow.Proofs.Inhabits

/-!
# Comparison is a linear order

Values of a type that is built from whole numbers, characters, truth values, text and unit by tuples can all
be compared with each other, and comparison is a linear order on them whose equality is `==`
(`Builtin.order?_linear`). Numbers with a point are left out: one that is no number is not equal to itself.

A tuple is compared from the left up to the first difference, so the laws of the order on lists follow from
those on the first components and on the rest (`Builtin.Linear.cons`).
-/

namespace Dataflow

namespace Ty

mutual

/-- Built by tuples from types whose constants are in order. -/
def isOrdered : Ty → Bool
  | .atom a => a = .int || a = .char || a = .bool || a = .unit
  | .con name args => name = "String" && args.isEmpty
  | .tuple ts => areOrdered ts
  | .var _ | .func _ _ => false
termination_by structural t => t

def areOrdered : List Ty → Bool
  | [] => true
  | t :: ts => isOrdered t && areOrdered ts
termination_by structural ts => ts

end

end Ty

namespace Builtin

open Value (inhabits inhabitsAll)

/-- A comparison that may fail and a test for equality, which on a set of things are those of one linear order. -/
structure Linear {α : Type} (order : α → α → Option Ordering) (same : α → α → Bool) (S : α → Prop) : Prop where
  answers : ∀ {a b}, S a → S b → ∃ o, order a b = some o ∧ order b a = some o.swap
  eq_iff : ∀ {a b}, S a → S b → (order a b = some .eq ↔ a = b)
  lt_trans : ∀ {a b c}, S a → S b → S c → order a b = some .lt → order b c = some .lt → order a c = some .lt
  same_iff : ∀ {a b}, S a → S b → (same a b = true ↔ a = b)

namespace Linear

variable {α : Type} {order : α → α → Option Ordering} {same : α → α → Bool} {S T : α → Prop}

theorem mono (h : Linear order same T) (hsub : ∀ a, S a → T a) : Linear order same S where
  answers ha hb := h.answers (hsub _ ha) (hsub _ hb)
  eq_iff ha hb := h.eq_iff (hsub _ ha) (hsub _ hb)
  lt_trans ha hb hc := h.lt_trans (hsub _ ha) (hsub _ hb) (hsub _ hc)
  same_iff ha hb := h.same_iff (hsub _ ha) (hsub _ hb)

/-- Of two comparisons that do not lead down, the first that leads up decides. -/
theorem then_of_le (h : Linear order same S) {a b c : α} (ha : S a) (hb : S b) (hc : S c) {o p : Ordering}
    (hab : order a b = some o) (hbc : order b c = some p) (ho : o ≠ .gt) (hp : p ≠ .gt) :
    order a c = some (o.then p) := by
  cases o with
  | gt => exact absurd rfl ho
  | eq =>
    obtain rfl := (h.eq_iff ha hb).1 hab
    exact hbc
  | lt =>
    cases p with
    | gt => exact absurd rfl hp
    | eq =>
      obtain rfl := (h.eq_iff hb hc).1 hbc
      exact hab
    | lt => exact h.lt_trans ha hb hc hab hbc

end Linear

/-! ## Constants -/

/-- A type whose values are constants only. -/
theorem inhabits_constant {v : Value} {t : Ty} (h : v.inhabits t = true) (htuple : ∀ ts, t ≠ .tuple ts)
    (hfunc : t.isFunction = false) : ∃ l, v = .lit l ∧ t = l.ty := by
  cases v with
  | lit l => exact ⟨l, rfl, Value.inhabits_lit.1 h⟩
  | tuple vs =>
    cases t with
    | tuple ts => exact absurd rfl (htuple ts)
    | atom a | con x ts | var x | func a b => cases h
  | waiting f args =>
    cases t with
    | func a b => cases hfunc
    | atom a | con x ts | var x | tuple ts => cases h
  | closure x body env =>
    cases t with
    | func a b => cases hfunc
    | atom a | con x ts | var x | tuple ts => cases h

/-- Constants that are compared by keys. -/
theorem linear_of_key {ι κ : Type} [BEq ι] [LawfulBEq ι] [Ord κ] [Std.TransOrd κ] [Std.LawfulEqOrd κ]
    (constant : ι → Literal) (key : ι → κ) (hconstant : Function.Injective constant) (hkey : Function.Injective key)
    (horder : ∀ x y, compareLiteral (constant x) (constant y) = some (compare (key x) (key y)))
    (hsame : ∀ x y, (constant x == constant y) = (x == y)) :
    Linear order? Value.beq fun v => ∃ x, v = .lit (constant x) where
  answers := by
    rintro _ _ ⟨x, rfl⟩ ⟨y, rfl⟩
    refine ⟨compare (key x) (key y), horder x y, ?_⟩
    rw [order?, horder, ← Std.OrientedOrd.eq_swap]
  eq_iff := by
    rintro _ _ ⟨x, rfl⟩ ⟨y, rfl⟩
    rw [order?, horder, Option.some.injEq, Std.LawfulEqOrd.compare_eq_iff_eq, hkey.eq_iff, Value.lit.injEq,
      hconstant.eq_iff]
  lt_trans := by
    rintro _ _ _ ⟨x, rfl⟩ ⟨y, rfl⟩ ⟨z, rfl⟩ hxy hyz
    rw [order?, horder, Option.some.injEq] at hxy hyz ⊢
    exact Std.TransCmp.lt_trans hxy hyz
  same_iff := by
    rintro _ _ ⟨x, rfl⟩ ⟨y, rfl⟩
    rw [Value.beq, hsame, beq_iff_eq, Value.lit.injEq, hconstant.eq_iff]

/-- All constants of a type have one constructor. -/
theorem Linear.inhabits {ι : Type} {constant : ι → Literal} {t : Ty}
    (h : Linear order? Value.beq fun v => ∃ x, v = .lit (constant x)) (htuple : ∀ ts, t ≠ .tuple ts)
    (hfunc : t.isFunction = false) (hall : ∀ l : Literal, t = l.ty → ∃ x, l = constant x) :
    Linear order? Value.beq fun v => v.inhabits t = true := by
  refine h.mono fun v hv => ?_
  obtain ⟨l, rfl, hl⟩ := inhabits_constant hv htuple hfunc
  obtain ⟨x, rfl⟩ := hall l hl
  exact ⟨x, rfl⟩

theorem linear_atom {a : Atom} (ha : (Ty.atom a).isOrdered = true) :
    Linear order? Value.beq fun v => v.inhabits (.atom a) = true := by
  cases a with
  | int =>
    refine (linear_of_key .int Int64.toInt (fun _ _ => Literal.int.inj)
      (fun _ _ => Int64.toInt_inj.1) (fun _ _ => rfl) fun _ _ => rfl).inhabits (by simp) rfl fun l hl => ?_
    cases l <;> cases hl
    exact ⟨_, rfl⟩
  | char =>
    refine (linear_of_key .char Char.toNat (fun _ _ => Literal.char.inj)
      (fun _ _ => Char.toNat_inj.1) (fun _ _ => rfl) fun _ _ => rfl).inhabits (by simp) rfl fun l hl => ?_
    cases l <;> cases hl
    exact ⟨_, rfl⟩
  | bool =>
    refine (linear_of_key .bool Bool.toNat (fun _ _ => Literal.bool.inj)
      (by rintro (_ | _) (_ | _) <;> simp) (fun _ _ => rfl) fun _ _ => rfl).inhabits (by simp) rfl fun l hl => ?_
    cases l <;> cases hl
    exact ⟨_, rfl⟩
  | unit =>
    refine (linear_of_key (fun _ : Unit => .unit) (fun _ => 0) (fun _ _ _ => rfl)
      (fun _ _ _ => rfl) (fun _ _ => rfl) fun _ _ => rfl).inhabits (by simp) rfl fun l hl => ?_
    cases l <;> cases hl
    exact ⟨(), rfl⟩
  | float | source | target => cases ha

theorem linear_text : Linear order? Value.beq fun v => v.inhabits .string = true := by
  refine (linear_of_key .text id (fun _ _ => Literal.text.inj) Function.injective_id
    (fun _ _ => rfl) fun _ _ => rfl).inhabits (by simp) rfl fun l hl => ?_
  cases l <;> cases hl
  exact ⟨_, rfl⟩

/-! ## Tuples -/

section
variable {P : Value → Prop} {Q : List Value → Prop} {a b : Value} {as bs : List Value}

/-- Where the first components answer, they decide unless they are equal. -/
theorem orderList?_cons {o : Ordering} (h : order? a b = some o) :
    orderList? (a :: as) (b :: bs) = if o = .eq then orderList? as bs else some o := by
  cases o <;> simp [orderList?, h]

theorem Linear.nil : Linear orderList? Value.beqList (· = []) where
  answers := by
    rintro _ _ rfl rfl
    exact ⟨.eq, rfl, rfl⟩
  eq_iff := by
    rintro _ _ rfl rfl
    exact ⟨fun _ => rfl, fun _ => rfl⟩
  lt_trans := by
    rintro _ _ _ rfl rfl rfl h _
    cases h
  same_iff := by
    rintro _ _ rfl rfl
    exact ⟨fun _ => rfl, fun _ => rfl⟩

/-- One list comes before another if its first component does, or if these are equal and its rest does. -/
theorem orderList?_cons_lt (hP : Linear order? Value.beq P) (ha : P a) (hb : P b) :
    orderList? (a :: as) (b :: bs) = some .lt ↔ order? a b = some .lt ∨ a = b ∧ orderList? as bs = some .lt := by
  obtain ⟨o, ho, -⟩ := hP.answers ha hb
  rw [orderList?_cons ho, ← hP.eq_iff ha hb, ho]
  cases o <;> simp

theorem Linear.cons (hP : Linear order? Value.beq P) (hQ : Linear orderList? Value.beqList Q) :
    Linear orderList? Value.beqList fun vs => ∃ v rest, vs = v :: rest ∧ P v ∧ Q rest where
  answers := by
    rintro _ _ ⟨a, as, rfl, ha, has⟩ ⟨b, bs, rfl, hb, hbs⟩
    obtain ⟨o, hab, hba⟩ := hP.answers ha hb
    obtain ⟨p, hasbs, hbsas⟩ := hQ.answers has hbs
    rw [orderList?_cons hab, orderList?_cons hba]
    cases o with
    | lt => exact ⟨.lt, rfl, rfl⟩
    | gt => exact ⟨.gt, rfl, rfl⟩
    | eq => exact ⟨p, hasbs, hbsas⟩
  eq_iff := by
    rintro _ _ ⟨a, as, rfl, ha, has⟩ ⟨b, bs, rfl, hb, hbs⟩
    obtain ⟨o, hab, -⟩ := hP.answers ha hb
    rw [orderList?_cons hab, List.cons.injEq, ← hP.eq_iff ha hb, ← hQ.eq_iff has hbs, hab]
    cases o <;> simp
  lt_trans := by
    rintro _ _ _ ⟨a, as, rfl, ha, has⟩ ⟨b, bs, rfl, hb, hbs⟩ ⟨c, cs, rfl, hc, hcs⟩ hab hbc
    rw [orderList?_cons_lt hP ha hb] at hab
    rw [orderList?_cons_lt hP hb hc] at hbc
    rw [orderList?_cons_lt hP ha hc]
    rcases hab with hab | ⟨rfl, hab⟩
    · rcases hbc with hbc | ⟨rfl, -⟩
      · exact Or.inl (hP.lt_trans ha hb hc hab hbc)
      · exact Or.inl hab
    · rcases hbc with hbc | ⟨rfl, hbc⟩
      · exact Or.inl hbc
      · exact Or.inr ⟨rfl, hQ.lt_trans has hbs hcs hab hbc⟩
  same_iff := by
    rintro _ _ ⟨a, as, rfl, ha, has⟩ ⟨b, bs, rfl, hb, hbs⟩
    rw [Value.beqList, Bool.and_eq_true, hP.same_iff ha hb, hQ.same_iff has hbs, List.cons.injEq]

/-- Lists of one length are compared like the tuples of them. -/
theorem Linear.tuple (hQ : Linear orderList? Value.beqList Q) (hlen : ∀ {as bs}, Q as → Q bs → as.length = bs.length) :
    Linear order? Value.beq fun v => ∃ vs, v = .tuple vs ∧ Q vs := by
  have horder : ∀ {as bs}, Q as → Q bs → order? (.tuple as) (.tuple bs) = orderList? as bs := fun has hbs => by
    rw [order?, if_pos (hlen has hbs)]
  constructor
  · rintro _ _ ⟨as, rfl, has⟩ ⟨bs, rfl, hbs⟩
    rw [horder has hbs, horder hbs has]
    exact hQ.answers has hbs
  · rintro _ _ ⟨as, rfl, has⟩ ⟨bs, rfl, hbs⟩
    rw [horder has hbs, hQ.eq_iff has hbs, Value.tuple.injEq]
  · rintro _ _ _ ⟨as, rfl, has⟩ ⟨bs, rfl, hbs⟩ ⟨cs, rfl, hcs⟩ hab hbc
    rw [horder has hbs] at hab
    rw [horder hbs hcs] at hbc
    rw [horder has hcs]
    exact hQ.lt_trans has hbs hcs hab hbc
  · rintro _ _ ⟨as, rfl, has⟩ ⟨bs, rfl, hbs⟩
    rw [Value.beq, hQ.same_iff has hbs, Value.tuple.injEq]

end

mutual

/-- The order of an ordered type, one case for each way to build it. -/
theorem linear_inhabits : ∀ {t : Ty}, t.isOrdered = true → Linear order? Value.beq fun v => v.inhabits t = true
  | .atom _, h => linear_atom h
  | .con x args, h => by
    simp only [Ty.isOrdered, Bool.and_eq_true, decide_eq_true_eq, List.isEmpty_iff] at h
    obtain ⟨rfl, rfl⟩ := h
    exact linear_text
  | .tuple ts, h => by
    refine ((linear_inhabitsAll h).tuple fun has hbs => ?_).mono fun v hv => ?_
    · rw [(Value.inhabitsAll_iff.1 has).length_eq, (Value.inhabitsAll_iff.1 hbs).length_eq]
    · obtain ⟨vs, rfl, hvs⟩ := Value.inhabits_tuple hv
      exact ⟨vs, rfl, Value.inhabitsAll_iff.2 hvs⟩
  | .var _, h => by cases h
  | .func _ _, h => by cases h

theorem linear_inhabitsAll : ∀ {ts : List Ty}, Ty.areOrdered ts = true →
    Linear orderList? Value.beqList fun vs => inhabitsAll vs ts = true
  | [], _ => by
    refine Linear.nil.mono fun vs hvs => ?_
    exact List.forall₂_nil_right_iff.1 (Value.inhabitsAll_iff.1 hvs)
  | t :: ts, h => by
    simp only [Ty.areOrdered, Bool.and_eq_true] at h
    refine ((linear_inhabits h.1).cons (linear_inhabitsAll h.2)).mono fun vs hvs => ?_
    obtain ⟨v, rest, hv, hrest, rfl⟩ := List.forall₂_cons_right_iff.1 (Value.inhabitsAll_iff.1 hvs)
    exact ⟨v, rest, rfl, hv, Value.inhabitsAll_iff.2 hrest⟩

end

/-! ## The comparisons of the evaluator -/

/-- The four comparisons read their answer off the order. -/
theorem run_compare {op : String} (hop : op ∈ ["<", "<=", ">", ">="]) {a b : Value} {o : Ordering}
    (h : order? a b = some o) : run op [a, b] = .ok (.bool (holds op o)) := by
  have harith : op ∉ ["+", "-", "*", "/", "div", "mod"] ∧ op ≠ "==" ∧ op ≠ "/=" := by
    revert op
    decide
  simp only [run, binary, if_neg harith.1, if_neg harith.2.1, if_neg harith.2.2, if_pos hop, h]

/-- **Comparison is a linear order that agrees with equality.** Values of a type built from whole numbers, characters,
truth values, text and unit by tuples are comparable both ways, are neither before nor behind each other
exactly if they are equal, and are in order if both are in order with a value between them. The built-in
comparisons then always give a truth value, and are what `<` and `==` say. -/
theorem order?_linear {t : Ty} (ht : t.isOrdered = true) {a b c : Value} (ha : a.inhabits t = true)
    (hb : b.inhabits t = true) (hc : c.inhabits t = true) :
    (∃ o, order? a b = some o ∧ order? b a = some o.swap ∧ (o = .eq ↔ (a == b) = true)) ∧
    ((a == b) = true ↔ a = b) ∧
    (∀ o p, order? a b = some o → order? b c = some p → o ≠ .gt → p ≠ .gt → order? a c = some (o.then p)) ∧
    ∃ less equal greater,
      run "<" [a, b] = .ok (.bool less) ∧ run "==" [a, b] = .ok (.bool equal) ∧ run "<" [b, a] = .ok (.bool greater) ∧
      run "<=" [a, b] = .ok (.bool (less || equal)) ∧ run ">" [a, b] = .ok (.bool greater) ∧
      run ">=" [a, b] = .ok (.bool (!less)) ∧ run "/=" [a, b] = .ok (.bool (!equal)) := by
  have hlinear := linear_inhabits ht
  obtain ⟨o, hab, hba⟩ := hlinear.answers ha hb
  have hsame : (a == b) = true ↔ a = b := hlinear.same_iff ha hb
  have heq : o = .eq ↔ (a == b) = true := by
    rw [hsame, ← hlinear.eq_iff ha hb, hab, Option.some.injEq]
  refine ⟨⟨o, hab, hba, heq⟩, hsame, fun o p => hlinear.then_of_le ha hb hc, o == .lt, a == b, o == .gt, ?_⟩
  have hbeq : (a == b) = (o == .eq) := by
    rw [Bool.eq_iff_iff, ← heq, beq_iff_eq]
  refine ⟨run_compare (by simp) hab, rfl, ?_, ?_, run_compare (by simp) hab, ?_, rfl⟩
  · rw [run_compare (by simp) hba]
    cases o <;> rfl
  · rw [run_compare (by simp) hab, hbeq]
    cases o <;> rfl
  · rw [run_compare (by simp) hab]
    cases o <;> rfl

/-- Three values of the type `(Int, (String, Bool), ())`. The text decides between the first two, and the number
between them and the third. -/
theorem order?_linear_nested : ∃ a b c : Value,
    a = .tuple [.int (-1), .tuple [.text "ab", .bool true], .unit] ∧
    b = .tuple [.int (-1), .tuple [.text "b", .bool false], .unit] ∧
    c = .tuple [.int 2, .tuple [.text "", .bool false], .unit] ∧
    (Ty.tuple [.int, .tuple [.string, .bool], .unit]).isOrdered = true ∧
    (∀ v ∈ [a, b, c], v.inhabits (.tuple [.int, .tuple [.string, .bool], .unit]) = true) ∧
    order? a b = some .lt ∧ order? b c = some .lt ∧ order? a c = some .lt ∧ (a == b) = false ∧
    ∃ less, run "<" [a, b] = .ok (.bool less) ∧ run ">=" [a, b] = .ok (.bool (!less)) := by
  obtain ⟨a, ha⟩ : ∃ a, a = Value.tuple [.int (-1), .tuple [.text "ab", .bool true], .unit] := ⟨_, rfl⟩
  obtain ⟨b, hb⟩ : ∃ b, b = Value.tuple [.int (-1), .tuple [.text "b", .bool false], .unit] := ⟨_, rfl⟩
  obtain ⟨c, hc⟩ : ∃ c, c = Value.tuple [.int 2, .tuple [.text "", .bool false], .unit] := ⟨_, rfl⟩
  have ht : (Ty.tuple [.int, .tuple [.string, .bool], .unit]).isOrdered = true := by decide
  have hv : ∀ v ∈ [a, b, c], v.inhabits (.tuple [.int, .tuple [.string, .bool], .unit]) = true := by
    rw [ha, hb, hc]
    decide
  have hab : order? a b = some .lt := by
    rw [ha, hb]
    decide
  have hbc : order? b c = some .lt := by
    rw [hb, hc]
    decide
  obtain ⟨⟨o, ho, -, heq⟩, -, htrans, less, -, -, hless, -, -, -, -, hnotless, -⟩ :=
    order?_linear ht (hv a (by simp)) (hv b (by simp)) (hv c (by simp))
  rw [hab, Option.some.injEq] at ho
  refine ⟨a, b, c, ha, hb, hc, ht, hv, hab, hbc, htrans _ _ hab hbc (by decide) (by decide), ?_, less, hless, hnotless⟩
  rw [← Bool.not_eq_true, ← heq, ← ho]
  decide

end Builtin

end Dataflow
