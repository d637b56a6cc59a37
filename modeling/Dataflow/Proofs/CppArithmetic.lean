import Dataflow.Proofs.FloorDivision
import Dataflow.Render.Cpp

/-!
# Whole numbers in C++

The source writes a built-in function of two whole numbers as an operator in parentheses. Such texts are
read here with the meaning that C++ gives to its operators on a `long` of 64 bits: division rounds toward
zero, a remainder has the sign of the dividend, and nothing is defined where a result does not fit. Wherever
the evaluator gives a value the text has one too, and it is the same one for all functions but `div` and `mod`.
These round down, so they differ from the operators where the division is not exact and the signs differ
(`Cpp.apply_agrees_iff`, `Cpp.apply_disagrees`).
-/

namespace Dataflow.Cpp

open Builtin (fit? Representable)

/-! ## Expressions on `long` -/

inductive Operator where
  | add | sub | mul | div | rem | lt | le | gt | ge | eq | ne
deriving DecidableEq

def Operator.spelling : Operator → String
  | .add => "+"
  | .sub => "-"
  | .mul => "*"
  | .div => "/"
  | .rem => "%"
  | .lt => "<"
  | .le => "<="
  | .gt => ">"
  | .ge => ">="
  | .eq => "=="
  | .ne => "!="

inductive Term where
  | name (x : String)
  | number (n : Nat)
  | minus (t : Term)
  | binary (o : Operator) (l r : Term)
deriving DecidableEq

inductive Scalar where
  | long (n : Int64)
  | bool (b : Bool)
deriving DecidableEq

/-- The same value in the evaluator. -/
def Scalar.toValue : Scalar → Value
  | .long n => .int n
  | .bool b => .bool b

/-- The meaning of an operator; absent where the language leaves it undefined. A remainder is undefined
where its quotient is. -/
def Operator.compute : Operator → Int64 → Int64 → Option Scalar
  | .add, x, y => (fit? (x.toInt + y.toInt)).map .long
  | .sub, x, y => (fit? (x.toInt - y.toInt)).map .long
  | .mul, x, y => (fit? (x.toInt * y.toInt)).map .long
  | .div, x, y => if y = 0 then none else (fit? (x.toInt.tdiv y.toInt)).map .long
  | .rem, x, y =>
    if y = 0 then none
    else (fit? (x.toInt.tdiv y.toInt)).bind fun _ => (fit? (x.toInt.tmod y.toInt)).map .long
  | .lt, x, y => some (.bool (x.toInt < y.toInt))
  | .le, x, y => some (.bool (x.toInt ≤ y.toInt))
  | .gt, x, y => some (.bool (y.toInt < x.toInt))
  | .ge, x, y => some (.bool (y.toInt ≤ x.toInt))
  | .eq, x, y => some (.bool (x = y))
  | .ne, x, y => some (.bool (x ≠ y))

/-- The value of an expression, given those of the variables. -/
def Term.value (vars : String → Option Int64) : Term → Option Scalar
  | .name x => (vars x).map .long
  | .number n => (fit? n).map .long
  | .minus t =>
    match t.value vars with
    | some (.long x) => (fit? (-x.toInt)).map .long
    | _ => none
  | .binary o l r =>
    match l.value vars, r.value vars with
    | some (.long x), some (.long y) => o.compute x y
    | _, _ => none

/-! ## Reading them -/

/-- Words and parentheses, which blanks may separate. -/
inductive Mark where
  | opening
  | closing
  | word (cs : List Char)

def flush (word : List Char) : List Mark := if word.isEmpty then [] else [.word word]

/-- Cuts a text into words and parentheses; `word` has been read of a word already. -/
def cut (word : List Char) : List Char → List Mark
  | [] => flush word
  | c :: cs =>
    if c = ' ' then flush word ++ cut [] cs
    else if c = '(' then flush word ++ .opening :: cut [] cs
    else if c = ')' then flush word ++ .closing :: cut [] cs
    else cut (word ++ [c]) cs

def operator? (word : List Char) : Option Operator :=
  [Operator.add, .sub, .mul, .div, .rem, .lt, .le, .gt, .ge, .eq, .ne].find? fun o => o.spelling.toList = word

/-- A decimal number. A zero in front would make it an octal one. -/
def number? (word : List Char) : Option Nat :=
  if word ≠ [] ∧ word.all Char.isDigit ∧ (word.head? = some '0' → word = ['0']) then
    some (Nat.ofDigitChars 10 word 0)
  else none

def name? (word : List Char) : Option String :=
  if (word.head?.any fun c => c.isAlpha || c = '_') && word.all fun c => c.isAlphanum || c = '_' then
    some (String.ofList word)
  else none

/-- An operand without parentheses. -/
def leaf? : List Char → Option Term
  | '-' :: word => (number? word).map fun n => .minus (.number n)
  | word => ((number? word).map .number).or ((name? word).map .name)

/-- What has been read of an expression that goes on. -/
inductive Item where
  | opened
  | operator (o : Operator)
  | operand (t : Term)

/-- Reads on, the latest item first. What stands in parentheses becomes one operand. -/
def shift : List Item → Mark → Option (List Item)
  | items, .opening => some (.opened :: items)
  | items, .word w =>
    match operator? w with
    | some o => some (.operator o :: items)
    | none => (leaf? w).map (.operand · :: items)
  | .operand r :: .operator o :: .operand l :: .opened :: items, .closing => some (.operand (.binary o l r) :: items)
  | .operand t :: .opened :: items, .closing => some (.operand t :: items)
  | _, .closing => none

def shiftAll (items : List Item) : List Mark → Option (List Item)
  | [] => some items
  | m :: ms => (shift items m).bind (shiftAll · ms)

/-- Reads an expression in which every operator stands in parentheses of its own, so that no rule of
precedence is needed. -/
def read (text : String) : Option Term :=
  match shiftAll [] (cut [] text.toList) with
  | some [.operand t] => some t
  | _ => none

/-- The value of a text. -/
def evaluate (vars : String → Option Int64) (text : String) : Option Scalar := (read text).bind (Term.value vars)

/-! ## Texts put together -/

/-- Words end at blanks and parentheses. -/
theorem cut_append {d : Char} (hd : d ∈ [' ', '(', ')']) (cs rest : List Char) : ∀ word,
    cut word (cs ++ d :: rest) = cut word cs ++ cut [] (d :: rest) := by
  induction cs with
  | nil =>
    intro word
    simp only [List.mem_cons, List.not_mem_nil, or_false] at hd
    rcases hd with rfl | rfl | rfl <;> simp [cut, flush]
  | cons c cs ih =>
    intro word
    rw [List.cons_append, cut, cut]
    split
    · rw [ih, List.append_assoc]
    · split
      · rw [ih, List.append_assoc, List.cons_append]
      · split
        · rw [ih, List.append_assoc, List.cons_append]
        · exact ih _

theorem cut_spelling (o : Operator) : cut [] o.spelling.toList = [.word o.spelling.toList] := by
  cases o <;> rfl

theorem operator?_spelling (o : Operator) : operator? o.spelling.toList = some o := by
  cases o <;> rfl

/-- A step looks at the latest items only. -/
theorem shift_append {items items' : List Item} {m : Mark} (h : shift items m = some items') (below : List Item) :
    shift (items ++ below) m = some (items' ++ below) := by
  unfold shift at h
  split at h
  · cases h
    rfl
  · split at h
    · rename_i o ho
      cases h
      simp [shift, ho]
    · rename_i hnone
      obtain ⟨t, ht, rfl⟩ := Option.map_eq_some_iff.1 h
      simp [shift, hnone, ht]
  · cases h
    rfl
  · cases h
    rfl
  · cases h

theorem shiftAll_below {items items' : List Item} {ms : List Mark} (h : shiftAll items ms = some items')
    (below : List Item) : shiftAll (items ++ below) ms = some (items' ++ below) := by
  induction ms generalizing items with
  | nil =>
    cases h
    rfl
  | cons m ms ih =>
    obtain ⟨next, hnext, h⟩ := Option.bind_eq_some_iff.1 h
    rw [shiftAll, shift_append hnext below, Option.bind_some]
    exact ih h

theorem shiftAll_append (items : List Item) (ms ns : List Mark) :
    shiftAll items (ms ++ ns) = (shiftAll items ms).bind (shiftAll · ns) := by
  induction ms generalizing items with
  | nil => rfl
  | cons m ms ih =>
    rw [List.cons_append, shiftAll, shiftAll]
    cases shift items m with
    | none => rfl
    | some next => exact ih next

/-- A text that is read becomes an operand, whatever was read before it. -/
theorem shiftAll_read {text : String} {t : Term} (h : read text = some t) (items : List Item) :
    shiftAll items (cut [] text.toList) = some (.operand t :: items) := by
  unfold read at h
  split at h
  · rename_i u hu
    cases h
    exact shiftAll_below hu items
  · cases h

/-- Two texts with an operator between them, in parentheses. -/
theorem read_binary {a b : String} {l r : Term} (ha : read a = some l) (hb : read b = some r) (o : Operator) :
    read ("(" ++ a ++ " " ++ o.spelling ++ " " ++ b ++ ")") = some (.binary o l r) := by
  have hcut : cut [] ("(" ++ a ++ " " ++ o.spelling ++ " " ++ b ++ ")").toList =
      .opening :: (cut [] a.toList ++ .word o.spelling.toList :: (cut [] b.toList ++ [.closing])) := by
    have hopen : ("(" ++ a ++ " " ++ o.spelling ++ " " ++ b ++ ")").toList =
        '(' :: (a.toList ++ ' ' :: (o.spelling.toList ++ ' ' :: (b.toList ++ [')']))) := by simp
    have hblank : ∀ cs, cut [] (' ' :: cs) = cut [] cs := fun _ => rfl
    have hstart : ∀ cs, cut [] ('(' :: cs) = .opening :: cut [] cs := fun _ => rfl
    have hend : cut [] [')'] = [.closing] := rfl
    rw [hopen, hstart, cut_append (by simp), hblank, cut_append (by simp), hblank, cut_append (by simp), hend,
      cut_spelling, List.singleton_append]
  have hword : shift [.operand l, .opened] (.word o.spelling.toList) = some [.operator o, .operand l, .opened] := by
    simp only [shift, operator?_spelling]
  unfold read
  rw [hcut, shiftAll, shift, Option.bind_some, shiftAll_append, shiftAll_read ha, Option.bind_some, shiftAll, hword,
    Option.bind_some, shiftAll_append, shiftAll_read hb]
  rfl

/-! ## The operators behind the functions -/

/-- The operator that the source has for a function. -/
def operators : List (String × Operator) :=
  [("+", .add), ("-", .sub), ("*", .mul), ("div", .div), ("mod", .rem), ("<", .lt), ("<=", .le), (">", .gt),
   (">=", .ge), ("==", .eq), ("/=", .ne)]

theorem apply_eq {op : String} {o : Operator} (h : (op, o) ∈ operators) (a b : String) :
    apply op [a, b] = "(" ++ a ++ " " ++ o.spelling ++ " " ++ b ++ ")" := by
  simp only [operators, List.mem_cons, Prod.mk.injEq, List.not_mem_nil, or_false] at h
  rcases h with ⟨rfl, rfl⟩ | ⟨rfl, rfl⟩ | ⟨rfl, rfl⟩ | ⟨rfl, rfl⟩ | ⟨rfl, rfl⟩ | ⟨rfl, rfl⟩ | ⟨rfl, rfl⟩ | ⟨rfl, rfl⟩ |
    ⟨rfl, rfl⟩ | ⟨rfl, rfl⟩ | ⟨rfl, rfl⟩ <;>
    exact String.toList_inj.1 (by simp [apply, isBuiltinOperator, Operator.spelling])

/-- A call is as good as the operator on the values of its arguments. -/
theorem evaluate_apply {vars : String → Option Int64} {op : String} {o : Operator} (h : (op, o) ∈ operators)
    {a b : String} {x y : Int64} (ha : evaluate vars a = some (.long x)) (hb : evaluate vars b = some (.long y)) :
    evaluate vars (apply op [a, b]) = o.compute x y := by
  obtain ⟨l, hl, hx⟩ := Option.bind_eq_some_iff.1 ha
  obtain ⟨r, hr, hy⟩ := Option.bind_eq_some_iff.1 hb
  rw [apply_eq h, evaluate, read_binary hl hr, Option.bind_some, Term.value, hx, hy]

/-! ## What the functions give -/

section
variable {x y : Int64} {v : Value}

/-- The exact result of a function, which both sides give if it fits. -/
theorem run_exact {op : String} {o : Operator} {n : Int}
    (h : (op, o, n) ∈ [("+", .add, x.toInt + y.toInt), ("-", .sub, x.toInt - y.toInt), ("*", .mul, x.toInt * y.toInt)]) :
    Builtin.run op [.int x, .int y] = (fit? n).elim (.error (.overflow op)) (fun m => .ok (.int m)) ∧
      o.compute x y = (fit? n).map Scalar.long := by
  simp only [List.mem_cons, Prod.mk.injEq, List.not_mem_nil, or_false] at h
  rcases h with ⟨rfl, rfl, rfl⟩ | ⟨rfl, rfl, rfl⟩ | ⟨rfl, rfl, rfl⟩
  all_goals
    refine ⟨?_, rfl⟩
    simp only [Builtin.run, Builtin.binary, Builtin.arithmetic, Builtin.arithmeticInt]
    generalize fit? _ = fitted
    cases fitted <;> rfl

theorem compute_exact {op : String} {o : Operator} {n : Int}
    (h : (op, o, n) ∈ [("+", .add, x.toInt + y.toInt), ("-", .sub, x.toInt - y.toInt), ("*", .mul, x.toInt * y.toInt)])
    (hv : Builtin.run op [.int x, .int y] = .ok v) : ∃ w, o.compute x y = some w ∧ w.toValue = v := by
  obtain ⟨hrun, hcompute⟩ := run_exact h
  rw [hrun] at hv
  rw [hcompute]
  cases hfit : fit? n with
  | none =>
    rw [hfit] at hv
    cases hv
  | some m =>
    rw [hfit] at hv
    cases hv
    exact ⟨.long m, rfl, rfl⟩

theorem holds_compare (a b : Int) :
    Builtin.holds "<" (compare a b) = decide (a < b) ∧ Builtin.holds "<=" (compare a b) = decide (a ≤ b) ∧
      Builtin.holds ">" (compare a b) = decide (b < a) ∧ Builtin.holds ">=" (compare a b) = decide (b ≤ a) := by
  rcases lt_trichotomy a b with h | rfl | h
  · rw [compare_lt_iff_lt.2 h]
    simp [Builtin.holds, h, h.le, h.not_gt, h.not_ge]
  · simp [Builtin.holds]
  · rw [compare_gt_iff_gt.2 h]
    simp [Builtin.holds, h, h.le, h.not_gt, h.not_ge]

/-- Comparisons always have a result, and it is the same one. -/
theorem compute_compare {op : String} {o : Operator}
    (h : (op, o) ∈ [("<", .lt), ("<=", .le), (">", .gt), (">=", .ge), ("==", .eq), ("/=", .ne)])
    (hv : Builtin.run op [.int x, .int y] = .ok v) : ∃ w, o.compute x y = some w ∧ w.toValue = v := by
  obtain ⟨hlt, hle, hgt, hge⟩ := holds_compare x.toInt y.toInt
  have hbeq : (Value.int x == Value.int y) = decide (x = y) := by
    change (x == y) = decide (x = y)
    exact beq_eq_decide x y
  simp only [List.mem_cons, Prod.mk.injEq, List.not_mem_nil, or_false] at h
  rcases h with ⟨rfl, rfl⟩ | ⟨rfl, rfl⟩ | ⟨rfl, rfl⟩ | ⟨rfl, rfl⟩ | ⟨rfl, rfl⟩ | ⟨rfl, rfl⟩
  all_goals
    refine ⟨_, rfl, ?_⟩
    rw [← Except.ok.injEq (ε := EvalError), ← hv]
    simp [Builtin.run, Builtin.binary, Builtin.order?, Builtin.compareLiteral, Scalar.toValue, hlt, hle, hgt, hge, hbeq]

/-- The functions that have nothing to round. -/
theorem compute_agrees {op : String} {o : Operator} (h : (op, o) ∈ operators) (hdiv : op ≠ "div") (hmod : op ≠ "mod")
    (hv : Builtin.run op [.int x, .int y] = .ok v) : ∃ w, o.compute x y = some w ∧ w.toValue = v := by
  simp only [operators, List.mem_cons, Prod.mk.injEq, hdiv, hmod, false_and, List.not_mem_nil, or_false, false_or] at h
  rcases h with ⟨rfl, rfl⟩ | ⟨rfl, rfl⟩ | ⟨rfl, rfl⟩ | h
  · exact compute_exact (n := x.toInt + y.toInt) (by simp) hv
  · exact compute_exact (n := x.toInt - y.toInt) (by simp) hv
  · exact compute_exact (n := x.toInt * y.toInt) (by simp) hv
  · exact compute_compare (by simpa using h) hv

/-! ## Division -/

/-- The division is not exact and the signs differ, so rounding down and rounding toward zero differ. -/
def RoundsApart (x y : Int) : Prop := ¬ y ∣ x ∧ (x < 0 ↔ 0 < y)

instance (x y : Int) : Decidable (RoundsApart x y) := inferInstanceAs (Decidable (_ ∧ _))

theorem floorQuotient_eq_of_roundsApart {x y : Int} (hy : y ≠ 0) :
    x.tdiv y = Builtin.floorQuotient x y + if RoundsApart x y then 1 else 0 := by
  have hapart : (x.tmod y ≠ 0 ∧ (x < 0 ↔ 0 ≤ y)) ↔ RoundsApart x y := by
    unfold RoundsApart
    rw [Int.dvd_iff_tmod_eq_zero]
    omega
  rw [Builtin.floorQuotient_eq_tdiv hy, if_congr hapart rfl rfl]
  split <;> omega

/-- Where the evaluator divides, the divisor is not zero and the quotient fits. -/
theorem divides_of_run {op : String} (hop : op = "div" ∨ op = "mod") (hv : Builtin.run op [.int x, .int y] = .ok v) :
    y ≠ 0 ∧ ¬ (x.toInt = -0x8000000000000000 ∧ y.toInt = -1) := by
  have hy : y ≠ 0 := by
    rintro rfl
    rcases hop with rfl | rfl <;> cases hv
  refine ⟨hy, fun ⟨hleast, hminus⟩ => ?_⟩
  rcases hop with rfl | rfl
  · rw [Builtin.run_div hy, hleast, hminus, Builtin.floorDiv?_least] at hv
    cases hv
  · rw [Builtin.run_mod hy, hleast, hminus, Builtin.floorMod?, Builtin.floorDiv?_least] at hv
    cases hv

/-- The operator has a quotient wherever the evaluator has one, and the two differ by one at most. -/
theorem compute_div (hv : Builtin.run "div" [.int x, .int y] = .ok v) :
    ∃ q n : Int64, Operator.div.compute x y = some (.long q) ∧ v = .int n ∧
      q.toInt = n.toInt + if RoundsApart x.toInt y.toInt then 1 else 0 := by
  obtain ⟨hy, hleast⟩ := divides_of_run (Or.inl rfl) hv
  have hx := Builtin.representable_toInt x
  have hy' := Builtin.toInt_ne_zero hy
  obtain ⟨n, hn, hfloor⟩ := Builtin.exists_floorDiv? hx hy' hleast
  obtain ⟨q, hq, htdiv⟩ := Builtin.exists_fit? (Builtin.representable_quotient hx hy' hleast).1
  rw [Builtin.run_div hy, hn] at hv
  cases hv
  refine ⟨q, n, ?_, rfl, ?_⟩
  · rw [Operator.compute, if_neg hy, hq, Option.map_some]
  · rw [htdiv, hfloor, floorQuotient_eq_of_roundsApart hy']

theorem representable_tmod (hy : y ≠ 0) : Representable (x.toInt.tmod y.toInt) := by
  obtain ⟨-, -, habs⟩ := Builtin.tmod_side (x := x.toInt) (Builtin.toInt_ne_zero hy)
  have hfits := Builtin.representable_toInt y
  unfold Representable at *
  omega

/-- The operator has a remainder wherever the evaluator has one, and they are the same or differ by the divisor. -/
theorem compute_rem (hv : Builtin.run "mod" [.int x, .int y] = .ok v) :
    ∃ r n : Int64, Operator.rem.compute x y = some (.long r) ∧ v = .int n ∧
      r.toInt = n.toInt - if RoundsApart x.toInt y.toInt then y.toInt else 0 := by
  obtain ⟨hy, hleast⟩ := divides_of_run (Or.inr rfl) hv
  have hx := Builtin.representable_toInt x
  have hy' := Builtin.toInt_ne_zero hy
  obtain ⟨hfits, hnone⟩ := Builtin.floorMod?_eq hx hy' (Builtin.representable_toInt y) hleast
  have hproduct : Representable (y.toInt * Builtin.floorQuotient x.toInt y.toInt) := by
    by_contra hproduct
    rw [Builtin.run_mod hy, hnone hproduct] at hv
    cases hv
  obtain ⟨n, hn, hfloor⟩ := hfits hproduct
  obtain ⟨q, hq, -⟩ := Builtin.exists_fit? (Builtin.representable_quotient hx hy' hleast).1
  obtain ⟨r, hr, htmod⟩ := Builtin.exists_fit? (representable_tmod (x := x) hy)
  rw [Builtin.run_mod hy, hn] at hv
  cases hv
  refine ⟨r, n, ?_, rfl, ?_⟩
  · rw [Operator.compute, if_neg hy, hq, Option.bind_some, hr, Option.map_some]
  · have hsum := Int.mul_tdiv_add_tmod x.toInt y.toInt
    rw [floorQuotient_eq_of_roundsApart hy', Int.mul_add] at hsum
    rw [htmod, hfloor]
    by_cases hapart : RoundsApart x.toInt y.toInt
    · rw [if_pos hapart, Int.mul_one] at hsum
      rw [if_pos hapart]
      omega
    · rw [if_neg hapart, Int.mul_zero] at hsum
      rw [if_neg hapart]
      omega

theorem toValue_long_eq {m n : Int64} : (Scalar.long m).toValue = .int n ↔ m.toInt = n.toInt := by
  rw [Int64.toInt_inj]
  simp [Scalar.toValue]

end

/-- **Whole numbers in the source and in the evaluator.** Where the evaluator gives a value of one of these
functions, the text that the source has for it is defined and has that value, except that `/` and `%` round
toward zero: in a division that is not exact, of numbers with different signs, the quotient is one more than
the evaluator's, and the remainder is less by the divisor. -/
theorem apply_agrees_iff {op : String} (hop : op ∈ ["+", "-", "*", "div", "mod", "<", "<=", ">", ">=", "==", "/="])
    {vars : String → Option Int64} {a b : String} {x y : Int64} (ha : evaluate vars a = some (.long x))
    (hb : evaluate vars b = some (.long y)) {v : Value} (hv : Builtin.run op [.int x, .int y] = .ok v) :
    ∃ w, evaluate vars (apply op [a, b]) = some w ∧
      (w.toValue = v ↔ ¬ ((op = "div" ∨ op = "mod") ∧ RoundsApart x.toInt y.toInt)) ∧
      (RoundsApart x.toInt y.toInt →
        (op = "div" → ∃ q n, w = .long q ∧ v = .int n ∧ q.toInt = n.toInt + 1) ∧
        (op = "mod" → ∃ r n, w = .long r ∧ v = .int n ∧ r.toInt = n.toInt - y.toInt)) := by
  obtain ⟨o, ho⟩ : ∃ o, (op, o) ∈ operators := by
    obtain ⟨⟨_, o⟩, ho, rfl⟩ := List.mem_map.1 (show op ∈ operators.map (·.1) from hop)
    exact ⟨o, ho⟩
  rw [evaluate_apply ho ha hb]
  by_cases hdiv : op = "div"
  · subst hdiv
    obtain rfl : o = .div := by simpa [operators] using ho
    obtain ⟨q, n, hq, rfl, hqn⟩ := compute_div hv
    refine ⟨.long q, hq, ?_, fun hapart => ⟨fun _ => ?_, by simp⟩⟩
    · rw [toValue_long_eq, hqn]
      split <;> simp_all
    · exact ⟨q, n, rfl, rfl, by rw [hqn, if_pos hapart]⟩
  · by_cases hmod : op = "mod"
    · subst hmod
      obtain rfl : o = .rem := by simpa [operators] using ho
      obtain ⟨r, n, hr, rfl, hrn⟩ := compute_rem hv
      have hy := Builtin.toInt_ne_zero (divides_of_run (Or.inr rfl) hv).1
      refine ⟨.long r, hr, ?_, fun hapart => ⟨by simp, fun _ => ?_⟩⟩
      · rw [toValue_long_eq, hrn]
        split <;> simp_all
      · exact ⟨r, n, rfl, rfl, by rw [hrn, if_pos hapart]⟩
    · obtain ⟨w, hw, hwv⟩ := compute_agrees ho hdiv hmod hv
      exact ⟨w, hw, by simp [hwv, hdiv, hmod], by simp [hdiv, hmod]⟩

/-- The variable `v0` holds `-7`. Divided by `-2` it leaves the same remainder on both sides. -/
theorem apply_agrees_iff_negative :
    let vars : String → Option Int64 := fun name => if name = "v0" then some (-7) else none
    evaluate vars "v0" = some (.long (-7)) ∧ evaluate vars "(-2)" = some (.long (-2)) ∧
    apply "mod" ["v0", "(-2)"] = "(v0 % (-2))" ∧ ¬ RoundsApart (-7) (-2) ∧
    Builtin.run "mod" [.int (-7), .int (-2)] = .ok (.int (-1)) ∧
    ∃ w, evaluate vars (apply "mod" ["v0", "(-2)"]) = some w ∧ w.toValue = .int (-1) := by
  intro vars
  have ha : evaluate vars "v0" = some (.long (-7)) := by decide +kernel
  have hb : evaluate vars "(-2)" = some (.long (-2)) := by decide +kernel
  have hv : Builtin.run "mod" [.int (-7), .int (-2)] = .ok (.int (-1)) := by rfl
  have hexact : ¬ RoundsApart (-7) (-2) := by decide
  obtain ⟨w, hw, hiff, -⟩ := apply_agrees_iff (by simp) ha hb hv
  exact ⟨ha, hb, by rfl, hexact, hv, w, hw, hiff.2 fun h => hexact h.2⟩

/-- Half of `-7` is `-4` with remainder `1` in the evaluator, and `-3` with remainder `-1` in the source. -/
theorem apply_disagrees :
    let vars : String → Option Int64 := fun name => if name = "v0" then some (-7) else none
    (apply "div" ["v0", "2"] = "(v0 / 2)" ∧ evaluate vars "(v0 / 2)" = some (.long (-3)) ∧
      Builtin.run "div" [.int (-7), .int 2] = .ok (.int (-4))) ∧
    apply "mod" ["v0", "2"] = "(v0 % 2)" ∧ evaluate vars "(v0 % 2)" = some (.long (-1)) ∧
      Builtin.run "mod" [.int (-7), .int 2] = .ok (.int 1) := by
  intro vars
  exact ⟨⟨by rfl, by decide +kernel, by rfl⟩, by rfl, by decide +kernel, by rfl⟩

end Dataflow.Cpp
