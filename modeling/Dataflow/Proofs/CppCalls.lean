import Dataflow.Render.Cpp
import Dataflow.Proofs.Soundness
import Mathlib.Data.List.Forall2
import Mathlib.Data.List.Nodup

/-!
# Calls in C++ source

A call of a function of the plan runs that function, also if its name is that of a built-in one. The
C++ source calls it by its identifier unless the source has a form of its own for the name
(`Cpp.isWrittenOut`). Names become identifiers one by one, except where a quote is read as an
underscore, where a name looks like the spelling of an operator, or where the main function is
involved (`Cpp.Clash`). `ProgramPlan.cpp_calls_iff` puts the two together.
-/

namespace Dataflow

/-! ## Numbers in base sixteen -/

theorem mem_toDigits_sixteen {c : Char} {n : Nat} (h : c ∈ Nat.toDigits 16 n) : ∃ d < 16, c = Nat.digitChar d := by
  induction n using Nat.strongRecOn with
  | ind n ih =>
    rw [Nat.toDigits_eq_if (by decide)] at h
    split at h
    · exact ⟨n, by assumption, List.mem_singleton.1 h⟩
    · rcases List.mem_append.1 h with h | h
      · exact ih (n / 16) (by omega) h
      · exact ⟨n % 16, by omega, List.mem_singleton.1 h⟩

theorem digitChar_injective : ∀ m < 16, ∀ n < 16, Nat.digitChar m = Nat.digitChar n → m = n := by decide

theorem toDigits_sixteen_injective {m n : Nat} (h : Nat.toDigits 16 m = Nat.toDigits 16 n) : m = n := by
  induction m using Nat.strongRecOn generalizing n with
  | ind m ih =>
    rw [Nat.toDigits_eq_if (by decide), Nat.toDigits_eq_if (n := n) (by decide)] at h
    split at h <;> split at h
    -- a number of one digit and a number of more digits differ in their length
    · exact digitChar_injective m (by assumption) n (by assumption) (List.singleton_inj.1 h)
    · exact absurd (List.append_eq_singleton_iff.1 h.symm) (by simp [Nat.toDigits_ne_nil])
    · exact absurd (List.append_eq_singleton_iff.1 h) (by simp [Nat.toDigits_ne_nil])
    · obtain ⟨hdiv, hmod⟩ := List.append_inj' h rfl
      have hdiv := ih (m / 16) (by omega) hdiv
      have hmod := digitChar_injective _ (Nat.mod_lt m (by decide)) _ (Nat.mod_lt n (by decide)) (List.singleton_inj.1 hmod)
      omega

namespace Cpp

/-! ## Identifiers -/

/-- Characters that an identifier does not tell apart. -/
def Alike (c d : Char) : Prop := c = d ∨ (c = '_' ∨ c = '\'') ∧ (d = '_' ∨ d = '\'')

/-- Names that an identifier does not tell apart. -/
def LooksLike (x y : String) : Prop := List.Forall₂ Alike x.toList y.toList

/-- A character as it stands in the identifier of a name that is no operator. -/
def plainChar (c : Char) : Char := if c = '\'' then '_' else c

/-- The code points of a name in digits. -/
def codePoints (x : String) : List (List Char) := x.toList.map fun c => Nat.toDigits 16 c.toNat

theorem plainChar_eq_iff {c d : Char} : plainChar c = plainChar d ↔ Alike c d := by
  unfold plainChar Alike
  grind

theorem identifier_plain {x : String} (hx : isOperatorName x = false) :
    identifier x = String.ofList (x.toList.map plainChar) := by
  simp only [identifier, hx]
  rfl

theorem identifier_operator {x : String} (hx : isOperatorName x = true) :
    (identifier x).toList = ['o', 'p', '_'] ++ ['_'].intercalate (codePoints x) := by
  simp [identifier, hx, hex, codePoints, String.toList_intercalate, Function.comp_def]

theorem map_plainChar_eq_iff {cs ds : List Char} : cs.map plainChar = ds.map plainChar ↔ List.Forall₂ Alike cs ds := by
  rw [← List.forall₂_eq_eq_eq, List.forall₂_map_left_iff, List.forall₂_map_right_iff]
  simp only [plainChar_eq_iff]

/-- A name that is no operator has the identifier of a text without quotes iff it looks like it. -/
theorem identifier_eq_iff_looksLike {x y : String} (hx : isOperatorName x = false) (hy : y.toList.map plainChar = y.toList) :
    identifier x = y ↔ LooksLike x y := by
  rw [identifier_plain hx, LooksLike, ← map_plainChar_eq_iff, hy, ← String.toList_inj, String.toList_ofList]

theorem identifier_eq_plain_iff {x y : String} (hx : isOperatorName x = false) (hy : isOperatorName y = false) :
    identifier x = identifier y ↔ LooksLike x y := by
  rw [identifier_plain hx, identifier_plain hy, LooksLike, ← map_plainChar_eq_iff, String.ofList_inj]

theorem codePoints_injective {x y : String} (h : codePoints x = codePoints y) : x = y := by
  have hpoint : Function.Injective fun c : Char => Nat.toDigits 16 c.toNat := fun c d hcd =>
    Char.toNat_inj.1 (toDigits_sixteen_injective hcd)
  exact String.toList_inj.1 (List.map_injective_iff.2 hpoint h)

theorem not_mem_codePoints {c : Char} (hc : ∀ d < 16, c ≠ Nat.digitChar d) {x : String} {point : List Char}
    (hpoint : point ∈ codePoints x) : c ∉ point := by
  obtain ⟨d, -, rfl⟩ := List.mem_map.1 hpoint
  intro h
  obtain ⟨digit, hdigit, rfl⟩ := mem_toDigits_sixteen h
  exact hc digit hdigit rfl

/-- The underscores part the code points, for no digit is one. -/
theorem splitOn_codePoints {x : String} (hx : isOperatorName x = true) :
    (['_'].intercalate (codePoints x)).splitOn '_' = codePoints x := by
  have hne : x ≠ "" := by
    rintro rfl
    exact absurd hx (by decide)
  exact List.splitOn_intercalate '_' (fun _ hpoint => not_mem_codePoints (by decide) hpoint) (by simpa [codePoints] using hne)

/-- **Operators are spelled apart.** -/
theorem identifier_operator_injective {x y : String} (hx : isOperatorName x = true) (hy : isOperatorName y = true)
    (h : identifier x = identifier y) : x = y := by
  have hspelled := congrArg String.toList h
  rw [identifier_operator hx, identifier_operator hy, List.append_cancel_left_eq] at hspelled
  have hpoints := congrArg (List.splitOn '_') hspelled
  rw [splitOn_codePoints hx, splitOn_codePoints hy] at hpoints
  exact codePoints_injective hpoints

theorem mem_intercalate {sep : List Char} {c : Char} :
    ∀ {parts : List (List Char)}, c ∈ sep.intercalate parts → c ∈ sep ∨ ∃ part ∈ parts, c ∈ part
  | [], h => by simp at h
  | [part], h => .inr ⟨part, by simp, by simpa using h⟩
  | part :: next :: parts, h => by
    rw [List.intercalate_cons_cons, List.mem_append, List.mem_append] at h
    rcases h with (h | h) | h
    · exact .inr ⟨part, by simp, h⟩
    · exact .inl h
    · rcases mem_intercalate h with h | ⟨part, hpart, h⟩
      · exact .inl h
      · exact .inr ⟨part, List.mem_cons_of_mem _ hpart, h⟩

theorem map_plainChar_operator {x : String} (hx : isOperatorName x = true) :
    (identifier x).toList.map plainChar = (identifier x).toList := by
  have hquote : '\'' ∉ (identifier x).toList := by
    rw [identifier_operator hx]
    intro h
    rcases List.mem_append.1 h with h | h
    · exact absurd h (by decide)
    · rcases mem_intercalate h with h | ⟨point, hpoint, h⟩
      · exact absurd h (by decide)
      · exact not_mem_codePoints (by decide) hpoint h
  have hsame : ∀ c ∈ (identifier x).toList, plainChar c = c := fun c hc =>
    if_neg (by rintro rfl; exact hquote hc)
  exact (List.map_congr_left hsame).trans (List.map_id' _)

/-! ## Functions of one identifier -/

/-- What gives two functions one identifier. -/
inductive Clash : FunctionPlan → FunctionPlan → Prop where
  | mains {f g : FunctionPlan} (hf : f.isMain = true) (hg : g.isMain = true) : Clash f g
  | main {f g : FunctionPlan} (hf : f.isMain = true) (hg : g.isMain = false) (hplain : isOperatorName g.name = false)
      (h : LooksLike g.name "morph_main") : Clash f g
  | quotes {f g : FunctionPlan} (hf : f.isMain = false) (hg : g.isMain = false)
      (hplain : isOperatorName f.name = false ∧ isOperatorName g.name = false) (h : LooksLike f.name g.name) : Clash f g
  | spelled {f g : FunctionPlan} (hf : f.isMain = false) (hg : g.isMain = false) (hop : isOperatorName f.name = true)
      (hplain : isOperatorName g.name = false) (h : LooksLike g.name (identifier f.name)) : Clash f g

theorem functionName_main {f : FunctionPlan} (hf : f.isMain = true) : functionName f = "morph_main" := by
  simp [functionName, hf]

theorem functionName_other {f : FunctionPlan} (hf : f.isMain = false) : functionName f = identifier f.name := by
  simp [functionName, hf]

theorem identifier_operator_ne_main {x : String} (hx : isOperatorName x = true) : identifier x ≠ "morph_main" := by
  intro h
  have hspelled := congrArg String.toList h
  rw [identifier_operator hx] at hspelled
  simp at hspelled

theorem Clash.functionName_eq {f g : FunctionPlan} (h : Clash f g) : functionName f = functionName g := by
  cases h with
  | mains hf hg => rw [functionName_main hf, functionName_main hg]
  | main hf hg hplain h =>
    rw [functionName_main hf, functionName_other hg, (identifier_eq_iff_looksLike hplain (by decide)).2 h]
  | quotes hf hg hplain h =>
    rw [functionName_other hf, functionName_other hg, (identifier_eq_plain_iff hplain.1 hplain.2).2 h]
  | spelled hf hg hop hplain h =>
    rw [functionName_other hf, functionName_other hg,
      (identifier_eq_iff_looksLike hplain (map_plainChar_operator hop)).2 h]

theorem clash_of_functionName_eq {f g : FunctionPlan} (hne : f.name ≠ g.name) (h : functionName f = functionName g) :
    Clash f g ∨ Clash g f := by
  match hf : f.isMain, hg : g.isMain with
  | true, true => exact .inl (.mains hf hg)
  | true, false =>
    rw [functionName_main hf, functionName_other hg] at h
    cases hop : isOperatorName g.name with
    | true => exact absurd h.symm (identifier_operator_ne_main hop)
    | false => exact .inl (.main hf hg hop ((identifier_eq_iff_looksLike hop (by decide)).1 h.symm))
  | false, true =>
    rw [functionName_other hf, functionName_main hg] at h
    cases hop : isOperatorName f.name with
    | true => exact absurd h (identifier_operator_ne_main hop)
    | false => exact .inr (.main hg hf hop ((identifier_eq_iff_looksLike hop (by decide)).1 h))
  | false, false =>
    rw [functionName_other hf, functionName_other hg] at h
    match hfop : isOperatorName f.name, hgop : isOperatorName g.name with
    | true, true => exact absurd (identifier_operator_injective hfop hgop h) hne
    | true, false =>
      exact .inl (.spelled hf hg hfop hgop ((identifier_eq_iff_looksLike hgop (map_plainChar_operator hfop)).1 h.symm))
    | false, true =>
      exact .inr (.spelled hg hf hgop hfop ((identifier_eq_iff_looksLike hfop (map_plainChar_operator hgop)).1 h))
    | false, false => exact .inl (.quotes hf hg ⟨hfop, hgop⟩ ((identifier_eq_plain_iff hfop hgop).1 h))

/-! ## Calls -/

/-- The calls, by the number of their arguments, that the source does not write as calls. -/
def isWrittenOut (name : String) : Nat → Bool
  | 1 => name ∈ ["not", "negate", "fst", "snd", "id"]
  | 2 => isBuiltinOperator name || name ∈ ["/=", "div", "mod"]
  | _ => false

theorem length_identifier_builtin {op : String} (h : isBuiltinOperator op = true) :
    op.length < (identifier op).length := by
  have hall : ∀ op ∈ ["+", "-", "*", "/", "<", "<=", ">", ">=", "==", "&&", "||"], op.length < (identifier op).length := by
    decide +kernel
  exact hall op (of_decide_eq_true h)

/-- A form with something before and behind its argument is no call, for its length. -/
theorem around_ne_call (before behind name a : String) (h : before.length + behind.length ≠ (identifier name).length + 2) :
    before ++ a ++ behind ≠ identifier name ++ "(" ++ ", ".intercalate [a] ++ ")" := by
  intro heq
  have hlength := congrArg String.length heq
  simp only [String.intercalate_singleton, String.length_append, show "(".length = 1 from rfl,
    show ")".length = 1 from rfl] at hlength
  omega

/-- A form with something between its arguments is no call, for its length. -/
theorem between_ne_call (between name a b : String) (h : between.length ≠ (identifier name).length + 2) :
    "(" ++ a ++ between ++ b ++ ")" ≠ identifier name ++ "(" ++ ", ".intercalate [a, b] ++ ")" := by
  intro heq
  have hlength := congrArg String.length heq
  simp only [String.intercalate_cons_cons, String.intercalate_singleton, String.length_append,
    show "(".length = 1 from rfl, show ")".length = 1 from rfl, show ", ".length = 2 from rfl] at hlength
  omega

/-- A call is written with the identifier of its name unless the source has a form of its own for it. -/
theorem apply_eq_iff (name : String) (args : List String) :
    apply name args = identifier name ++ "(" ++ ", ".intercalate args ++ ")" ↔ isWrittenOut name args.length = false := by
  unfold apply
  split
  -- the forms that differ from the name, first between two arguments, then around one
  case h_1 | h_2 | h_3 => exact iff_of_false (between_ne_call _ _ _ _ (by decide +kernel)) (by simp [isWrittenOut])
  case h_4 | h_5 | h_6 | h_7 => exact iff_of_false (around_ne_call _ _ _ _ (by decide +kernel)) (by simp [isWrittenOut])
  case h_8 a =>
    have hne := around_ne_call "" "" "id" a (by decide +kernel)
    exact iff_of_false (by simpa using hne) (by simp [isWrittenOut])
  case h_9 a b hne hdiv hmod =>
    cases hop : isBuiltinOperator name with
    | true =>
      have hform : "(" ++ a ++ " " ++ name ++ " " ++ b ++ ")" = "(" ++ a ++ (" " ++ name ++ " ") ++ b ++ ")" := by
        simp only [String.append_assoc]
      have hlength := length_identifier_builtin hop
      rw [if_pos rfl, hform]
      refine iff_of_false (between_ne_call _ _ _ _ ?_) (by simp [isWrittenOut, hop])
      simp only [String.length_append, show " ".length = 1 from rfl]
      omega
    | false =>
      refine iff_of_true ?_ (by simpa [isWrittenOut, hop] using ⟨hne, hdiv, hmod⟩)
      simp [String.append_assoc]
  case h_10 htwo _ _ _ hnot hnegate hfst hsnd hid =>
    refine iff_of_true rfl ?_
    match args with
    | [] => rfl
    | [a] => simpa [isWrittenOut] using
        ⟨(hnot a · rfl), (hnegate a · rfl), (hfst a · rfl), (hsnd a · rfl), (hid a · rfl)⟩
    | [a, b] => exact absurd rfl (htwo a b)
    | _ :: _ :: _ :: _ => rfl

/-- With all its arguments given, a call is its name and their texts. -/
theorem exprArgs_map_some (es : List Expr) :
    exprArgs es.length (es.map some) = (do let texts ← exprList es; pure (texts, [])) := by
  induction es with
  | nil => rfl
  | cons e es ih =>
    simp only [List.map_cons, List.length_cons, exprArgs, exprList, ih, bind_assoc, pure_bind]

theorem length_exprList (es : List Expr) : ∀ k, ((exprList es).run k).1.length = es.length := by
  induction es with
  | nil => exact fun _ => rfl
  | cons e es ih => exact fun k => congrArg (· + 1) (ih ((expr e).run k).2)

theorem expr_call_eq (name : String) (es : List Expr) (k : Nat) :
    ((expr (.call name es.length (es.map some))).run k).1 = apply name ((exprList es).run k).1 := by
  rw [expr, exprArgs_map_some]
  rfl

theorem expr_call_eq_iff (name : String) (es : List Expr) (k : Nat) :
    ((expr (.call name es.length (es.map some))).run k).1 =
        identifier name ++ "(" ++ ", ".intercalate ((exprList es).run k).1 ++ ")" ↔
      isWrittenOut name es.length = false := by
  rw [expr_call_eq, apply_eq_iff, length_exprList]

end Cpp

namespace ProgramPlan

variable {plan : ProgramPlan} {f : FunctionPlan}

/-- A function whose name no other one has is the one that its name calls. -/
theorem callee?_of_mem (hnames : (plan.functions.map FunctionPlan.name).Nodup) (hf : f ∈ plan.functions)
    (hmain : f.isMain = false) : plan.callee? f.name = some f := by
  obtain ⟨g, hg⟩ : ∃ g, plan.function? f.name = some g :=
    Option.isSome_iff_exists.1 (List.find?_isSome.2 ⟨f, hf, by simp⟩)
  have hname : g.name = f.name := by simpa using List.find?_some hg
  obtain rfl := List.inj_on_of_nodup_map hnames (List.mem_of_find?_eq_some hg) hf hname
  simp [callee?, hg, hmain]

/-- A call of a function of the plan, with all its arguments, runs the function with the first one. -/
theorem expr_call_callee (hf : plan.callee? f.name = some f) (call : FunctionPlan → Value → Outcome)
    (apply : Value → Value → Outcome) (env : Env) (es : List Expr) :
    Eval.expr (Eval.invoke plan call apply) env (.call f.name es.length (es.map some)) = (do
      let vs ← Eval.exprList (Eval.invoke plan call apply) env es
      let v ← call f (vs.head?.getD .unit)
      Eval.applyAll apply v vs.tail) := by
  rw [Eval.expr, Eval.exprArgs_map_some]
  cases hvs : Eval.exprList (Eval.invoke plan call apply) env es with
  | error e => rfl
  | ok vs =>
    have hlen := (Eval.exprList_ok hvs).length_eq
    have hgiven : (decide (es.length ≤ (vs.map some).length) && (vs.map some).all Option.isSome) = true := by
      simp [hlen]
    have hvalues : (vs.map some).filterMap id = vs := by simp
    simp only [Except.map, hgiven, if_true, hvalues, Eval.invoke, hf]
    cases hcall : call f (vs.head?.getD .unit) <;> simp [bind, Except.bind, hcall]

/-- **The C++ source calls what the plan calls, but for built-in forms and identifiers that clash.** In a plan
whose functions have names of their own, a call of one with all its arguments runs it, and the source writes
its identifier and the texts of the arguments iff it has no form of its own for the name. Two functions get
one identifier iff they clash. -/
theorem cpp_calls_iff (plan : ProgramPlan) (hnames : (plan.functions.map FunctionPlan.name).Nodup) :
    (∀ f ∈ plan.functions, f.isMain = false → ∀ es : List Expr,
      (∀ call apply env, Eval.expr (Eval.invoke plan call apply) env (.call f.name es.length (es.map some)) = (do
        let vs ← Eval.exprList (Eval.invoke plan call apply) env es
        let v ← call f (vs.head?.getD .unit)
        Eval.applyAll apply v vs.tail)) ∧
      ∀ k, ((Cpp.expr (.call f.name es.length (es.map some))).run k).1 =
          Cpp.functionName f ++ "(" ++ ", ".intercalate ((Cpp.exprList es).run k).1 ++ ")" ↔
        Cpp.isWrittenOut f.name es.length = false) ∧
    ∀ f ∈ plan.functions, ∀ g ∈ plan.functions, f ≠ g →
      (Cpp.functionName f = Cpp.functionName g ↔ Cpp.Clash f g ∨ Cpp.Clash g f) := by
  refine ⟨fun f hf hmain es => ⟨fun call apply env => ?_, fun k => ?_⟩, fun f hf g hg hne => ⟨fun heq => ?_, ?_⟩⟩
  · exact expr_call_callee (callee?_of_mem hnames hf hmain) call apply env es
  · rw [Cpp.functionName_other hmain]
    exact Cpp.expr_call_eq_iff f.name es k
  · have hname : f.name ≠ g.name := fun hname => hne (List.inj_on_of_nodup_map hnames hf hg hname)
    exact Cpp.clash_of_functionName_eq hname heq
  · rintro (h | h)
    · exact h.functionName_eq
    · exact h.functionName_eq.symm

theorem cpp_calls_iff_doubling : ∃ p plan f g, Draft.doubling.readWith .prelude = .ok p ∧ p.plan = .ok plan ∧
    (plan.functions.map FunctionPlan.name).Nodup ∧ f ∈ plan.functions ∧ f.name = "double" ∧ f.isMain = false ∧
    g ∈ plan.functions ∧ g.name = "f" ∧
    ((Cpp.expr (.call "double" 1 [some (.lit (.int 5))])).run 0).1 = "double(5)" ∧
    ¬ (Cpp.Clash f g ∨ Cpp.Clash g f) := by
  have hcheck : Draft.doubling.planned?.any (fun x => (x.2.functions.map FunctionPlan.name).Nodup ∧
      ∃ f ∈ x.2.functions, ∃ g ∈ x.2.functions, f.name = "double" ∧ f.isMain = false ∧ g.name = "f" ∧
        Cpp.functionName f = "double" ∧ Cpp.functionName g = "f") = true := by
    decide +kernel
  obtain ⟨p, plan, hread, hplan, hcheck⟩ := Draft.exists_readWith hcheck
  obtain ⟨hnames, f, hf, g, hg, hfname, hmain, hgname, hfid, hgid⟩ := of_decide_eq_true hcheck
  have hne : f ≠ g := by
    rintro rfl
    exact absurd (hfname.symm.trans hgname) (by decide)
  obtain ⟨hcalls, hclash⟩ := cpp_calls_iff plan hnames
  have htext := ((hcalls f hf hmain [.lit (.int 5)]).2 0).2 (by rw [hfname]; rfl)
  rw [hfname, hfid] at htext
  refine ⟨p, plan, f, g, hread, hplan, hnames, hf, hfname, hmain, hg, hgname, htext.trans ?_, ?_⟩
  · decide +kernel
  · rw [← hclash f hf g hg hne, hfid, hgid]
    decide

end ProgramPlan

/-! ## Plans that the source does not follow -/

/-- A definition that calls a function with one argument. -/
def Step.calls (name : String) : Step → Bool
  | .bind _ _ (.call func 1 [some _]) => func = name
  | _ => false

theorem Step.calls_iff {name : String} {d : Step} :
    d.calls name = true ↔ ∃ x t e, d = .bind x t (.call name 1 [some e]) := by
  constructor
  · intro h
    unfold calls at h
    split at h
    · rename_i x t func e
      exact ⟨x, t, e, by rw [of_decide_eq_true h]⟩
    · cases h
  · rintro ⟨x, t, e, rfl⟩
    simp [calls]

namespace Draft

/-- A function of the plan has the name of a built-in one, and the plan calls it. -/
def negating : Draft where
  nodes := [⟨"Int", some "negate", ["_"], false⟩, ⟨"Int", none, [], true⟩, ⟨"()", none, ["_"], false⟩,
    ⟨"Int", none, [], true⟩]
  connections := [⟨0, 1, 0, "+ 1"⟩, ⟨2, 3, 0, "negate 5"⟩]

/-- Two functions whose names differ in a quote. -/
def primed : Draft where
  nodes := [⟨"Int", some "a'", ["_"], false⟩, ⟨"Int", none, [], true⟩, ⟨"Int", some "a_", ["_"], false⟩,
    ⟨"Int", none, [], true⟩]
  connections := [⟨0, 1, 0, "+ 1"⟩, ⟨2, 3, 0, "+ 2"⟩]

/-- The plan calls its function of the name, and the source does not. -/
def Miswrites (d : Draft) (name : String) : Prop :=
  ∃ p plan f, d.readWith .prelude = .ok p ∧ p.plan = .ok plan ∧ (plan.functions.map FunctionPlan.name).Nodup ∧
    plan.callee? name = some f ∧
    ∃ g ∈ plan.functions, ∃ x t e, .bind x t (.call name 1 [some e]) ∈ g.body.definitions ∧
      ∀ k, ((Cpp.expr (.call name 1 [some e])).run k).1 ≠
        Cpp.functionName f ++ "(" ++ ", ".intercalate ((Cpp.exprList [e]).run k).1 ++ ")"

/-- Functions of different names get one identifier. -/
def Conflates (d : Draft) : Prop :=
  ∃ p plan, d.readWith .prelude = .ok p ∧ p.plan = .ok plan ∧ (plan.functions.map FunctionPlan.name).Nodup ∧
    ¬ (plan.functions.map Cpp.functionName).Nodup

theorem miswrites_of_check {d : Draft} {name : String} (hname : Cpp.isWrittenOut name 1 = true)
    (h : d.planned?.any (fun x => (x.2.functions.map FunctionPlan.name).Nodup ∧ (x.2.callee? name).isSome ∧
      ∃ g ∈ x.2.functions, ∃ step ∈ g.body.definitions, step.calls name) = true) : d.Miswrites name := by
  obtain ⟨p, plan, hread, hplan, hcheck⟩ := exists_readWith h
  obtain ⟨hnames, hcallee, g, hg, step, hstep, hcalls⟩ := of_decide_eq_true hcheck
  obtain ⟨f, hf⟩ := Option.isSome_iff_exists.1 hcallee
  obtain ⟨x, t, e, rfl⟩ := Step.calls_iff.1 hcalls
  refine ⟨p, plan, f, hread, hplan, hnames, hf, g, hg, x, t, e, hstep, fun k heq => ?_⟩
  obtain ⟨-, hfname, hmain⟩ := Program.callee?_ok hf
  rw [Cpp.functionName_other hmain, hfname] at heq
  exact absurd ((Cpp.expr_call_eq_iff name [e] k).1 heq) (by simp [hname])

theorem conflates_of_check {d : Draft} (h : d.planned?.any (fun x => (x.2.functions.map FunctionPlan.name).Nodup ∧
    ¬ (x.2.functions.map Cpp.functionName).Nodup) = true) : d.Conflates := by
  obtain ⟨p, plan, hread, hplan, hcheck⟩ := exists_readWith h
  exact ⟨p, plan, hread, hplan, of_decide_eq_true hcheck⟩

end Draft

/-- A function with the name of a built-in one is called by the plan and passed over by the source, and two
names that differ in a quote become one identifier. -/
theorem ProgramPlan.cpp_calls_differ : Draft.negating.Miswrites "negate" ∧ Draft.primed.Conflates :=
  ⟨Draft.miswrites_of_check (by decide) (by decide +kernel), Draft.conflates_of_check (by decide +kernel)⟩

end Dataflow
