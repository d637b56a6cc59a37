import Dataflow.Proofs.Canonical
import Dataflow.Render.Haskell

/-!
# Types in the signatures of the source

A Haskell signature spells types in its own way: a list in brackets, a number with a point as `Double`, and
every argument that has arguments or an arrow in parentheses, behind a constructor and before an arrow
alike. Such a text is type text, and it means the type it was written for (`Haskell.ty_denotes`). A list
is taken for one that needs no parentheses, so every `List` must have its one argument.
-/

namespace Dataflow

mutual

/-- Whether every `List` has exactly one argument. -/
def Ty.listsOfOne : Ty → Bool
  | .atom _ => true
  | .tuple ts => listsOfOneAll ts
  | .con x args => (x ≠ "List" || args.length = 1) && listsOfOneAll args
  | .var _ => true
  | .func a b => listsOfOne a && listsOfOne b
termination_by structural t => t

def Ty.listsOfOneAll : List Ty → Bool
  | [] => true
  | t :: ts => listsOfOne t && listsOfOneAll ts
termination_by structural ts => ts

end

namespace Haskell

open TyExpr Ty

/-! ## Texts that mean types -/

/-- The characters are type text of the kind `F` that means `t`. -/
def Writes (F : List Token → TyExpr → Prop) (cs : List Char) (t : Ty) : Prop :=
  ∃ e, Spells F cs e ∧ e.structural = t

/-- The characters are type texts, put together by `F`, that mean `ts`. -/
def WritesList (F : List Token → List TyExpr → Prop) (cs : List Char) (ts : List Ty) : Prop :=
  ∃ es, Spells F cs es ∧ es.map structural = ts

theorem Writes.function {cs : List Char} {t : Ty} (h : Writes (IsAtom IsFunction) cs t) : Writes IsFunction cs t := by
  obtain ⟨e, he, rfl⟩ := h
  exact ⟨e, he.mono fun _ _ h => .plain (.atom h), rfl⟩

theorem Writes.name {x : String} (hx : Token.IsName x) : Writes (IsAtom IsFunction) x.toList (shape x []) :=
  ⟨.con x [], Spells.name hx, structural_con x []⟩

theorem Writes.list {cs : List Char} {t : Ty} (h : Writes IsFunction cs t) :
    Writes (IsAtom IsFunction) ('[' :: (cs ++ [']'])) (.con "List" [t]) := by
  obtain ⟨e, ⟨us, hus, hlex⟩, rfl⟩ := h
  refine ⟨.list e, ⟨_, .list hus, fun rest vs _ h => ?_⟩, rfl⟩
  simpa using (hlex _ _ (by simp [Token.EndsName, Token.inName]) h.rbracket).lbracket

theorem Writes.read {s : String} {t : Ty} (h : Writes IsFunction s.toList t) :
    ∃ e, TyExpr.read s = .ok e ∧ e.structural = t := by
  obtain ⟨e, ⟨us, hus, hlex⟩, rfl⟩ := h
  have hall := hlex [] [] (by simp [Token.EndsName]) .done
  rw [List.append_nil, List.append_nil] at hall
  exact ⟨e, read_ok.2 ⟨us, hall, .plain hus⟩, rfl⟩

/-- The text of a type means it, and is an atom where no parentheses are put around it. -/
structure Denoted (t : Ty) : Prop where
  function : Writes IsFunction (ty t).toList t
  atom : isCompound t = false → Writes (IsAtom IsFunction) (ty t).toList t

theorem Denoted.of_atom {t : Ty} (h : Writes (IsAtom IsFunction) (ty t).toList t) : Denoted t :=
  ⟨h.function, fun _ => h⟩

theorem Denoted.of_compound {t : Ty} (hcompound : isCompound t = true) (h : Writes IsFunction (ty t).toList t) :
    Denoted t := by
  refine ⟨h, fun hatom => ?_⟩
  rw [hcompound] at hatom
  cases hatom

theorem Denoted.argument {t : Ty} (h : Denoted t) : Writes (IsAtom IsFunction) (argumentTy t).toList t := by
  cases hcompound : isCompound t with
  | true =>
    obtain ⟨e, he, rfl⟩ := h.function
    exact ⟨e, by simpa [argumentTy, hcompound, parenthesize] using he.parens, rfl⟩
  | false => simpa [argumentTy, hcompound, parenthesize] using h.atom hcompound

/-- The text of a function type, which is the text of a signature too. -/
theorem Denoted.arrow {a b : Ty} (ha : Denoted a) (hb : Denoted b) :
    Writes IsFunction (argumentTy a ++ " -> " ++ ty b).toList (.func a b) := by
  obtain ⟨e, he, rfl⟩ := ha.argument
  obtain ⟨d, hd, rfl⟩ := hb.function
  have hdomain := he.mono fun _ _ => IsApplication.atom
  exact ⟨.func e d, by simpa using hdomain.arrow hd, rfl⟩

/-! ## Types to texts -/

/-- Only lists have a form of their own. -/
theorem ty_con {x : String} (hx : x ≠ "List") (args : List Ty) :
    ty (.con x args) = " ".intercalate (x :: tyArgs args) := by
  match args with
  | [] => simp [ty, tyArgs]
  | [t] =>
    rw [ty, if_neg hx, tyArgs, tyArgs, ← String.toList_inj]
    simp
  | _ :: _ :: _ => simp [ty]

theorem denoted_atom {a : Atom} (ha : a ≠ .source ∧ a ≠ .target) : Denoted (.atom a) := by
  refine .of_atom ?_
  cases a with
  | source => exact absurd rfl ha.1
  | target => exact absurd rfl ha.2
  | unit => exact ⟨.unit, ⟨[.lparen, .rparen], .unit, fun _ _ _ h => h.rparen.lparen⟩, rfl⟩
  | int | char | bool | float => exact Writes.name ⟨_, _, rfl, by decide, List.all_eq_true.1 (by decide)⟩

/-- A constructor with its arguments behind it. -/
theorem denoted_con {x : String} {args : List Ty} (hx : Token.IsName x) (hlist : x ≠ "List")
    (hshape : shape x args = .con x args)
    (hargs : WritesList (Atoms IsFunction) ((tyArgs args).flatMap fun s => ' ' :: s.toList) args) :
    Denoted (.con x args) := by
  match args with
  | [] =>
    have hname := Writes.name hx
    rw [hshape] at hname
    exact .of_atom hname
  | t :: ts =>
    obtain ⟨es, hes, hmap⟩ := hargs
    have hne : es ≠ [] := by
      rintro rfl
      cases hmap
    refine .of_compound (by simp [isCompound, hlist]) ⟨.con x es, ?_, ?_⟩
    · rw [ty_con hlist]
      exact (hes.applied hx hne).mono fun _ _ => .plain
    · rw [structural_con, hmap, hshape]

mutual

theorem denoted : ∀ {t : Ty}, t.Shaped → t.listsOfOne = true → Denoted t
  | .atom _, h, _ => denoted_atom h
  | .var x, h, _ => by
    have hvar := Writes.name h.1
    rw [h.2] at hvar
    exact .of_atom hvar
  | .tuple ts, h, hlists => by
    have hne : ts ≠ [] := by
      rintro rfl
      exact absurd h.1 (by simp)
    obtain ⟨es, hes, hmap⟩ := writes_items h.2 hlists hne
    have hlen : es.length = ts.length := by rw [← hmap, List.length_map]
    have hstructural : (TyExpr.tuple es).structural = .tuple ts := by
      rw [structural_tuple, hmap]
      match ts, h.1 with
      | _ :: _ :: _, _ => rfl
    refine .of_atom ⟨.tuple es, ?_, hstructural⟩
    simpa [ty] using hes.tuple (hlen ▸ h.1)
  | .con x args, h, hlists => by
    obtain ⟨hone, hargs⟩ : (x = "List" → args.length = 1) ∧ listsOfOneAll args = true := by
      simpa [listsOfOne, Decidable.imp_iff_not_or] using hlists
    by_cases hx : x = "List"
    · match args, hone hx with
      | [t], _ =>
        subst hx
        have hitem := denoted h.2.2.1 (by simpa [listsOfOneAll] using hargs)
        exact .of_atom (by simpa [ty] using hitem.function.list)
    · exact denoted_con h.1 hx h.2.1 (writes_args h.2.2 hargs)
  | .func a b, h, hlists => by
    obtain ⟨ha, hb⟩ : a.listsOfOne = true ∧ b.listsOfOne = true := by simpa [listsOfOne] using hlists
    exact .of_compound rfl ((denoted h.1 ha).arrow (denoted h.2 hb))

theorem writes_items : ∀ {ts : List Ty}, ShapedList ts → listsOfOneAll ts = true → ts ≠ [] →
    WritesList (Items IsFunction) (", ".intercalate (tyList ts)).toList ts
  | [t], h, hlists, _ => by
    obtain ⟨e, he, rfl⟩ := (denoted h.1 (by simpa [listsOfOneAll] using hlists)).function
    exact ⟨[e], by simpa [tyList] using he.lastItem, rfl⟩
  | t :: t' :: ts, h, hlists, _ => by
    obtain ⟨ht, hts⟩ : t.listsOfOne = true ∧ listsOfOneAll (t' :: ts) = true := by simpa [listsOfOneAll] using hlists
    obtain ⟨e, he, rfl⟩ := (denoted h.1 ht).function
    obtain ⟨es, hes, hmap⟩ := writes_items h.2 hts (by simp)
    refine ⟨e :: es, ?_, by rw [List.map_cons, hmap]⟩
    simpa [tyList, String.toList_intercalate] using he.item hes

theorem writes_args : ∀ {ts : List Ty}, ShapedList ts → listsOfOneAll ts = true →
    WritesList (Atoms IsFunction) ((tyArgs ts).flatMap fun s => ' ' :: s.toList) ts
  | [], _, _ => ⟨[], ⟨[], .nil, fun _ _ _ h => h⟩, rfl⟩
  | t :: ts, h, hlists => by
    obtain ⟨ht, hts⟩ : t.listsOfOne = true ∧ listsOfOneAll ts = true := by simpa [listsOfOneAll] using hlists
    obtain ⟨e, he, rfl⟩ := (denoted h.1 ht).argument
    obtain ⟨es, hes, hmap⟩ := writes_args h.2 hts
    exact ⟨e :: es, he.atom hes, by rw [List.map_cons, hmap]⟩

end

/-! ## Signatures -/

/-- What stands behind the name of a function in its signature. -/
theorem head?_function (f : FunctionPlan) :
    (Haskell.function f).head? =
      some (functionName f ++ " :: " ++
        if f.param.isSome then argumentTy f.paramType ++ " -> " ++ ty f.resultType else ty f.resultType) := by
  unfold Haskell.function
  cases f.param <;> simp [String.append_assoc]

/-- **Haskell signatures denote the planned types.** Of types that are read from text and whose lists have
one item type each, the text in a signature, alone and as an argument, is read as the type again. With an
arrow between them the texts of two types are read as the function type, and so is the signature of every
function between them; the signature of a function without parameter is read as the type of its result. -/
theorem ty_denotes {text text' : String} {e e' : TyExpr} (h : read text = .ok e) (h' : read text' = .ok e')
    (hlists : e.structural.listsOfOne = true) (hlists' : e'.structural.listsOfOne = true) :
    (∃ d, read (ty e.structural) = .ok d ∧ d.structural = e.structural) ∧
    (∃ d, read (argumentTy e.structural) = .ok d ∧ d.structural = e.structural) ∧
    (∃ d, read (argumentTy e.structural ++ " -> " ++ ty e'.structural) = .ok d ∧
      d.structural = .func e.structural e'.structural) ∧
    ∀ f : FunctionPlan, f.paramType = e.structural → f.resultType = e'.structural →
      ∃ signature d, (Haskell.function f).head? = some (functionName f ++ " :: " ++ signature) ∧
        read signature = .ok d ∧
        d.structural = if f.param.isSome then .func e.structural e'.structural else e'.structural := by
  have ht := denoted (structural_shaped (read_wellFormed h)) hlists
  have ht' := denoted (structural_shaped (read_wellFormed h')) hlists'
  refine ⟨ht.function.read, ht.argument.function.read, (ht.arrow ht').read, fun f hparam hresult => ?_⟩
  rw [head?_function, hparam, hresult]
  cases f.param with
  | some _ =>
    obtain ⟨d, hd, hmeans⟩ := (ht.arrow ht').read
    exact ⟨_, d, rfl, hd, hmeans⟩
  | none =>
    obtain ⟨d, hd, hmeans⟩ := ht'.function.read
    exact ⟨_, d, rfl, hd, hmeans⟩

/-- A `List` with two arguments is not put in parentheses, so its arguments go to the constructor in front. -/
example : (read "Maybe (List a b)").toOption.map (fun e => ty e.structural) = some "Maybe List a b" := by
  decide +kernel

/-- A text whose type has a given text in the source can be read. -/
theorem exists_listsOfOne {text spelling : String}
    (h : (read text).toOption.any (fun e => e.structural.listsOfOne && ty e.structural = spelling) = true) :
    ∃ e, read text = .ok e ∧ e.structural.listsOfOne = true ∧ ty e.structural = spelling := by
  obtain ⟨e, he, hq⟩ := Except.any_toOption.1 h
  rw [Bool.and_eq_true, decide_eq_true_eq] at hq
  exact ⟨e, he, hq⟩

/-- Functions and applications as arguments of both kinds, lists written in both ways, and a tuple. -/
theorem ty_denotes_nested : ∃ e e',
    read "(a -> Maybe (List Float)) -> Either Integer (Maybe a) -> Unit" = .ok e ∧
    read "[([Char] -> (), IO [a])]" = .ok e' ∧
    ty e.structural = "(a -> Maybe [Double]) -> (Either Int (Maybe a)) -> Unit" ∧
    ty e'.structural = "[([Char] -> (), IO [a])]" ∧
    ∃ d, read (argumentTy e.structural ++ " -> " ++ ty e'.structural) = .ok d ∧
      d.structural = .func e.structural e'.structural := by
  obtain ⟨e, he, hlists, htext⟩ : ∃ e, read "(a -> Maybe (List Float)) -> Either Integer (Maybe a) -> Unit" = .ok e ∧
      e.structural.listsOfOne = true ∧ ty e.structural = "(a -> Maybe [Double]) -> (Either Int (Maybe a)) -> Unit" :=
    exists_listsOfOne (by decide +kernel)
  obtain ⟨e', he', hlists', htext'⟩ : ∃ e, read "[([Char] -> (), IO [a])]" = .ok e ∧
      e.structural.listsOfOne = true ∧ ty e.structural = "[([Char] -> (), IO [a])]" :=
    exists_listsOfOne (by decide +kernel)
  exact ⟨e, e', he, he', htext, htext', (ty_denotes he he' hlists hlists').2.2.1⟩

end Haskell

end Dataflow
