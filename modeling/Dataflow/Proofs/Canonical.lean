import Dataflow.Proofs.Spelling

/-!
# The spelling of a type is canonical

Type text names one type in many ways: with synonyms of atoms, a class context, needless parentheses, lists
in brackets. When names go by their shape, the type that a text means is `Ty.Shaped`, and the spelling
of such a type means that type again (`TyExpr.structural_canonical`). So two types that are read from text are
the same exactly if they are spelled the same.
-/

namespace Dataflow

/-! ## What a tree means -/

namespace TyExpr

theorem resolveList_shape (es : List TyExpr) :
    Id.run (resolveList (fun name args => pure (shape name args)) es) = es.map structural := by
  induction es with
  | nil => rfl
  | cons e es ih =>
    rw [List.map_cons, ← ih]
    rfl

theorem structural_con (x : String) (args : List TyExpr) :
    (con x args).structural = shape x (args.map structural) := by
  rw [← resolveList_shape]
  rfl

theorem structural_tuple (items : List TyExpr) :
    (tuple items).structural = Ty.ofComponents (items.map structural) := by
  rw [← resolveList_shape]
  rfl

/-- A name that begins like a variable is one, with or without arguments. -/
theorem shape_var {x : String} (hx : (startsLower x || startsUnderscore x) = true) (args : List Ty) :
    shape x args = .var x := by
  unfold shape
  split
  case h_7 => rw [if_pos hx]
  all_goals exact absurd hx (by decide)

end TyExpr

namespace Ty

open TyExpr

mutual

/-- A type whose names mean it by their shape. -/
def Shaped : Ty → Prop
  | .atom a => a ≠ .source ∧ a ≠ .target
  | .tuple ts => 2 ≤ ts.length ∧ ShapedList ts
  | .con x args => Token.IsName x ∧ shape x args = .con x args ∧ ShapedList args
  | .var x => Token.IsName x ∧ shape x [] = .var x
  | .func a b => Shaped a ∧ Shaped b
termination_by structural t => t

def ShapedList : List Ty → Prop
  | [] => True
  | t :: ts => Shaped t ∧ ShapedList ts
termination_by structural ts => ts

end

mutual

theorem Shaped.legible : ∀ {t : Ty}, t.Shaped → t.Legible
  | .atom _, h => h
  | .tuple _, h => ⟨h.1, ShapedList.legible h.2⟩
  | .con _ _, h => ⟨h.1, ShapedList.legible h.2.2⟩
  | .var _, h => h.1
  | .func _ _, h => ⟨Shaped.legible h.1, Shaped.legible h.2⟩

theorem ShapedList.legible : ∀ {ts : List Ty}, ShapedList ts → LegibleList ts
  | [], _ => trivial
  | _ :: _, h => ⟨Shaped.legible h.1, ShapedList.legible h.2⟩

end

/-! ## From text to types -/

/-- The meaning of a name is an atom, a variable of that name, or a constructor of that name. -/
theorem shape_shaped {x : String} {args : List Ty} (hx : Token.IsName x) (hargs : ShapedList args) :
    (shape x args).Shaped := by
  by_cases hvar : (startsLower x || startsUnderscore x) = true
  · rw [shape_var hvar]
    exact ⟨hx, shape_var hvar []⟩
  · have hcon : shape x args = .con x args → (shape x args).Shaped := by
      intro h
      rw [h]
      exact ⟨hx, h, hargs⟩
    revert hcon
    unfold shape
    split
    case h_7 =>
      intro hcon
      exact hcon (if_neg hvar)
    all_goals exact fun _ => ⟨by decide, by decide⟩

theorem ofComponents_shaped {ts : List Ty} (hmany : 2 ≤ ts.length) (hts : ShapedList ts) : (ofComponents ts).Shaped := by
  match ts, hmany with
  | _ :: _ :: _, hmany => exact ⟨hmany, hts⟩

mutual

/-- What a text means is shaped. -/
theorem structural_shaped : ∀ {e : TyExpr}, e.WellFormed → e.structural.Shaped
  | .con x args, h => by
    rw [structural_con]
    exact shape_shaped h.1 (structuralList_shaped h.2)
  | .unit, _ => ⟨by decide, by decide⟩
  | .tuple items, h => by
    rw [structural_tuple]
    exact ofComponents_shaped (by simpa using h.1) (structuralList_shaped h.2)
  | .list item, h =>
    ⟨isName_constructor (by simp [constructors]), rfl, structural_shaped (e := item) h, trivial⟩
  | .func _ _, h => ⟨structural_shaped h.1, structural_shaped h.2⟩

theorem structuralList_shaped : ∀ {es : List TyExpr}, WellFormedList es → ShapedList (es.map structural)
  | [], _ => trivial
  | _ :: _, h => ⟨structural_shaped h.1, structuralList_shaped h.2⟩

end

/-! ## From types to text -/

theorem structural_atom {a : Atom} (ha : a ≠ .source ∧ a ≠ .target) : (spelled (.atom a)).structural = .atom a := by
  cases a with
  | source => exact absurd rfl ha.1
  | target => exact absurd rfl ha.2
  | int | char | bool | float | unit => rfl

mutual

/-- The names of a shaped type mean it. -/
theorem structural_spelled : ∀ {t : Ty}, t.Shaped → t.spelled.structural = t
  | .atom a, h => structural_atom h
  | .tuple ts, h => by
    have htuple : ofComponents ts = .tuple ts := by
      match ts, h.1 with
      | _ :: _ :: _, _ => rfl
    rw [spelled, structural_tuple, structuralList_spelled h.2, htuple]
  | .con x args, h => by
    rw [spelled, structural_con, structuralList_spelled h.2.2]
    exact h.2.1
  | .var x, h => by
    rw [spelled, structural_con]
    exact h.2
  | .func a b, h => by
    calc (spelled (.func a b)).structural = .func a.spelled.structural b.spelled.structural := rfl
      _ = .func a b := by rw [structural_spelled h.1, structural_spelled h.2]

theorem structuralList_spelled : ∀ {ts : List Ty}, ShapedList ts → (spelledList ts).map structural = ts
  | [], _ => rfl
  | _ :: _, h => by
    rw [spelledList, List.map_cons, structural_spelled h.1, structuralList_spelled h.2]

end

/-- A shaped type is read back from its spelling. -/
theorem Shaped.read {t : Ty} (h : t.Shaped) : ∃ e, TyExpr.read t.pretty = .ok e ∧ e.structural = t :=
  ⟨t.spelled, read_legible h.legible, structural_spelled h⟩

/-- Shaped types that are spelled the same are the same. -/
theorem Shaped.pretty_inj {t t' : Ty} (h : t.Shaped) (h' : t'.Shaped) (hsame : t.pretty = t'.pretty) : t = t' := by
  obtain ⟨e, he, rfl⟩ := h.read
  obtain ⟨e', he', rfl⟩ := h'.read
  rw [hsame, he'] at he
  cases he
  rfl

end Ty

namespace TyExpr

/-- **The spelling of a type that was read from text is canonical.** It is type text that means the same
type, and no other type that is read from text is spelled like it. -/
theorem structural_canonical {text : String} {e : TyExpr} (h : read text = .ok e) :
    (∃ e', read e.structural.pretty = .ok e' ∧ e'.structural = e.structural) ∧
    ∀ (text' : String) (e' : TyExpr), read text' = .ok e' →
      (e.structural = e'.structural ↔ e.structural.pretty = e'.structural.pretty) := by
  have hshaped := Ty.structural_shaped (read_wellFormed h)
  refine ⟨hshaped.read, fun text' e' h' => ⟨congrArg Ty.pretty, fun hsame => ?_⟩⟩
  exact hshaped.pretty_inj (Ty.structural_shaped (read_wellFormed h')) hsame

/-- A text whose type has a given spelling can be read. -/
theorem exists_read {text spelling : String}
    (h : (read text).toOption.any (fun e => e.structural.pretty = spelling) = true) :
    ∃ e, read text = .ok e ∧ e.structural.pretty = spelling := by
  cases hread : read text with
  | error err =>
    rw [hread] at h
    cases h
  | ok e =>
    rw [hread] at h
    exact ⟨e, rfl, of_decide_eq_true h⟩

/-- Two texts of one type, with synonyms, a context, needless parentheses, a variable with an argument and a
function as an argument of a constructor. -/
theorem structural_canonical_loosely : ∃ e e',
    read "Eq a => ((Integer, [Char])) -> Maybe (a b -> _x) Unit -> ()" = .ok e ∧
    read "(Int, List Char) -> (Maybe ((a -> _x)) (Unit) -> ())" = .ok e' ∧
    e.structural.pretty = "(Int, List Char) -> Maybe (a -> _x) Unit -> ()" ∧
    (∃ e'', read e.structural.pretty = .ok e'' ∧ e''.structural = e.structural) ∧
    e.structural = e'.structural := by
  obtain ⟨e, hread, hspelling⟩ : ∃ e,
      read "Eq a => ((Integer, [Char])) -> Maybe (a b -> _x) Unit -> ()" = .ok e ∧
      e.structural.pretty = "(Int, List Char) -> Maybe (a -> _x) Unit -> ()" := exists_read (by decide +kernel)
  obtain ⟨e', hread', hspelling'⟩ : ∃ e,
      read "(Int, List Char) -> (Maybe ((a -> _x)) (Unit) -> ())" = .ok e ∧
      e.structural.pretty = "(Int, List Char) -> Maybe (a -> _x) Unit -> ()" := exists_read (by decide +kernel)
  obtain ⟨hback, hsame⟩ := structural_canonical hread
  exact ⟨e, e', hread, hread', hspelling, hback, (hsame _ e' hread').2 (hspelling.trans hspelling'.symm)⟩

end TyExpr

end Dataflow
