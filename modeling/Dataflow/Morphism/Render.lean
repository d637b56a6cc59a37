import Dataflow.Assoc
import Dataflow.Morphism.Basic

/-!
# Morphisms as text

```text
(+)        an operator alone
9 + 42     an operator with both sides bound
(+ 1)      a right section
(2 *)      a left section
f $ 'c'    a prefix application, where `$` marks an open parameter
!(a, b)    a tuple
```
-/

namespace Dataflow.Morphism

/-- The name of a binary operator, which is written between its operands. -/
def infixName? : Morphism → Option String
  | .named name params _ => if isOperatorName name && params.length = 2 then some name else none
  | _ => none

/-- Whether the text reads back as one term. -/
def isAtomic : Morphism → Bool
  | .named _ _ _ | .slot _ | .tuple _ _ _ => true
  | .literal l => !l.isNegative
  | .bound base bindings _ _ =>
    base.infixName?.isSome && bindings.length = 1 && bindings.any fun b => b.1 < 2

/-- The text as an argument. -/
def shield (m : Morphism) (text : String) : String :=
  Ty.parenthesize (!m.isAtomic) text

/-- Arguments behind a head, with `$` for every position left open before the last. -/
def applied (head : String) (args : List (Nat × String)) : String :=
  let last := (args.getLast?.map Prod.fst).getD 0
  " ".intercalate (head :: (List.range (last + 1)).map fun i => (Assoc.get? i args).getD "$")

/-- An operator between, before or after its operands; `none` if it has none. -/
def infixForm (op : String) (left right : Option String) : Option String :=
  match left, right with
  | some l, some r => some (l ++ " " ++ op ++ " " ++ r)
  | none, some r => some ("(" ++ op ++ " " ++ r ++ ")")
  | some l, none => some ("(" ++ l ++ " " ++ op ++ ")")
  | none, none => none

mutual

/-- The morphism as text. -/
def render : Morphism → String
  | .named name _ _ => Ty.parenthesize (isOperatorName name) name
  | .slot none => "$"
  | .slot (some index) => "$" ++ toString index
  | .literal l => l.render
  | .tuple parts _ _ => "!(" ++ ", ".intercalate (renderList parts) ++ ")"
  | .bound base bindings _ _ =>
    let args := renderArgs bindings
    let head := base.shield (render base)
    match base.infixName? with
    | some op => (infixForm op (Assoc.get? 0 args) (Assoc.get? 1 args)).getD (applied head args)
    | none => applied head args

def renderList : List Morphism → List String
  | [] => []
  | m :: ms => render m :: renderList ms

/-- The texts of arguments, each readable as one term. -/
def renderArgs : List (Nat × Morphism) → List (Nat × String)
  | [] => []
  | (i, m) :: rest => (i, m.shield (render m)) :: renderArgs rest

end

/-- The morphism as an argument. -/
def shielded (m : Morphism) : String :=
  m.shield m.render

end Dataflow.Morphism
