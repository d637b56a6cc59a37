import Dataflow.Literal.Basic
import Dataflow.Text.Alphanumeric
import Dataflow.Text.Blank

/-!
# Morphisms

Arrows and guards carry morphisms: small typed expressions with a list of parameters and a result.

```text
(+)          params [a, a]   result a
(+ 1)        params [Int]    result Int
42           params []       result Int
!(+ 1, 7)    params [Int]    result (Int, Int)
$1           params [a]      result a
```

On an arrow the first parameter is the arrow's input. A morphism without parameters ignores it.
-/

namespace Dataflow

inductive Morphism where
  /-- A named function, or a named value if it has no parameters. -/
  | named (name : String) (params : List Ty) (result : Ty)
  /-- `$n` routes the input into slot `n` of an intersection; `$` is the identity. -/
  | slot (index : Option Nat)
  | literal (l : Literal)
  /-- Applies every part to the same input. -/
  | tuple (parts : List Morphism) (params : List Ty) (result : Ty)
  /-- A partial application: arguments of the base by position, in ascending order. -/
  | bound (base : Morphism) (bindings : List (Nat × Morphism)) (params : List Ty) (result : Ty)
deriving Repr, Inhabited

/-- A name of symbol characters only. Such names are written infix. -/
def isOperatorName (name : String) : Bool :=
  !name.isEmpty &&
    name.toList.all fun c =>
      !Text.isAlphanumeric c && c ≠ '_' && c ≠ '\'' && !Text.isBlank c

namespace Morphism

def params : Morphism → List Ty
  | .named _ ps _ => ps
  | .slot _ => [.var "a"]
  | .literal _ => []
  | .tuple _ ps _ => ps
  | .bound _ _ ps _ => ps

def result : Morphism → Ty
  | .named _ _ r => r
  | .slot _ => .var "a"
  | .literal l => l.ty
  | .tuple _ _ r => r
  | .bound _ _ _ r => r

def arity (m : Morphism) : Nat := m.params.length

/-- The type of the input; a morphism without parameters is its own source. -/
def source (m : Morphism) : Ty :=
  m.params.head?.getD m.result

/-- The type that is left once the input has been supplied. -/
def target (m : Morphism) : Ty :=
  Ty.curried m.params.tail m.result

/-- The type of the morphism as an argument. -/
def purified (m : Morphism) : Ty :=
  Ty.curried m.params m.result

def name? : Morphism → Option String
  | .named n _ _ => some n
  | _ => none

def isOperator (m : Morphism) : Bool :=
  m.name?.any isOperatorName

/-- The slot of a positional morphism, itself absent for the identity. -/
def slot? : Morphism → Option (Option Nat)
  | .slot index => some index
  | _ => none

/-- Routes its input into a slot of an intersection. -/
def isPositional : Morphism → Bool
  | .slot (some _) => true
  | _ => false

end Morphism

end Dataflow
