import Dataflow.Literal.Reader
import Dataflow.Text.Pieces

/-!
# Patterns

```text
pattern := "_" | literal | "(" pattern ")" | "(" pattern ("," pattern)+ ")"
```
-/

namespace Dataflow

/-- What a value has to look like. -/
inductive Pattern where
  | any
  | value (l : Literal)
  | tuple (items : List Pattern)
deriving Repr, Inhabited

namespace Pattern

mutual

def beq : Pattern → Pattern → Bool
  | .any, .any => true
  | .value a, .value b => a == b
  | .tuple ps, .tuple qs => beqList ps qs
  | _, _ => false

def beqList : List Pattern → List Pattern → Bool
  | [], [] => true
  | p :: ps, q :: qs => beq p q && beqList ps qs
  | _, _ => false

end

instance : BEq Pattern := ⟨beq⟩

mutual

/-- Matches every value of the type it is used at. -/
def isIrrefutable : Pattern → Bool
  | .any => true
  | .value .unit => true
  | .value _ => false
  | .tuple items => allIrrefutable items

def allIrrefutable : List Pattern → Bool
  | [] => true
  | p :: ps => isIrrefutable p && allIrrefutable ps

end

mutual

/-- The pattern as text. -/
def render : Pattern → String
  | .any => "_"
  | .value l => Ty.parenthesize l.isNegative l.render
  | .tuple items => "(" ++ ", ".intercalate (renderList items) ++ ")"

def renderList : List Pattern → List String
  | [] => []
  | p :: ps => render p :: renderList ps

end

/-- Reads the items of a tuple in order. -/
def readItems (read : List Char → Except ReadError Pattern) :
    List (List Char) → Except ReadError (List Pattern)
  | [] => .ok []
  | cs :: rest =>
    match read cs with
    | .error e => .error e
    | .ok p =>
      match readItems read rest with
      | .ok ps => .ok (p :: ps)
      | .error e => .error e

/-- Reads a pattern whose text is shorter than `depth`; what stands in parentheses is shorter than
the whole. -/
def readWithin : (depth : Nat) → List Char → Except ReadError Pattern
  | 0, _ => .error { message := "malformed pattern" }
  | depth + 1, text =>
    let trimmed := Text.trimBlank text
    if trimmed = ['_'] then .ok .any
    else
      match Literal.read? trimmed with
      | .error e => .error e
      | .ok (some l) => .ok (.value l)
      | .ok none =>
        match Text.enclosed? trimmed with
        | .error e => .error e
        | .ok none =>
          .error (ReadError.within { message := "malformed pattern" } (String.ofList trimmed))
        | .ok (some inner) =>
          match Text.splitTop Text.isComma inner with
          | .error e => .error e
          | .ok [_] => readWithin depth inner
          | .ok items =>
            match readItems (readWithin depth) items with
            | .ok ps => .ok (.tuple ps)
            | .error e => .error (e.within (String.ofList text))

/-- Reads pattern text. -/
def read (text : String) : Except ReadError Pattern :=
  readWithin (text.length + 1) text.toList

end Pattern

end Dataflow
