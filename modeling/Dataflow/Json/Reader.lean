import Dataflow.Json.Basic
import Dataflow.Text.Split

/-!
# Reading JSON

```text
value  := "null" | "true" | "false" | number | string
        | "[" (value ("," value)*)? "]" | "{" (string ":" value ("," string ":" value)*)? "}"
number := "-"? ("0" | digit1 digit*) ("." digit+)? (("e" | "E") ("+" | "-")? digit+)?
```

White space is blank, tabulator and the two line ends. Control characters in strings and anything
behind the value are refused.
-/

namespace Dataflow.Json

def isGap (c : Char) : Bool := c = ' ' || c = '\n' || c = '\t' || c = '\r'

def skipGap (cs : List Char) : List Char := cs.dropWhile isGap

/-- Digits, at least one. -/
def digits? (cs : List Char) : Option (List Char × List Char) :=
  let ds := cs.takeWhile Decimal.isDigit
  if ds.isEmpty then none else some (ds, cs.dropWhile Decimal.isDigit)

/-- The whole part of a number: a single zero, or digits that do not begin with one. -/
def whole? (cs : List Char) : Option (List Char × List Char) :=
  match digits? cs with
  | some ('0' :: _ :: _, _) => none
  | result => result

/-- The part behind a point, with the point; may be missing. -/
def fraction? : List Char → Option (List Char × List Char)
  | '.' :: cs => (digits? cs).map fun (ds, rest) => ('.' :: ds, rest)
  | cs => some ([], cs)

/-- The exponent with its mark; may be missing. -/
def exponent? : List Char → Option (List Char × List Char)
  | [] => some ([], [])
  | c :: cs =>
    if c = 'e' || c = 'E' then
      match cs with
      | '+' :: cs => (digits? cs).map fun (ds, rest) => (c :: '+' :: ds, rest)
      | '-' :: cs => (digits? cs).map fun (ds, rest) => (c :: '-' :: ds, rest)
      | cs => (digits? cs).map fun (ds, rest) => (c :: ds, rest)
    else some ([], c :: cs)

/-- A number without its sign. -/
def unsigned? (cs : List Char) : Option (List Char × List Char) := do
  let (whole, cs) ← whole? cs
  let (fraction, cs) ← fraction? cs
  let (exponent, cs) ← exponent? cs
  pure (whole ++ fraction ++ exponent, cs)

/-- The value of a digit in base sixteen. -/
def hexDigit? (c : Char) : Option Nat :=
  if '0' ≤ c ∧ c ≤ '9' then some (c.toNat - 48)
  else if 'a' ≤ c ∧ c ≤ 'f' then some (c.toNat - 87)
  else if 'A' ≤ c ∧ c ≤ 'F' then some (c.toNat - 55)
  else none

/-- The character that a letter behind a backslash stands for. -/
def escaped? (c : Char) : Option Nat :=
  match c with
  | '"' => some 34
  | '\\' => some 92
  | '/' => some 47
  | 'b' => some 8
  | 'f' => some 12
  | 'n' => some 10
  | 'r' => some 13
  | 't' => some 9
  | _ => none

/-- The inside of a string up to its closing quote: code points and units as written. -/
def stringBody? : List Char → Option (List Nat × List Char)
  | [] => none
  | '"' :: rest => some ([], rest)
  | '\\' :: 'u' :: a :: b :: c :: d :: rest =>
    match hexDigit? a, hexDigit? b, hexDigit? c, hexDigit? d with
    | some a, some b, some c, some d =>
      (stringBody? rest).map fun (ns, rest) => ((((a * 16 + b) * 16 + c) * 16 + d) :: ns, rest)
    | _, _, _, _ => none
  | '\\' :: c :: rest =>
    match escaped? c with
    | some n => (stringBody? rest).map fun (ns, rest) => (n :: ns, rest)
    | none => none
  | c :: rest =>
    if c.toNat < 32 then none
    else (stringBody? rest).map fun (ns, rest) => (c.toNat :: ns, rest)

/-- Puts surrogate pairs together. -/
def pairUp : List Nat → List Nat
  | [] => []
  | [n] => [n]
  | hi :: lo :: rest =>
    if 0xd800 ≤ hi && hi < 0xdc00 && 0xdc00 ≤ lo && lo < 0xe000 then
      (0x10000 + (hi - 0xd800) * 1024 + (lo - 0xdc00)) :: pairUp rest
    else hi :: pairUp (lo :: rest)

/-- A string behind its opening quote. -/
def string? (cs : List Char) : Option (List Nat × List Char) :=
  (stringBody? cs).map fun (ns, rest) => (pairUp ns, rest)

mutual

/-- A value. Every level of nesting and every item takes a character, so `fuel` need not exceed the
number of characters. -/
def value? : (fuel : Nat) → List Char → Option (Json × List Char)
  | 0, _ => none
  | fuel + 1, cs =>
    match skipGap cs with
    | '"' :: rest => (string? rest).map fun (points, rest) => (.str points, rest)
    | '-' :: rest => (unsigned? rest).map fun (ds, rest) => (.num ('-' :: ds), rest)
    | '[' :: rest =>
      match skipGap rest with
      | ']' :: rest => some (.arr [], rest)
      | rest => (items? fuel rest).map fun (items, rest) => (.arr items, rest)
    | '\x7b' :: rest =>
      match skipGap rest with
      | '\x7d' :: rest => some (.obj [], rest)
      | rest => (fields? fuel rest).map fun (fields, rest) => (.obj fields, rest)
    | 'n' :: 'u' :: 'l' :: 'l' :: rest => some (.null, rest)
    | 't' :: 'r' :: 'u' :: 'e' :: rest => some (.bool true, rest)
    | 'f' :: 'a' :: 'l' :: 's' :: 'e' :: rest => some (.bool false, rest)
    | rest => (unsigned? rest).map fun (ds, rest) => (.num ds, rest)

/-- The items of a list, at least one, up to the closing bracket. -/
def items? : (fuel : Nat) → List Char → Option (List Json × List Char)
  | 0, _ => none
  | fuel + 1, cs =>
    match value? fuel cs with
    | none => none
    | some (item, rest) =>
      match skipGap rest with
      | ',' :: rest => (items? fuel rest).map fun (items, rest) => (item :: items, rest)
      | ']' :: rest => some ([item], rest)
      | _ => none

/-- The fields of an object, at least one, up to the closing brace. -/
def fields? : (fuel : Nat) → List Char → Option (List (List Nat × Json) × List Char)
  | 0, _ => none
  | fuel + 1, cs =>
    match skipGap cs with
    | '"' :: rest =>
      match string? rest with
      | none => none
      | some (key, rest) =>
        match skipGap rest with
        | ':' :: rest =>
          match value? fuel rest with
          | none => none
          | some (v, rest) =>
            match skipGap rest with
            | ',' :: rest => (fields? fuel rest).map fun (fields, rest) => ((key, v) :: fields, rest)
            | '\x7d' :: rest => some ([(key, v)], rest)
            | _ => none
        | _ => none
    | _ => none

end

/-- Reads a text that holds one value. -/
def read? (text : String) : Option Json :=
  match value? (2 * text.length + 2) text.toList with
  | some (v, rest) => if (skipGap rest).isEmpty then some v else none
  | none => none

end Dataflow.Json
