import Dataflow.Decimal.Reader
import Dataflow.Literal.Basic
import Dataflow.ReadError
import Dataflow.Text.Blank
import Dataflow.Text.Split

/-!
# Reading literals

```text
literal := digits | digits "." digits | "'" char "'" | '"' chars '"' | True | False | "()"
         | "-" number | "(" "-" number ")"
```

A text that is no literal is not a fault; one that has the quotes of a literal and the wrong inside
is.
-/

namespace Dataflow.Literal

/-- An integer that fits 64 bits. -/
def int? (n : Int) : Option Literal :=
  if -0x8000000000000000 ≤ n && n < 0x8000000000000000 then some (.int (Int64.ofInt n)) else none

/-- Digits with a point among them. -/
def point? (cs : List Char) : Option Float :=
  match Text.splitOnce ['.'] cs with
  | some (whole, fraction) =>
    match Decimal.natural? whole, Decimal.natural? fraction with
    | some _, some _ =>
      some (Decimal.nearest (Decimal.naturalOf (whole ++ fraction)) (-(fraction.length : Int)))
    | _, _ => none
  | none => none

/-- A number, with a minus in front or without. -/
def number? (cs : List Char) : Option Literal :=
  let (minus, ds) :=
    match cs with
    | '-' :: ds => (true, ds)
    | ds => (false, ds)
  match Decimal.natural? ds with
  | some n => int? (if minus then -(n : Int) else n)
  | none => (point? ds).map fun x => .float (if minus then -x else x)

/-- A number below zero in parentheses. -/
def negative? (cs : List Char) : Option Literal :=
  match Text.unwrap? '(' ')' cs with
  | some inner => (number? (Text.trimBlank inner)).filter isNegative
  | none => none

/-- The characters that the inside of a literal stands for. -/
def unescape : List Char → Except ReadError (List Char)
  | [] => .ok []
  | '\\' :: [] => .error { message := "dangling escape" }
  | '\\' :: c :: cs =>
    let plain : Option Char :=
      match c with
      | 'n' => some '\n'
      | 't' => some '\t'
      | 'r' => some '\r'
      | '0' => some '\x00'
      | '\\' => some '\\'
      | '\'' => some '\''
      | '"' => some '"'
      | _ => none
    match plain with
    | some c =>
      match unescape cs with
      | .ok rest => .ok (c :: rest)
      | .error e => .error e
    | none => .error { message := "unknown escape", found := some ("\\" ++ String.singleton c) }
  | c :: cs =>
    match unescape cs with
    | .ok rest => .ok (c :: rest)
    | .error e => .error e

/-- The inside of a quoted text. -/
def quoted? (quote : Char) (cs : List Char) : Option (Except ReadError (List Char)) :=
  (Text.unwrap? quote quote cs).map fun body =>
    match unescape body with
    | .ok inside => .ok inside
    | .error e => .error (e.within (String.ofList cs))

/-- A literal, if the text is one. -/
def read? (cs : List Char) : Except ReadError (Option Literal) :=
  match String.ofList cs with
  | "()" => .ok (some .unit)
  | "True" => .ok (some (.bool true))
  | "False" => .ok (some (.bool false))
  | whole =>
    match (number? cs).or (negative? cs) with
    | some number => .ok (some number)
    | none =>
      match quoted? '\'' cs, quoted? '"' cs with
      | some (.error e), _ => .error e
      | some (.ok [c]), _ => .ok (some (.char c))
      | some (.ok _), _ =>
        .error (ReadError.within { message := "character literal must hold one character" } whole)
      | none, some (.error e) => .error e
      | none, some (.ok inside) => .ok (some (.text (String.ofList inside)))
      | none, none => .ok none

end Dataflow.Literal
