import Dataflow.ReadError

/-!
# Grammar rules over tokens

A rule reads from the front of a list of tokens and says what it read, or why it could not,
together with the tokens left. A rule that fails leaves the tokens where it stopped; `attempt`
puts them back, and so do `orElse`, `many` and `optional`, which are built from it.
-/

namespace Dataflow

abbrev Rule (α : Type) := List Lexeme → Except ReadError α × List Lexeme

namespace Rule

variable {α β : Type}

/-- Fails without reading. -/
def fail (e : ReadError) : Rule α := fun ts => (.error e, ts)

/-- Reads one token that `accept` takes. -/
def token (expected : String) (accept : Token → Option α) : Rule α
  | [] => (.error { message := "unexpected end of input", expected := [expected] }, [])
  | t :: ts =>
    match accept t.token with
    | some a => (.ok a, ts)
    | none =>
      (.error
        { message := "unexpected token"
          expected := [expected]
          found := some t.token.describe
          span := some t.span }, t :: ts)

/-- Reads one given mark. -/
def mark (what : Token) : Rule Token :=
  token what.describe fun t => if t = what then some t else none

/-- Reads a name. -/
def ident : Rule String :=
  token "identifier" fun
    | .ident name => some name
    | _ => none

/-- What `rule` reads, passed through `f`, which may refuse it. -/
def check (rule : Rule α) (f : α → Except ReadError β) : Rule β := fun ts =>
  match rule ts with
  | (.ok a, rest) => (f a, rest)
  | (.error e, rest) => (.error e, rest)

/-- What `rule` reads, passed through `f`. -/
def map (rule : Rule α) (f : α → β) : Rule β :=
  check rule fun a => .ok (f a)

/-- Reports failures of `rule` as "expected `name`". -/
def label (rule : Rule α) (name : String) : Rule α := fun ts =>
  match rule ts with
  | (.ok a, rest) => (.ok a, rest)
  | (.error e, rest) => (.error (e.expecting name), rest)

/-- One rule, then the other. -/
def both (a : Rule α) (b : Rule β) : Rule (α × β) := fun ts =>
  match a ts with
  | (.ok x, rest) => map b (fun y => (x, y)) rest
  | (.error e, rest) => (.error e, rest)

/-- One rule, then the other; keeps the first. -/
def left (a : Rule α) (b : Rule β) : Rule α :=
  map (both a b) Prod.fst

/-- One rule, then the other; keeps the second. -/
def right (a : Rule α) (b : Rule β) : Rule β :=
  map (both a b) Prod.snd

/-- Puts the tokens back if `rule` fails. -/
def attempt (rule : Rule α) : Rule α := fun ts =>
  match rule ts with
  | (.ok a, rest) => (.ok a, rest)
  | (.error e, _) => (.error e, ts)

/-- The first rule, or the second from the same place. -/
def orElse (a b : Rule α) : Rule α := fun ts =>
  match a ts with
  | (.ok x, rest) => (.ok x, rest)
  | (.error _, _) => b ts

/-- What `rule` reads, or nothing. -/
def optional (rule : Rule α) : Rule (Option α) := fun ts =>
  match rule ts with
  | (.ok a, rest) => (.ok (some a), rest)
  | (.error _, _) => (.ok none, ts)

/-- At most `n` items, up to the first failure. -/
def atMost (item : Rule α) : Nat → List Lexeme → List α × List Lexeme
  | 0, ts => ([], ts)
  | n + 1, ts =>
    match item ts with
    | (.error _, _) => ([], ts)
    | (.ok a, rest) =>
      let (as, rest) := atMost item n rest
      (a :: as, rest)

/-- Items up to the first failure. An item reads at least one token, so there are at most as many
items as tokens. -/
def many (item : Rule α) : Rule (List α) := fun ts =>
  let (as, rest) := atMost item ts.length ts
  (.ok as, rest)

/-- One item or more, with `separator` between them. -/
def sepBy1 (item : Rule α) (separator : Rule β) : Rule (List α) :=
  map (both item (many (right separator item))) fun (a, as) => a :: as

end Rule

end Dataflow
