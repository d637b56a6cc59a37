import Dataflow.Pattern
import Dataflow.TypingError

/-!
# Morphism text

```text
morphism := "!" "(" morphism ("," morphism)* ")"   tuple
          | "$"                                    identity
          | literal
          | "(" morphism ")"
          | term term*                             application
```

Terms are divided by white space outside brackets and quotes. The head of an application is
applied to the other terms from left to right, and a bare `$` among them leaves its parameter open.
A binary operator stands between, before or after its operands: `a + b`, `+ 1`, `2 *`.

Reading comes in two steps. `Term.read` sees only the text; what is wrong with a part of it becomes
a fault in the place of that part. `Term.elaborate` gives names their symbols and builds the
morphism, so that the fault reported is the first one met from left to right, of either kind.
-/

namespace Dataflow

/-- Morphism text, taken apart. -/
inductive Term where
  /-- A part that cannot be read. -/
  | fault (e : ReadError)
  | identity
  | literal (l : Literal)
  | symbol (name : String)
  | tuple (text : String) (parts : List Term)
  /-- An application: its text, the head as written, the head, every position with the text that
  stands there, and the arguments that are not left open. -/
  | apply (text op : String) (head : Term) (given : List (Nat × String)) (args : List (Nat × Term))
deriving Repr, Inhabited

namespace Term

/-- A fault of the text as a whole. -/
def faultIn (whole : String) (e : ReadError) : Term :=
  .fault (e.within whole)

/-- A name that can be looked up: letters, digits and a few marks, not beginning with a digit, or an
operator. -/
def isName (cs : List Char) : Bool :=
  (cs.all (fun c => Text.isAlphanumeric c || c = '_' || c = '\'' || c = '.') &&
      !cs.head?.any Decimal.isDigit) ||
    isOperatorName (String.ofList cs)

/-- A term that is a name. -/
def ofName (whole : String) (cs : List Char) : Term :=
  let name := String.ofList cs
  if isName cs then .symbol name
  else faultIn whole { message := "unexpected term", found := some name }

/-- A term of operator characters that is not the hole. -/
def isInfix (cs : List Char) : Bool :=
  cs ≠ ['$'] && isOperatorName (String.ofList cs)

/-- The head of an application and the position of every other term. -/
def arrange (head : List Char) (args : List (List Char)) : List Char × List (Nat × List Char) :=
  match args with
  | [arg] =>
    if isInfix head then (head, [(1, arg)])
    else if isInfix arg then (arg, [(0, head)])
    else (head, [(0, arg)])
  | [op, right] =>
    if isInfix op then (op, [(0, head), (1, right)]) else (head, [(0, op), (1, right)])
  | args => (head, args.zipIdx.map fun (arg, i) => (i, arg))

/-- An application of two terms or more; `read` reads its parts. -/
def ofApplication (read : List Char → Term) (whole : String) (text head : List Char)
    (args : List (List Char)) : Term :=
  let (op, given) := arrange head args
  if op = ['$'] then faultIn whole { message := "application of a hole" }
  else
    .apply (String.ofList text) (String.ofList op) (read op)
      (given.map fun (i, arg) => (i, String.ofList arg))
      ((given.filter fun (_, arg) => arg ≠ ['$']).map fun (i, arg) => (i, read arg))

/-- The terms of a text that is no tuple, hole or literal. -/
def ofTerms (read : List Char → Term) (whole : String) (text : List Char) : Term :=
  match Text.splitTop Text.isBlank text with
  | .error e => .fault e
  | .ok parts =>
    match parts.filter fun part => !part.isEmpty with
    | [] => faultIn whole { message := "empty morphism" }
    | [term] =>
      match Text.enclosed? term with
      | .error e => .fault e
      | .ok (some inner) => read inner
      | .ok none => ofName whole term
    | head :: args => ofApplication read whole text head args

/-- The parts of a tuple; `rest` is what follows the mark. -/
def ofTuple (read : List Char → Term) (text rest : List Char) : Term :=
  match Text.enclosed? (Text.trimBlank rest) with
  | .error e => .fault e
  | .ok none => faultIn (String.ofList text) { message := "expected '(' after '!'" }
  | .ok (some inner) =>
    match Text.splitTop Text.isComma inner with
    | .error e => .fault e
    | .ok parts => .tuple (String.ofList text) (parts.map read)

/-- Reads a text shorter than `depth`; the parts of a text are shorter than it. -/
def readWithin (whole : String) : (depth : Nat) → List Char → Term
  | 0, _ => faultIn whole { message := "empty morphism" }
  | depth + 1, text =>
    let text := Text.trimBlank text
    match text with
    | [] => faultIn whole { message := "empty morphism" }
    | ['$'] => .identity
    | '!' :: rest => ofTuple (readWithin whole depth) text rest
    | '$' :: _ =>
      faultIn whole
        { message := "positional slot inside an expression", found := some (String.ofList text) }
    | _ =>
      match Literal.read? text with
      | .error e => .fault e
      | .ok (some l) => .literal l
      | .ok none => ofTerms (readWithin whole depth) whole text

/-- Reads a text as part of `whole`, which faults of the whole name. -/
def read (whole : String) (text : List Char) : Term :=
  readWithin whole (text.length + 1) text

variable {m : Type → Type} [Monad m]

/-- The morphism of a name. -/
def lookup (find : Resolver m) (whole name : String) : ExceptT TypingError m Morphism := do
  match ← find name with
  | none => throw (.unresolvedSymbol name whole)
  | some ⟨.function, ty⟩ => pure (.ofFunction name ty)
  | some ⟨.value, ty⟩ => pure (.ofValue name ty)
  | some ⟨.type, _⟩ => throw (.wrongKind name .type)

/-- Refuses an argument beyond the parameters of the head. -/
def surplus? (whole op : String) (arity : Nat) (given : List (Nat × String)) : Option ReadError :=
  (given.find? fun g => arity ≤ g.1).map fun (_, text) =>
    ReadError.within
      { message :=
          "`" ++ op ++ "` takes " ++ toString arity ++ " argument" ++ (if arity = 1 then "" else "s")
        found := some text }
      whole

/-- Names the text in which building a morphism failed. -/
def building (text : String) (built : Except BindError Morphism) :
    ExceptT TypingError m Morphism :=
  match built with
  | .ok f => pure f
  | .error e => throw (.morphism text e)

mutual

/-- Builds the morphism that a term means. -/
def elaborate (find : Resolver m) (whole : String) : Term → ExceptT TypingError m Morphism
  | .fault e => throw (.read e)
  | .identity => pure (.slot none)
  | .literal l => pure (.literal l)
  | .symbol name => lookup find whole name
  | .tuple text parts => do
    let parts ← elaborateList find whole parts
    building text (Morphism.ofParts parts)
  | .apply text op head given args => do
    let head ← elaborate find whole head
    match surplus? whole op head.arity given with
    | some e => throw (.read e)
    | none =>
      let args ← elaborateArgs find whole args
      if args.isEmpty then pure head else building text (head.bind args)

def elaborateList (find : Resolver m) (whole : String) :
    List Term → ExceptT TypingError m (List Morphism)
  | [] => pure []
  | t :: ts => do
    let f ← elaborate find whole t
    let fs ← elaborateList find whole ts
    pure (f :: fs)

def elaborateArgs (find : Resolver m) (whole : String) :
    List (Nat × Term) → ExceptT TypingError m (List (Nat × Morphism))
  | [] => pure []
  | (i, t) :: rest => do
    let f ← elaborate find whole t
    let fs ← elaborateArgs find whole rest
    pure ((i, f) :: fs)

end

end Term

/-- The slot that `$n` names: digits behind an optional plus, at most the greatest 64-bit number. -/
def slotIndex? (cs : List Char) : Option Nat :=
  let ds :=
    match cs with
    | '+' :: ds => ds
    | ds => ds
  (Decimal.natural? ds).filter fun n => n < 0x10000000000000000

variable {m : Type → Type} [Monad m]

/-- Reads the text of an arrow. Only as a whole text is `$n` a positional slot. -/
def Morphism.read (find : Resolver m) (text : String) : ExceptT TypingError m Morphism :=
  let trimmed := Text.trimBlank text.toList
  match trimmed with
  | '$' :: d :: ds =>
    match slotIndex? (d :: ds) with
    | some n => pure (.slot (some n))
    | none =>
      throw (.read (ReadError.within
        { message := "malformed positional slot", found := some (String.ofList trimmed) } text))
  | _ => (Term.read text trimmed).elaborate find text

/-- Decides when an output pin is taken. -/
inductive Brancher where
  | any
  | pattern (p : Pattern)
  /-- Taken when the morphism gives `True` for the node's value. -/
  | guard (test : Morphism)
deriving Repr, Inhabited

namespace Brancher

/-- Taken for every value. -/
def isIrrefutable : Brancher → Bool
  | .any => true
  | .pattern p => p.isIrrefutable
  | .guard _ => false

/-- The brancher as text. -/
def render : Brancher → String
  | .any => "_"
  | .pattern p => p.render
  | .guard test => "?" ++ test.render

/-- Reads the text of an output pin: nothing or `_`, `?` and a test, or a pattern. -/
def read (find : Resolver m) (text : String) : ExceptT TypingError m Brancher :=
  let trimmed := Text.trimBlank text.toList
  match trimmed with
  | [] | ['_'] => pure .any
  | '?' :: rest => do
    let test ← (Term.read text (Text.trimBlank rest)).elaborate find text
    match test.target.matching .bool with
    | .ok _ => pure (.guard test)
    | .error _ => throw (.guardNotBoolean text test.target)
  | _ =>
    match Pattern.read (String.ofList trimmed) with
    | .ok p => pure (.pattern p)
    | .error e => throw (.read e)

end Brancher

end Dataflow
