import Dataflow.Rule
import Dataflow.Ty.Basic
import Dataflow.Text.Blank
import Dataflow.Text.Quoted
import Dataflow.Text.Split

/-!
# Type text

```text
signature   := (application "=>")? function
function    := application ("->" function)?
application := atom atom*
atom        := name | "(" ")" | "(" function ("," function)* ")" | "[" function "]"
```

Reading gives a `TyExpr`, whose names are still text. `resolve` gives the names a meaning, and
`structural` does so by their shape alone.
-/

namespace Dataflow

/-- A type as written. -/
inductive TyExpr where
  | con (name : String) (args : List TyExpr)
  | unit
  | tuple (items : List TyExpr)
  | list (item : TyExpr)
  | func (arg result : TyExpr)
deriving Repr, Inhabited

namespace TyExpr

mutual

/-- Gives every constructor the meaning `con` gives to its name and its arguments, which are
resolved first, from left to right. -/
def resolve {m : Type → Type} [Monad m] (con : String → List Ty → m Ty) : TyExpr → m Ty
  | .con name args => do
    let args ← resolveList con args
    con name args
  | .unit => pure .unit
  | .tuple items => do
    let items ← resolveList con items
    pure (Ty.ofComponents items)
  | .list item => do
    let item ← resolve con item
    pure (.con "List" [item])
  | .func arg result => do
    let arg ← resolve con arg
    let result ← resolve con result
    pure (.func arg result)

def resolveList {m : Type → Type} [Monad m] (con : String → List Ty → m Ty) :
    List TyExpr → m (List Ty)
  | [] => pure []
  | e :: es => do
    let t ← resolve con e
    let ts ← resolveList con es
    pure (t :: ts)

end

/-- Whether a name begins with a lower-case letter. Names in type text are ASCII. -/
def startsLower (name : String) : Bool :=
  match name.toList with
  | c :: _ => c.isLower
  | [] => false

/-- Whether a name begins with an underscore. -/
def startsUnderscore (name : String) : Bool :=
  match name.toList with
  | c :: _ => c = '_'
  | [] => false

/-- The meaning of a name by its shape: the atoms by their names, other names that begin in lower
case or with an underscore are variables, and the rest are constructors. -/
def shape (name : String) (args : List Ty) : Ty :=
  match name, args with
  | "Int", [] | "Integer", [] => .int
  | "Char", [] => .char
  | "Bool", [] => .bool
  | "Float", [] | "Double", [] => .float
  | _, _ => if startsLower name || startsUnderscore name then .var name else .con name args

/-- The type meant when names go by their shape. -/
def structural (e : TyExpr) : Ty :=
  Id.run (e.resolve fun name args => pure (shape name args))

mutual

/-- The tree spelled out, for messages. -/
def describe : TyExpr → String
  | .con name args =>
    "Con \x7b name: " ++ Text.quotedString name ++ ", args: [" ++ ", ".intercalate (describeList args)
      ++ "] \x7d"
  | .unit => "Unit"
  | .tuple items => "Tuple([" ++ ", ".intercalate (describeList items) ++ "])"
  | .list item => "List(" ++ describe item ++ ")"
  | .func arg result => "Func(" ++ describe arg ++ ", " ++ describe result ++ ")"

def describeList : List TyExpr → List String
  | [] => []
  | e :: es => describe e :: describeList es

end

/-- A head applied to arguments. Only a bare name can take any. -/
def apply : TyExpr × List TyExpr → Except ReadError TyExpr
  | (head, []) => .ok head
  | (.con name [], args) => .ok (.con name args)
  | (head, _) =>
    .error { message := "cannot apply a non-constructor type", found := some head.describe }

/-- The parts of a group in parentheses; a single part is itself. -/
def group : List TyExpr → TyExpr
  | [e] => e
  | es => .tuple es

/-- A name, `()`, a group or a list; `function` reads what stands inside brackets. -/
def atom (function : Rule TyExpr) : Rule TyExpr :=
  let name := Rule.map .ident fun x => .con x []
  let unit := Rule.map (.both (.mark .lparen) (.mark .rparen)) fun _ => .unit
  let parens :=
    Rule.map (.left (.right (.mark .lparen) (.sepBy1 function (.mark .comma))) (.mark .rparen)) group
  let list := Rule.map (.left (.right (.mark .lbracket) function) (.mark .rbracket)) .list
  .orElse (.orElse (.orElse name unit) parens) list

/-- An atom and the atoms it is applied to. -/
def application (function : Rule TyExpr) : Rule TyExpr :=
  .check (.both (.label (atom function) "type") (.many (atom function))) apply

/-- A type with arrows. Every level of nesting and every arrow takes a token, so `depth` need not
exceed the number of tokens. -/
def function : (depth : Nat) → Rule TyExpr
  | 0 => .fail { message := "unexpected end of input" }
  | depth + 1 =>
    Rule.map
      (.both (application (function depth))
        (.optional (.right (.mark .arrow) (function depth))))
      fun
        | (arg, some result) => .func arg result
        | (arg, none) => arg

/-- A type behind an optional class context, which is read and dropped. -/
def signature (depth : Nat) : Rule TyExpr :=
  .right (.optional (.left (application (function depth)) (.mark .fatArrow))) (function depth)

/-- Reads a whole list of tokens. -/
def ofTokens (ts : List Lexeme) : Except ReadError TyExpr :=
  match signature (ts.length + 1) ts with
  | (.error e, _) => .error e
  | (.ok e, []) => .ok e
  | (.ok _, t :: _) =>
    .error
      { message := "trailing input"
        found := some t.token.describe
        span := some t.span }

/-- Reads type text. -/
def read (text : String) : Except ReadError TyExpr :=
  match Token.scan text with
  | .error e => .error ({ message := e.message : ReadError }.within text)
  | .ok ts =>
    match ofTokens ts with
    | .ok e => .ok e
    | .error e => .error (e.within text)

/-- Reads a declaration `name :: type`. The name is taken as it stands, without the one pair of
parentheses that operators are written in. -/
def readDeclaration (text : String) : Except ReadError (String × TyExpr) :=
  match Text.splitOnce [':', ':'] text.toList with
  | none => .error ({ message := "missing '::'" : ReadError }.within text)
  | some (name, signature) =>
    let name := Text.trimBlank name
    let name := (Text.unwrap? '(' ')' name).getD name
    if name.isEmpty then .error ({ message := "missing declared name" : ReadError }.within text)
    else
      match read (String.ofList (Text.trimBlank signature)) with
      | .ok e => .ok (String.ofList name, e)
      | .error e => .error e

end TyExpr

end Dataflow
