/-!
# Words of a shell command

A command text is cut into words and operators. A word is a list of pieces: text, the value of a
variable, or the output of a command; each piece knows whether it stood in quotes, because only what
stood outside is split into fields later.
-/

namespace Dataflow.Shell

inductive Piece where
  | text (s : String) (quoted : Bool)
  | parameter (name : String) (fallback : Option String) (quoted : Bool)
  | output (script : String) (quoted : Bool)
deriving DecidableEq, Repr

abbrev Word := List Piece

inductive Token where
  | word (w : Word)
  | operator (s : String)
  /-- A redirection sign with the number of the stream it is for. -/
  | redirect (stream : Option Nat) (sign : String)
deriving DecidableEq, Repr

/-- Why a command text is no command. -/
inductive Fault where
  | unclosedQuote
  | unclosedSubstitution
  | badSubstitution
  | unexpected (sign : String)
  | unexpectedEnd
deriving DecidableEq, Repr

def Fault.message : Fault → String
  | .unclosedQuote => "Syntax error: Unterminated quoted string"
  | .unclosedSubstitution => "Syntax error: end of file unexpected (expecting \")\")"
  | .badSubstitution => "Bad substitution"
  | .unexpected sign => "Syntax error: \"" ++ sign ++ "\" unexpected"
  | .unexpectedEnd => "Syntax error: end of file unexpected"

/-- The sign that may stand around a command whose output is wanted. -/
def backquote : Char := Char.ofNat 96

def isNameStart (c : Char) : Bool := c.isAlpha || c == '_'

def isNameChar (c : Char) : Bool := c.isAlphanum || c == '_'

/-- Whether the text is the name of a variable. -/
def isName : List Char → Bool
  | [] => false
  | c :: cs => isNameStart c && cs.all isNameChar

/-- The variables that one sign names. -/
def isSpecial (c : Char) : Bool := "?$#@*!-0123456789".toList.contains c

/-- Cuts at the first sign outside of escapes that `stop` holds of; the sign itself is dropped. -/
def cutAt (stop : Char → Bool) : List Char → Option (List Char × List Char)
  | [] => none
  | '\\' :: c :: cs => (cutAt stop cs).map fun (a, b) => ('\\' :: c :: a, b)
  | c :: cs => if stop c then some ([], cs) else (cutAt stop cs).map fun (a, b) => (c :: a, b)

/-- Where a scan for a closing bracket stands. -/
inductive Within where
  | plain
  | single
  | double
deriving DecidableEq, Repr

/-- Cuts at the bracket that closes one opened before; brackets in quotes do not count. -/
def cutBracket : Within → Nat → List Char → Option (List Char × List Char)
  | _, _, [] => none
  | .single, n, c :: cs =>
    (cutBracket (if c == '\'' then .plain else .single) n cs).map fun (a, b) => (c :: a, b)
  | w, n, '\\' :: c :: cs => (cutBracket w n cs).map fun (a, b) => ('\\' :: c :: a, b)
  | .double, n, c :: cs =>
    (cutBracket (if c == '"' then .plain else .double) n cs).map fun (a, b) => (c :: a, b)
  | .plain, n, c :: cs =>
    if c == ')' && n == 0 then some ([], cs)
    else
      let n := if c == '(' then n + 1 else if c == ')' then n - 1 else n
      let w := if c == '\'' then .single else if c == '"' then .double else .plain
      (cutBracket w n cs).map fun (a, b) => (c :: a, b)

/-- What stands between braces after a dollar sign: a name, and what to use if it has no value. -/
def readBraces (quoted : Bool) (cs : List Char) : Option Piece :=
  let name := cs.takeWhile isNameChar
  let ok := isName name || name.length == 1 && name.all isSpecial
  match cs.dropWhile isNameChar with
  | [] =>
    if ok then some (.parameter (String.ofList name) none quoted)
    else
      match cs with
      | [c] => if isSpecial c then some (.parameter (String.singleton c) none quoted) else none
      | _ => none
  | ':' :: '-' :: rest =>
    if ok then some (.parameter (String.ofList name) (some (String.ofList rest)) quoted) else none
  | _ => none

/-- What a dollar sign starts. One that starts nothing stands for itself. -/
def readDollar (quoted : Bool) : List Char → Except Fault (Piece × List Char)
  | '(' :: cs =>
    match cutBracket .plain 0 cs with
    | some (script, rest) => .ok (.output (String.ofList script) quoted, rest)
    | none => .error .unclosedSubstitution
  | '\x7b' :: cs =>
    match cutAt (· == '\x7d') cs with
    | some (inner, rest) =>
      match readBraces quoted inner with
      | some p => .ok (p, rest)
      | none => .error .badSubstitution
    | none => .error .unclosedSubstitution
  | c :: cs =>
    if isNameStart c then
      .ok (.parameter (String.ofList (c :: cs.takeWhile isNameChar)) none quoted,
        cs.dropWhile isNameChar)
    else if isSpecial c then .ok (.parameter (String.singleton c) none quoted, cs)
    else .ok (.text "$" quoted, c :: cs)
  | [] => .ok (.text "$" quoted, [])

/-- Takes the escapes out of a command that stood between back quotes. -/
def unescapeBackquoted : List Char → List Char
  | [] => []
  | '\\' :: c :: cs =>
    if c == '\\' || c == '$' || c == backquote then c :: unescapeBackquoted cs
    else '\\' :: c :: unescapeBackquoted cs
  | c :: cs => c :: unescapeBackquoted cs

def readBackquoted (quoted : Bool) (cs : List Char) : Except Fault (Piece × List Char) :=
  match cutAt (· == backquote) cs with
  | some (script, rest) => .ok (.output (String.ofList (unescapeBackquoted script)) quoted, rest)
  | none => .error .unclosedQuote

/-- The pieces up to the closing double quote. -/
def readDouble : Nat → List Char → Except Fault (Word × List Char)
  | 0, _ | _, [] => .error .unclosedQuote
  | n + 1, c :: cs =>
    let more (p : Piece) (cs : List Char) : Except Fault (Word × List Char) := do
      let (w, rest) ← readDouble n cs
      return (p :: w, rest)
    if c == '"' then .ok ([], cs)
    else if c == '$' then do
      let (p, rest) ← readDollar true cs
      more p rest
    else if c == backquote then do
      let (p, rest) ← readBackquoted true cs
      more p rest
    else if c == '\\' then
      match cs with
      | '\n' :: cs => readDouble n cs
      | d :: cs =>
        if d == '$' || d == '"' || d == '\\' || d == backquote then
          more (.text (String.singleton d) true) cs
        else more (.text ("\\" ++ String.singleton d) true) cs
      | [] => .error .unclosedQuote
    else more (.text (String.singleton c) true) cs

/-- The signs that end a word. -/
def endsWord (c : Char) : Bool := " \t\n;&|()<>".toList.contains c

/-- The pieces of the word that starts here. -/
def readWord : Nat → List Char → Except Fault (Word × List Char)
  | 0, cs => .ok ([], cs)
  | _, [] => .ok ([], [])
  | n + 1, c :: cs =>
    let more (w : Word) (cs : List Char) : Except Fault (Word × List Char) := do
      let (v, rest) ← readWord n cs
      return (w ++ v, rest)
    if endsWord c then .ok ([], c :: cs)
    else if c == '\'' then
      let inner := cs.takeWhile (· != '\'')
      match cs.dropWhile (· != '\'') with
      | _ :: rest => more [.text (String.ofList inner) true] rest
      | [] => .error .unclosedQuote
    else if c == '"' then do
      let (w, rest) ← readDouble (cs.length + 1) cs
      more (.text "" true :: w) rest
    else if c == '$' then do
      let (p, rest) ← readDollar false cs
      more [p] rest
    else if c == backquote then do
      let (p, rest) ← readBackquoted false cs
      more [p] rest
    else if c == '\\' then
      match cs with
      | '\n' :: cs => more [] cs
      | d :: cs => more [.text (String.singleton d) true] cs
      | [] => more [.text "\\" true] []
    else more [.text (String.singleton c) false] cs

/-- The operators, the longer before those they begin with. -/
def operators : List String := ["&&", "||", ";;", ";", "&", "|", "(", ")", "\n"]

def redirections : List String := [">>", ">&", ">|", "<&", "<", ">"]

/-- The text of a word that is all plain text outside of quotes. -/
def Word.plain? : Word → Option String
  | [] => some ""
  | .text s false :: w => (Word.plain? w).map (s ++ ·)
  | _ => none

/-- The first of the given signs that the text starts with, and what follows it. -/
def sign? (signs : List String) (cs : List Char) : Option (String × List Char) :=
  signs.findSome? fun s =>
    if s.toList.isPrefixOf cs then some (s, cs.drop s.length) else none

/-- The tokens of a text. A comment runs from a number sign at the start of a word to the end of the
line. -/
def scan : Nat → List Char → Except Fault (List Token)
  | 0, _ | _, [] => .ok []
  | n + 1, c :: cs =>
    let digits := (c :: cs).takeWhile Char.isDigit
    let afterDigits := (c :: cs).dropWhile Char.isDigit
    if c == ' ' || c == '\t' then scan n cs
    else if c == '#' then scan n (cs.dropWhile (· != '\n'))
    else if c == '\\' && cs.head? == some '\n' then scan n cs.tail
    else
      match sign? redirections afterDigits with
      | some (s, rest) => do
        let stream := if digits.isEmpty then none else (String.ofList digits).toNat?
        let ts ← scan n rest
        return .redirect stream s :: ts
      | none =>
        match sign? operators (c :: cs) with
        | some (s, rest) => do
          let ts ← scan n rest
          return .operator s :: ts
        | none => do
          let (w, rest) ← readWord (cs.length + 2) (c :: cs)
          let ts ← scan n rest
          return .word w :: ts

def tokens (script : String) : Except Fault (List Token) :=
  scan (script.length + 1) script.toList

end Dataflow.Shell
