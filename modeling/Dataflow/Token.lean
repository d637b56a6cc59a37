/-!
# Tokens of type text

The words and marks of signatures such as `Num a => a -> (Int, [Char])`. `Token.scan` cuts a text
into tokens, each with the place where it stands. Type text is ASCII: a character outside the
alphabet is a fault, so columns and offsets count characters and octets alike.
-/

namespace Dataflow

inductive Token where
  | ident (name : String)
  | arrow
  | fatArrow
  | comma
  | lparen
  | rparen
  | lbracket
  | rbracket
deriving DecidableEq, Repr

/-- How a token is named in messages. -/
def Token.describe : Token → String
  | .ident name => s!"identifier '{name}'"
  | .arrow => "'->'"
  | .fatArrow => "'=>'"
  | .comma => "','"
  | .lparen => "'('"
  | .rparen => "')'"
  | .lbracket => "'['"
  | .rbracket => "']'"

/-- A stretch of one line; lines and columns count from zero. -/
structure Span where
  line : Nat
  col : Nat
  endLine : Nat
  endCol : Nat
deriving DecidableEq, Repr

/-- A token and where it stands. -/
structure Lexeme where
  token : Token
  span : Span
deriving DecidableEq, Repr

/-- Where the scanner stands. -/
structure Place where
  line : Nat
  col : Nat
  offset : Nat
deriving DecidableEq, Repr

def Place.origin : Place := ⟨0, 0, 0⟩

/-- The place `n` characters further on the same line. -/
def Place.advance (p : Place) (n : Nat) : Place :=
  ⟨p.line, p.col + n, p.offset + n⟩

/-- The place behind one character of white space. -/
def Place.pastBlank (p : Place) (c : Char) : Place :=
  if c = '\n' then ⟨p.line + 1, 0, p.offset + 1⟩ else p.advance 1

/-- The next `n` characters. -/
def Place.span (p : Place) (n : Nat) : Span :=
  ⟨p.line, p.col, p.line, p.col + n⟩

/-- The text could not be cut into tokens from `offset` on. -/
structure LexError where
  text : String
  offset : Nat
  rest : String
deriving DecidableEq, Repr

def LexError.message (e : LexError) : String :=
  s!"Failed to lex '{e.text}' at position {e.offset}; remaining '{e.rest}'"

namespace Token

/-- White space between tokens. -/
def isGap (c : Char) : Bool :=
  c = ' ' || c = '\t' || c = '\n' || c = '\x0c' || c = '\r'

/-- May begin a name. -/
def startsName (c : Char) : Bool :=
  c.isAlpha || c = '_'

/-- May stand inside a name. -/
def inName (c : Char) : Bool :=
  c.isAlphanum || c = '_' || c = '\''

/-- The longest token at the start of the text, with its length. -/
def first? : List Char → Option (Token × Nat)
  | '-' :: '>' :: _ => some (.arrow, 2)
  | '=' :: '>' :: _ => some (.fatArrow, 2)
  | ',' :: _ => some (.comma, 1)
  | '(' :: _ => some (.lparen, 1)
  | ')' :: _ => some (.rparen, 1)
  | '[' :: _ => some (.lbracket, 1)
  | ']' :: _ => some (.rbracket, 1)
  | c :: cs =>
    if startsName c then
      let name := c :: cs.takeWhile inName
      some (.ident (String.ofList name), name.length)
    else none
  | [] => none

/-- Scans from a place; the first `skip` characters belong to a token already read. -/
def scanFrom (text : String) : (place : Place) → (skip : Nat) → List Char → Except LexError (List Lexeme)
  | _, _, [] => .ok []
  | place, skip + 1, _ :: cs => scanFrom text place skip cs
  | place, 0, c :: cs =>
    if isGap c then scanFrom text (place.pastBlank c) 0 cs
    else
      match first? (c :: cs) with
      | none => .error ⟨text, place.offset, String.ofList (c :: cs)⟩
      | some (token, n) =>
        match scanFrom text (place.advance n) (n - 1) cs with
        | .ok rest => .ok (⟨token, place.span n⟩ :: rest)
        | .error e => .error e

/-- The tokens of a text. -/
def scan (text : String) : Except LexError (List Lexeme) :=
  scanFrom text .origin 0 text.toList

end Token

end Dataflow
