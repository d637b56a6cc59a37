import Dataflow.ReadError
import Dataflow.Text.Blank

/-!
# Brackets and quotes

Expressions are cut at separators that stand outside brackets and quotes. `pieces` first divides a
text into single characters and whole quoted literals. A double quote always opens a literal; a
single quote does so only at the start, after white space, after `(` or after a comma, since it may
also be part of a name.
-/

namespace Dataflow.Text

inductive Piece where
  | char (c : Char)
  /-- A literal: its quote, and the characters up to and without the closing quote. -/
  | quoted (quote : Char) (body : List Char)
deriving DecidableEq, Repr

/-- The characters of a piece. -/
def Piece.chars : Piece → List Char
  | .char c => [c]
  | .quoted quote body => quote :: body ++ [quote]

/-- The characters of several pieces. -/
def pieceChars (ps : List Piece) : List Char :=
  ps.flatMap Piece.chars

/-- Whether `c`, standing after `before`, opens a literal. -/
def opensQuote (before : Option Char) (c : Char) : Bool :=
  c = '"' ||
    (c = '\'' &&
      match before with
      | none => true
      | some b => isBlank b || b = '(' || b = ',')

/-- The pieces of a text, and whether it ends inside a literal that is never closed, which then is
not among them. -/
structure Pieces where
  list : List Piece
  unclosed : Bool
deriving DecidableEq, Repr

/-- Where the cutting stands: after a character, or inside a literal with its body so far,
backwards, and whether a backslash has just been read. -/
inductive PieceState where
  | outside (before : Option Char)
  | inside (quote : Char) (body : List Char) (escaped : Bool)

def piecesFrom : PieceState → List Char → Pieces
  | .outside _, [] => ⟨[], false⟩
  | .inside _ _ _, [] => ⟨[], true⟩
  | .outside before, c :: cs =>
    if opensQuote before c then piecesFrom (.inside c [] false) cs
    else
      let rest := piecesFrom (.outside (some c)) cs
      { rest with list := .char c :: rest.list }
  | .inside quote body true, c :: cs => piecesFrom (.inside quote (c :: body) false) cs
  | .inside quote body false, c :: cs =>
    if c = '\\' then piecesFrom (.inside quote (c :: body) true) cs
    else if c = quote then
      let rest := piecesFrom (.outside (some quote)) cs
      { rest with list := .quoted quote body.reverse :: rest.list }
    else piecesFrom (.inside quote (c :: body) false) cs

def pieces (cs : List Char) : Pieces :=
  piecesFrom (.outside none) cs

/-- A text that ends inside a literal. -/
def unclosedLiteral (text : List Char) : ReadError :=
  ReadError.within { message := "unterminated literal" } (String.ofList text)

/-- A bracket without its partner. -/
def unbalanced (bracket : Char) (text : List Char) : ReadError :=
  ReadError.within { message := "unbalanced '" ++ String.singleton bracket ++ "'" }
    (String.ofList text)

/-- Where the parenthesis closes that is `depth` levels out: the characters before it, backwards,
and the pieces after it. -/
def closingFrom : (depth : Nat) → (before : List Char) → List Piece → Option (List Char × List Piece)
  | _, _, [] => none
  | depth, before, .char c :: ps =>
    if c = '(' then closingFrom (depth + 1) (c :: before) ps
    else if c = ')' then
      if depth ≤ 1 then some (before, ps) else closingFrom (depth - 1) (c :: before) ps
    else closingFrom depth (c :: before) ps
  | depth, before, .quoted quote body :: ps =>
    closingFrom depth ((Piece.quoted quote body).chars.reverse ++ before) ps

/-- The inside of `( ... )`, if the parenthesis at the start closes at the very end. -/
def enclosed? (text : List Char) : Except ReadError (Option (List Char)) :=
  if text.head? ≠ some '(' || text.getLast? ≠ some ')' then .ok none
  else
    let ps := pieces text
    match closingFrom 0 [] ps.list with
    | some (before, rest) =>
      if rest.isEmpty && !ps.unclosed then .ok (some (before.reverse.drop 1)) else .ok none
    | none => .error (if ps.unclosed then unclosedLiteral text else unbalanced '(' text)

/-- Cuts the pieces at every separator outside brackets; `current` is the open part, backwards. -/
def splitFrom (text : List Char) (sep : Char → Bool) (unclosed : Bool) :
    (depth : Nat) → (current : List Char) → List Piece → Except ReadError (List (List Char))
  | depth, current, [] =>
    if unclosed then .error (unclosedLiteral text)
    else if depth ≠ 0 then .error (unbalanced '(' text)
    else .ok [current.reverse]
  | depth, current, .quoted quote body :: ps =>
    splitFrom text sep unclosed depth ((Piece.quoted quote body).chars.reverse ++ current) ps
  | depth, current, .char c :: ps =>
    if c = '(' || c = '[' then splitFrom text sep unclosed (depth + 1) (c :: current) ps
    else if c = ')' || c = ']' then
      match depth with
      | 0 => .error (unbalanced c text)
      | depth + 1 => splitFrom text sep unclosed depth (c :: current) ps
    else if depth = 0 && sep c then
      match splitFrom text sep unclosed 0 [] ps with
      | .ok parts => .ok (current.reverse :: parts)
      | .error e => .error e
    else splitFrom text sep unclosed depth (c :: current) ps

/-- The parts of a text between the separators that stand outside brackets and quotes. -/
def splitTop (sep : Char → Bool) (text : List Char) : Except ReadError (List (List Char)) :=
  let ps := pieces text
  splitFrom text sep ps.unclosed 0 [] ps.list

/-- A comma, which divides the parts of tuples. -/
def isComma (c : Char) : Bool := c = ','

end Dataflow.Text
