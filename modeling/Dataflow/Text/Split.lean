/-!
# Cutting and replacing

Cuts at the first occurrence of a separator, cuts into lines, and replacement of every occurrence
of a pattern, scanning left to right without overlaps.
-/

namespace Dataflow.Text

/-- What follows `start` in `cs`, if `cs` begins with it. -/
def dropStart? {α : Type} [DecidableEq α] : (start cs : List α) → Option (List α)
  | [], cs => some cs
  | _ :: _, [] => none
  | p :: ps, c :: cs => if p = c then dropStart? ps cs else none

/-- What comes before and after the first occurrence of `sep`. -/
def splitOnce {α : Type} [DecidableEq α] (sep : List α) : List α → Option (List α × List α)
  | [] => if sep.isEmpty then some ([], []) else none
  | c :: cs =>
    match dropStart? sep (c :: cs) with
    | some rest => some ([], rest)
    | none => (splitOnce sep cs).map fun (before, after) => (c :: before, after)

/-- The parts between the characters that satisfy `sep`. -/
def splitAt (sep : Char → Bool) : List Char → List (List Char)
  | [] => [[]]
  | c :: cs =>
    if sep c then [] :: splitAt sep cs
    else
      match splitAt sep cs with
      | [] => [[c]]
      | part :: parts => (c :: part) :: parts

/-- The lines of a text, cut at every newline. -/
def lines (s : String) : List String :=
  (splitAt (· = '\n') s.toList).map String.ofList

/-- Replaces from here on; the first `skip` characters belong to an occurrence already replaced. -/
def replaceFrom (pattern value : List Char) : (skip : Nat) → List Char → List Char
  | _, [] => []
  | skip + 1, _ :: cs => replaceFrom pattern value skip cs
  | 0, c :: cs =>
    if !pattern.isEmpty && pattern.isPrefixOf (c :: cs) then
      value ++ replaceFrom pattern value (pattern.length - 1) cs
    else c :: replaceFrom pattern value 0 cs

/-- Every occurrence of a non-empty `pattern` replaced by `value`. -/
def replace (s pattern value : String) : String :=
  String.ofList (replaceFrom pattern.toList value.toList 0 s.toList)

/-- The text without its first and its last character, if they are `first` and `last`. -/
def unwrap? (first last : Char) (cs : List Char) : Option (List Char) :=
  match cs with
  | c :: rest =>
    if c = first then
      match rest.getLast? with
      | some d => if d = last then some rest.dropLast else none
      | none => none
    else none
  | [] => none

end Dataflow.Text
