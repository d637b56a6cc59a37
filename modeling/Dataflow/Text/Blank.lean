import Dataflow.Text.Ranges

/-!
# White space

The 25 code points with the property White_Space, and the operations on text that go by them:
`trim` cuts them off both ends, `words` cuts the text at every run of them.
-/

namespace Dataflow.Text

/-- White space beyond ASCII. -/
def blankRanges : List (Nat × Nat) :=
  [(0x85, 0x85), (0xa0, 0xa0), (0x1680, 0x1680), (0x2000, 0x200a), (0x2028, 0x2029),
   (0x202f, 0x202f), (0x205f, 0x205f), (0x3000, 0x3000)]

/-- White space of any script. -/
def isBlank (c : Char) : Bool :=
  if c.toNat < 128 then c = ' ' || (9 ≤ c.toNat && c.toNat ≤ 13)
  else inRanges blankRanges c.toNat

/-- The characters without the white space at both ends. -/
def trimBlank (cs : List Char) : List Char :=
  ((cs.dropWhile isBlank).reverse.dropWhile isBlank).reverse

/-- The text without the white space at both ends. -/
def trim (s : String) : String :=
  String.ofList (trimBlank s.toList)

/-- Cuts at every run of white space; `current` holds the open word, backwards. -/
def wordsFrom (current : List Char) : List Char → List (List Char)
  | [] => if current.isEmpty then [] else [current.reverse]
  | c :: cs =>
    if isBlank c then
      if current.isEmpty then wordsFrom [] cs else current.reverse :: wordsFrom [] cs
    else wordsFrom (c :: current) cs

/-- The words of a text, none of them empty. -/
def words (s : String) : List String :=
  (wordsFrom [] s.toList).map String.ofList

/-- A text with every run of white space made one space and none left at the ends. -/
def squeeze (s : String) : String :=
  " ".intercalate (words s)

end Dataflow.Text
