import Dataflow.Text.Printable
import Dataflow.Text.GraphemeExtend

/-!
# Quoted text

How characters and strings are shown in quotes. The usual controls have short escapes, the quote
in use and the backslash are escaped, and what does not print, or would attach to the character
before it, is written as its code point in braces.
-/

namespace Dataflow.Text

/-- The code point of `c` in lower-case hexadecimal. -/
def codePoint (c : Char) : List Char :=
  Nat.toDigits 16 c.toNat

/-- One character inside quotes of the given kind. -/
def quoteChar (quote c : Char) : List Char :=
  if c = '\x00' then ['\\', '0']
  else if c = '\t' then ['\\', 't']
  else if c = '\r' then ['\\', 'r']
  else if c = '\n' then ['\\', 'n']
  else if c = '\\' || c = quote then ['\\', c]
  else if isPrintable c && !isGraphemeExtend c then [c]
  else ['\\', 'u', '\x7b'] ++ codePoint c ++ ['\x7d']

/-- The characters inside quotes of the given kind. -/
def quoteBody (quote : Char) (cs : List Char) : List Char :=
  cs.flatMap (quoteChar quote)

/-- A character in single quotes. -/
def quotedChar (c : Char) : String :=
  String.ofList ('\'' :: quoteChar '\'' c ++ ['\''])

/-- A string in double quotes. -/
def quotedString (s : String) : String :=
  String.ofList ('"' :: quoteBody '"' s.toList ++ ['"'])

end Dataflow.Text
