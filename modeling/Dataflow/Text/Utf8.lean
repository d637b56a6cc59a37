/-!
# Octets of a text

Texts are encoded as UTF-8. Decoding never fails: a longest run of octets that starts a character
without finishing it, or an octet that starts none, is read as the replacement character.
-/

namespace Dataflow.Text

/-- The octets of a character. -/
def encodeChar (c : Char) : List UInt8 :=
  let n := c.toNat
  let tail (k : Nat) : UInt8 := UInt8.ofNat (0x80 + n / Nat.pow 64 k % 64)
  if n < 0x80 then [UInt8.ofNat n]
  else if n < 0x800 then [UInt8.ofNat (0xc0 + n / 64), tail 0]
  else if n < 0x10000 then [UInt8.ofNat (0xe0 + n / 0x1000), tail 1, tail 0]
  else [UInt8.ofNat (0xf0 + n / 0x40000), tail 2, tail 1, tail 0]

/-- The octets of a text. -/
def encode (s : String) : List UInt8 :=
  s.toList.flatMap encodeChar

/-- Stands in for octets that are no character. -/
def replacement : Char := '�'

/-- A character part way through: its value so far, the octets still owed, and the range that the
next one must lie in. -/
structure Unfinished where
  value : Nat
  owed : Nat
  least : Nat
  most : Nat

/-- The state after a first octet that needs more, or `none` if the octet starts no such character. -/
def Unfinished.start? (n : Nat) : Option Unfinished :=
  if 0xc2 ≤ n && n ≤ 0xdf then some ⟨n - 0xc0, 1, 0x80, 0xbf⟩
  else if n = 0xe0 then some ⟨0, 2, 0xa0, 0xbf⟩
  else if n = 0xed then some ⟨0xd, 2, 0x80, 0x9f⟩
  else if 0xe1 ≤ n && n ≤ 0xef then some ⟨n - 0xe0, 2, 0x80, 0xbf⟩
  else if n = 0xf0 then some ⟨0, 3, 0x90, 0xbf⟩
  else if 0xf1 ≤ n && n ≤ 0xf3 then some ⟨n - 0xf0, 3, 0x80, 0xbf⟩
  else if n = 0xf4 then some ⟨4, 3, 0x80, 0x8f⟩
  else none

/-- What an octet between two characters gives: a character at once, or one part way through. -/
def decodeFirst (n : Nat) : List Char × Option Unfinished :=
  if n < 0x80 then ([Char.ofNat n], none)
  else
    match Unfinished.start? n with
    | some u => ([], some u)
    | none => ([replacement], none)

/-- Decodes from a state; an octet that does not continue the character at hand starts afresh. -/
def decodeFrom : Option Unfinished → List UInt8 → List Char
  | none, [] => []
  | some _, [] => [replacement]
  | none, b :: bs =>
    let (cs, next) := decodeFirst b.toNat
    cs ++ decodeFrom next bs
  | some u, b :: bs =>
    let n := b.toNat
    if u.least ≤ n && n ≤ u.most then
      let value := u.value * 64 + (n - 0x80)
      if u.owed ≤ 1 then Char.ofNat value :: decodeFrom none bs
      else decodeFrom (some ⟨value, u.owed - 1, 0x80, 0xbf⟩) bs
    else
      let (cs, next) := decodeFirst n
      replacement :: (cs ++ decodeFrom next bs)

/-- The text that the octets spell, with the replacement character where they spell none. -/
def decodeLossy (bs : List UInt8) : String :=
  String.ofList (decodeFrom none bs)

end Dataflow.Text
