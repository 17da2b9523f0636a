/-!
Bytes: those of the ASCII characters that the readers of this library look for, and those that write
a text.
-/

namespace ExactlyOne

namespace Byte

@[match_pattern] def quote : UInt8 := 0x22
@[match_pattern] def backslash : UInt8 := 0x5c
@[match_pattern] def comma : UInt8 := 0x2c
@[match_pattern] def colon : UInt8 := 0x3a
@[match_pattern] def openBracket : UInt8 := 0x5b
@[match_pattern] def closeBracket : UInt8 := 0x5d
@[match_pattern] def openBrace : UInt8 := 0x7b
@[match_pattern] def closeBrace : UInt8 := 0x7d
@[match_pattern] def minus : UInt8 := 0x2d
@[match_pattern] def plus : UInt8 := 0x2b
@[match_pattern] def point : UInt8 := 0x2e
@[match_pattern] def newline : UInt8 := 0x0a
@[match_pattern] def slash : UInt8 := 0x2f

def ofChar (c : Char) : UInt8 := c.toNat.toUInt8

def isSpace (b : UInt8) : Bool := b == 0x20 || b == 0x0a || b == 0x09 || b == 0x0d

def isDigit (b : UInt8) : Bool := 0x30 ≤ b && b ≤ 0x39

def digitValue (b : UInt8) : Nat := b.toNat - 0x30

def isExponentMark (b : UInt8) : Bool := b == 0x65 || b == 0x45

def isControl (b : UInt8) : Bool := b < 0x20

def hexValue? (b : UInt8) : Option Nat :=
  if isDigit b then some (digitValue b)
  else if 0x61 ≤ b && b ≤ 0x66 then some (b.toNat - 0x61 + 10)
  else if 0x41 ≤ b && b ≤ 0x46 then some (b.toNat - 0x41 + 10)
  else none

end Byte

def utf8 (s : String) : List UInt8 := s.toUTF8.toList

def ofUtf8? (bytes : List UInt8) : Option String := String.fromUTF8? ⟨bytes.toArray⟩

/-- The character whose bytes come first; no character has more than four. -/
def firstChar? (bytes : List UInt8) : Option Char :=
  ByteArray.utf8DecodeChar? ⟨(bytes.take 4).toArray⟩ 0

/-- The bytes that are left from the first one on that belongs to no character. -/
def dropText : List UInt8 → List UInt8
  | [] => []
  | b :: rest =>
    match firstChar? (b :: rest) with
    | some c => dropText (rest.drop (c.utf8Size - 1))
    | none => b :: rest
termination_by bytes => bytes.length
decreasing_by
  simp only [List.length_drop, List.length_cons]
  omega

end ExactlyOne
