/-!
# Octets of JSON text

JSON text is read octet by octet. This module names the octets that the grammar
speaks of and the classes it needs; octets of 128 and above occur only inside
strings, where they spell characters in UTF-8.
-/

namespace Narrative.Json

/-- Text as it is stored: octets, front first. -/
abbrev Octets := List UInt8

namespace Octet

/-- The octet of an ASCII character. -/
@[inline] def ofChar (c : Char) : UInt8 := UInt8.ofNat c.toNat

abbrev quote : UInt8 := 0x22
abbrev backslash : UInt8 := 0x5c
abbrev comma : UInt8 := 0x2c
abbrev colon : UInt8 := 0x3a
abbrev minus : UInt8 := 0x2d
abbrev plus : UInt8 := 0x2b
abbrev point : UInt8 := 0x2e
abbrev zero : UInt8 := 0x30
abbrev openBracket : UInt8 := 0x5b
abbrev closeBracket : UInt8 := 0x5d
abbrev openBrace : UInt8 := 0x7b
abbrev closeBrace : UInt8 := 0x7d

/-- Space, tab, newline and carriage return. -/
def isBlank (b : UInt8) : Bool := b == 0x20 || b == 0x09 || b == 0x0a || b == 0x0d

def isDigit (b : UInt8) : Bool := decide (0x30 ≤ b) && decide (b ≤ 0x39)

/-- The number that a decimal digit stands for. -/
def digit (b : UInt8) : Nat := b.toNat - 0x30

/-- The number that a hexadecimal digit stands for. -/
def hexDigit? (b : UInt8) : Option Nat :=
  if isDigit b then some (digit b)
  else if 0x61 ≤ b ∧ b ≤ 0x66 then some (b.toNat - 0x57)
  else if 0x41 ≤ b ∧ b ≤ 0x46 then some (b.toNat - 0x37)
  else none

end Octet

namespace Octets

/-- The stored form of a text. -/
def ofString (text : String) : Octets := text.toUTF8.toList

/-- The text that octets spell in UTF-8, if they do. -/
def toString? (octets : Octets) : Option String := String.fromUTF8? octets.toByteArray

/-- The text after leading blanks. -/
def skipBlanks (octets : Octets) : Octets := octets.dropWhile Octet.isBlank

end Octets

/-- Why a text is not read. -/
inductive ReadError where
  /-- The text ends inside a value. -/
  | endOfText
  /-- The text breaks a rule of the grammar or of its limits. -/
  | malformed
  /-- An integer is outside the 32-bit range. -/
  | integerRange (value : Int)
deriving DecidableEq

namespace ReadError

/-- The text of an error that names a value. -/
def message : ReadError → Option String
  | integerRange value => some ("integer " ++ value.repr ++ " does not fit in 32 bits")
  | _ => none

end ReadError

/-- A value read from the front of a text, and what follows it. -/
abbrev Front (α : Type) := α × Octets

end Narrative.Json
