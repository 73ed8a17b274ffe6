import Mathlib.Algebra.Order.Ring.Int
import Mathlib.Data.List.Basic

/-! Bytes by the characters they stand for. -/

set_option autoImplicit false

abbrev Bytes : Type := List UInt8

namespace Ascii

abbrev tab : UInt8 := 0x09
abbrev newline : UInt8 := 0x0a
abbrev carriageReturn : UInt8 := 0x0d
abbrev space : UInt8 := 0x20
abbrev quote : UInt8 := 0x22
abbrev comma : UInt8 := 0x2c
abbrev minus : UInt8 := 0x2d
abbrev dot : UInt8 := 0x2e
abbrev zero : UInt8 := 0x30
abbrev colon : UInt8 := 0x3a
abbrev openBracket : UInt8 := 0x5b
abbrev backslash : UInt8 := 0x5c
abbrev closeBracket : UInt8 := 0x5d
abbrev openBrace : UInt8 := 0x7b
abbrev closeBrace : UInt8 := 0x7d

abbrev letter (char : Char) : UInt8 := char.toUInt8

def ofString (text : String) : Bytes := text.toList.map letter

def isDigit (byte : UInt8) : Bool := 0x30 ≤ byte && byte ≤ 0x39

def isOctal (byte : UInt8) : Bool := 0x30 ≤ byte && byte ≤ 0x37

def isHex (byte : UInt8) : Bool :=
  isDigit byte || (0x41 ≤ byte && byte ≤ 0x46) || (0x61 ≤ byte && byte ≤ 0x66)

def isBlank (byte : UInt8) : Bool :=
  byte == tab || byte == carriageReturn || byte == newline || byte == space

/-- `isspace` of the C locale. -/
def isSpace (byte : UInt8) : Bool := byte == space || (0x09 ≤ byte && byte ≤ 0x0d)

def tolower (byte : UInt8) : UInt8 := if 0x41 ≤ byte && byte ≤ 0x5a then byte + 0x20 else byte

def digitValue (byte : UInt8) : Nat :=
  if byte ≤ 0x39 then byte.toNat - 0x30
  else if byte ≤ 0x46 then byte.toNat - 0x37
  else byte.toNat - 0x57

def number (base : Nat) (digits : Bytes) : Nat :=
  digits.foldl (fun sum digit => sum * base + digitValue digit) 0

variable {holds : UInt8 → Prop}

theorem forall_byte (numbers : ∀ index : Fin 256, holds (UInt8.ofNat index)) (byte : UInt8) : holds byte := by
  have known := numbers ⟨byte.toNat, byte.toNat_lt⟩
  simpa using known

theorem forall_mem_of_all [DecidablePred holds] {text : Bytes}
    (every : text.all (fun byte => decide (holds byte)) = true) : ∀ byte ∈ text, holds byte := by
  simpa using every

end Ascii
