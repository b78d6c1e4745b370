import Micro6502.Word
import Micro6502.Text.Basic

/-! Numbers as text: upper-case hexadecimal of a fixed width for bytes and
addresses, binary for the status register, decimal for counts; and reading of
digit strings of any length into a number that stops growing at 32 bits. -/

namespace Micro6502.Text

/-- The upper-case digit for a value below sixteen. -/
def hexDigit (value : Nat) : Char :=
  if value < 10 then Char.ofNat (0x30 + value) else Char.ofNat (0x37 + value)

def hexByte (byte : Byte) : Text :=
  [hexDigit (byte.toNat / 16), hexDigit (byte.toNat % 16)]

def hexWord (address : Address) : Text :=
  hexByte (highByte address) ++ hexByte (lowByte address)

/-- A byte in eight binary digits, the most significant one first. -/
def binaryByte (byte : Byte) : Text :=
  [7, 6, 5, 4, 3, 2, 1, 0].map fun bit => if byte.toNat.testBit bit then '1' else '0'

def decimal (count : Nat) : Text := Nat.toDigits 10 count

/-- The two number systems of the source language. -/
inductive Radix where
  | decimal
  | hex
  deriving DecidableEq

def Radix.base : Radix → Nat
  | decimal => 10
  | hex => 16

/-- The value of a digit. Hexadecimal digits may be written in either case. -/
def Radix.digit? (radix : Radix) (c : Char) : Option Nat :=
  if '0' ≤ c ∧ c ≤ '9' then some (c.toNat - 0x30)
  else match radix with
    | decimal => none
    | hex =>
      if 'A' ≤ c ∧ c ≤ 'F' then some (c.toNat - 0x37)
      else if 'a' ≤ c ∧ c ≤ 'f' then some (c.toNat - 0x57)
      else none

/-- The largest number that is told apart from larger ones. It is far above
every limit of the source language, so a range check still rejects it. -/
def numeralLimit : Nat := 0xFFFFFFFF

/-- Read the remaining digits of a number whose earlier digits amount to
`value`. -/
def Radix.readFrom (radix : Radix) (value : Nat) : Text → Option Nat
  | [] => some value
  | c :: rest => match radix.digit? c with
    | none => none
    | some digit => radix.readFrom (min (value * radix.base + digit) numeralLimit) rest

/-- The number that a non-empty string of digits stands for, capped at
`numeralLimit`. -/
def Radix.read? (radix : Radix) (digits : Text) : Option Nat :=
  if digits.isEmpty then none else radix.readFrom 0 digits

/-- A number that carries its own radix: hexadecimal after a `$`, else decimal. -/
def readMarked? (text : Text) : Option Nat :=
  match after? '$' text with
  | some digits => Radix.hex.read? digits
  | none => Radix.decimal.read? text

end Micro6502.Text
