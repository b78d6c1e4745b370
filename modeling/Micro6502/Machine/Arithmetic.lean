import Micro6502.Machine.Registers

/-! Arithmetic of the processor on single bytes: addition and subtraction with
carry, in binary and on packed decimal digits, comparison, and shifts by one bit. -/

namespace Micro6502

/-- What an addition or subtraction yields. -/
structure ArithmeticResult where
  value : Byte
  carry : Bool
  overflow : Bool
  deriving DecidableEq

namespace Arithmetic

/-- The right digit of a packed pair. -/
def lowDigit (byte : Byte) : Nat := byte.toNat % 16

def highDigit (byte : Byte) : Nat := byte.toNat / 16

/-- Whether a signed result is out of range, given that the signs of the operands
make that possible. The total counts from zero for a sum and from `0x100` for a
difference; only between `0x80` and `0x180` does the result have the wrong sign. -/
def leavesRange (possible : Bool) (total : Nat) : Bool :=
  possible && 0x80 ≤ total && total < 0x180

def sameSign (left right : Byte) : Bool := (0x80 ≤ left) == (0x80 ≤ right)

def addBinary (left right : Byte) (carry : Bool) : ArithmeticResult :=
  let total := left.toNat + right.toNat + carry.toNat
  { value := .ofNat total
    carry := 0x100 ≤ total
    overflow := leavesRange (sameSign left right) total }

/-- The sum of two right digits and a carry, as a digit pair: from ten on the
digit is corrected by six and one is carried to the left. -/
def addDigits (left right : Nat) (carry : Bool) : Nat :=
  let sum := left + right + carry.toNat
  if sum < 10 then sum else 0x10 + (sum + 6) % 16

def addDecimal (left right : Byte) (carry : Bool) : ArithmeticResult :=
  let total := addDigits (lowDigit left) (lowDigit right) carry +
    16 * highDigit left + 16 * highDigit right
  { value := .ofNat (if total < 0xA0 then total else total + 0x60)
    carry := 0xA0 ≤ total
    overflow := leavesRange (sameSign left right) total }

/-- Subtract a byte and the borrow, which is a carry that is clear, in binary. -/
def subtractBinary (left right : Byte) (carry : Bool) : ArithmeticResult :=
  let total := 0xFF + left.toNat - right.toNat + carry.toNat
  { value := .ofNat total
    carry := 0x100 ≤ total
    overflow := leavesRange (!sameSign left right) total }

/-- The right digit of a decimal difference, from a total that starts at `0x10`:
a total that falls below it has borrowed and is corrected by six. -/
def lowDifference (total : Nat) : Byte :=
  if total < 0x10 then .ofNat total - 6 else .ofNat total - 0x10

/-- The left digit of a decimal difference in its place, from a total that starts
at `0x100`. -/
def highDifference (total : Nat) : Byte :=
  if total < 0x100 then .ofNat total - 0x60 else .ofNat total

def subtractDecimal (left right : Byte) (carry : Bool) : ArithmeticResult :=
  let low := 0x0F + lowDigit left - lowDigit right + carry.toNat
  let high := 0xF0 + 16 * highDigit left - 16 * highDigit right +
    (if low < 0x10 then 0 else 0x10)
  { value := highDifference high + lowDifference low
    carry := 0x100 ≤ high
    overflow := leavesRange (!sameSign left right) high }

def add (decimal : Bool) (left right : Byte) (carry : Bool) : ArithmeticResult :=
  if decimal then addDecimal left right carry else addBinary left right carry

def subtract (decimal : Bool) (left right : Byte) (carry : Bool) : ArithmeticResult :=
  if decimal then subtractDecimal left right carry else subtractBinary left right carry

/-- One shift by one bit: from a byte and the carry to a byte and the carry. -/
abbrev Shift := Byte → Bool → Byte × Bool

/-- Shift to the left and bring in a zero. -/
def shiftLeft : Shift := fun byte _ => (byte <<< 1, 0x80 ≤ byte)

def shiftRight : Shift := fun byte _ => (byte >>> 1, byte % 2 = 1)

/-- Shift to the left and bring in the carry. -/
def rotateLeft : Shift := fun byte carry => (byte <<< 1 ||| carry.toUInt8, 0x80 ≤ byte)

def rotateRight : Shift := fun byte carry =>
  (byte >>> 1 ||| carry.toUInt8 <<< 7, byte % 2 = 1)

end Arithmetic

namespace Registers

def accept (r : Registers) (result : ArithmeticResult) : Registers :=
  { r with
    a := result.value
    p := { r.p with carry := result.carry, overflow := result.overflow }.describe result.value }

def addWithCarry (byte : Byte) (r : Registers) : Registers :=
  r.accept (Arithmetic.add r.p.decimal r.a byte r.p.carry)

/-- Subtract a byte and the borrow from the accumulator. -/
def subtractWithCarry (byte : Byte) (r : Registers) : Registers :=
  r.accept (Arithmetic.subtract r.p.decimal r.a byte r.p.carry)

def loadA (byte : Byte) (r : Registers) : Registers :=
  { r with a := byte, p := r.p.describe byte }

def loadX (byte : Byte) (r : Registers) : Registers :=
  { r with x := byte, p := r.p.describe byte }

def loadY (byte : Byte) (r : Registers) : Registers :=
  { r with y := byte, p := r.p.describe byte }

/-- Compare a register with a byte: the carry says that there is no borrow, the
other flags describe the difference. -/
def compare (register byte : Byte) (r : Registers) : Registers :=
  { r with p := { r.p with carry := byte ≤ register }.describe (register - byte) }

/-- Test bits: the zero flag says whether the accumulator shares a bit with the
byte, and two flags are copied from the top bits of the byte. -/
def testBits (byte : Byte) (r : Registers) : Registers :=
  { r with p := { r.p with
      zero := r.a &&& byte = 0
      negative := 0x80 ≤ byte
      overflow := byte &&& 0x40 ≠ 0 } }

end Registers
end Micro6502
