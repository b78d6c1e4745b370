import Micro6502.Word

/-! The status register, bit by bit, and its form as a byte on the stack. -/

namespace Micro6502

/-- The eight bits of the status register. Instructions drive five of them; bits
2, 4 and 5 only keep what was last pulled from the stack or set from outside. -/
structure Status where
  carry : Bool := false
  zero : Bool := false
  bit2 : Bool := false
  decimal : Bool := false
  bit4 : Bool := false
  bit5 : Bool := false
  overflow : Bool := false
  negative : Bool := false
  deriving DecidableEq

namespace Status

def toByte (status : Status) : Byte :=
  status.carry.toUInt8 + 0x02 * status.zero.toUInt8 + 0x04 * status.bit2.toUInt8 +
    0x08 * status.decimal.toUInt8 + 0x10 * status.bit4.toUInt8 +
    0x20 * status.bit5.toUInt8 + 0x40 * status.overflow.toUInt8 +
    0x80 * status.negative.toUInt8

/-- The status register that a byte stands for. No bit is lost. -/
def ofByte (byte : Byte) : Status :=
  let bits := byte.toNat
  { carry := bits.testBit 0
    zero := bits.testBit 1
    bit2 := bits.testBit 2
    decimal := bits.testBit 3
    bit4 := bits.testBit 4
    bit5 := bits.testBit 5
    overflow := bits.testBit 6
    negative := bits.testBit 7 }

/-- The negative flag from the top bit of a byte, the zero flag from all of it. -/
def describe (status : Status) (byte : Byte) : Status :=
  { status with negative := 0x80 ≤ byte, zero := byte = 0 }

/-- All eight bits of a status register are in its byte. -/
@[simp] theorem ofByte_toByte (status : Status) : ofByte status.toByte = status := by
  obtain ⟨c, z, b2, d, b4, b5, v, n⟩ := status
  revert c z b2 d b4 b5 v n
  decide

/-- A byte has no bits that a status register would lose. -/
@[simp] theorem toByte_ofByte (byte : Byte) : (ofByte byte).toByte = byte := by
  have hAll : ∀ i : Fin 256, (ofByte (.ofNat i.val)).toByte = .ofNat i.val := by decide +kernel
  have hByte := hAll ⟨byte.toNat, byte.toNat_lt⟩
  rwa [UInt8.ofNat_toNat] at hByte

end Status
end Micro6502
