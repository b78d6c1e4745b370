/-! Bytes, addresses, and the little-endian split of an address into two bytes.
All arithmetic on both wraps, as it does on the machine's own data paths. -/

namespace Micro6502

/-- What one memory cell or one eight-bit register holds. -/
abbrev Byte := UInt8

/-- One of the 65536 places in memory. -/
abbrev Address := UInt16

/-- Where code goes, and where execution begins, unless something else is said. -/
def programStart : Address := 0x0200

/-- The less significant half of an address; it is the half stored first. -/
def lowByte (address : Address) : Byte := address.toUInt8

/-- The more significant half of an address. -/
def highByte (address : Address) : Byte := (address / 0x100).toUInt8

/-- The address whose halves are the two given bytes, in the order in which
they lie in memory. -/
def word (low high : Byte) : Address := low.toUInt16 + 0x100 * high.toUInt16

@[simp] theorem toNat_lowByte (address : Address) :
    (lowByte address).toNat = address.toNat % 256 := by
  simp [lowByte]

@[simp] theorem toNat_highByte (address : Address) :
    (highByte address).toNat = address.toNat / 256 := by
  have hAddress := address.toNat_lt
  simp only [highByte, UInt16.toNat_toUInt8, UInt16.toNat_div, UInt16.reduceToNat]
  omega

/-- The high byte counts for 256 each. -/
@[simp] theorem toNat_word (low high : Byte) :
    (word low high).toNat = low.toNat + 256 * high.toNat := by
  have hLow := low.toNat_lt
  have hHigh := high.toNat_lt
  simp only [word, UInt16.toNat_add, UInt16.toNat_mul, UInt8.toNat_toUInt16,
    UInt16.reduceToNat]
  omega

/-- The halves of an address make it up again. -/
@[simp] theorem word_lowByte_highByte (address : Address) :
    word (lowByte address) (highByte address) = address := by
  apply UInt16.toNat_inj.mp
  simp only [toNat_word, toNat_lowByte, toNat_highByte]
  omega

@[simp] theorem lowByte_word (low high : Byte) : lowByte (word low high) = low := by
  have hLow := low.toNat_lt
  apply UInt8.toNat_inj.mp
  simp only [toNat_word, toNat_lowByte]
  omega

@[simp] theorem highByte_word (low high : Byte) : highByte (word low high) = high := by
  have hLow := low.toNat_lt
  apply UInt8.toNat_inj.mp
  simp only [toNat_word, toNat_highByte]
  omega

end Micro6502
