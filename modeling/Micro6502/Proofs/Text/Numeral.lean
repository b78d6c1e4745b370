import Micro6502.Proofs.Text.Basic
import Micro6502.Text.Numeral

/-! Hexadecimal numbers read back. -/

namespace Micro6502.Text

/-- The digits that bytes and addresses are written with. -/
def hexDigits : Text := "0123456789ABCDEF".toList

theorem hexDigit_mem {value : Nat} (h : value < 16) : hexDigit value ∈ hexDigits := by
  have hAll : ∀ digit < 16, hexDigit digit ∈ hexDigits := by decide
  exact hAll value h

theorem digit?_hexDigit {value : Nat} (h : value < 16) :
    Radix.hex.digit? (hexDigit value) = some value := by
  have hAll : ∀ digit < 16, Radix.hex.digit? (hexDigit digit) = some digit := by decide
  exact hAll value h

/-- Bytes and addresses are written with capital digits only, so no other mark of a line can occur
in them. -/
theorem hexByte_subset (byte : Byte) : hexByte byte ⊆ hexDigits := by
  have hByte := byte.toNat_lt
  simp only [hexByte, List.cons_subset, List.nil_subset, and_true]
  exact ⟨hexDigit_mem (by omega), hexDigit_mem (by omega)⟩

theorem hexWord_subset (address : Address) : hexWord address ⊆ hexDigits :=
  List.append_subset.mpr ⟨hexByte_subset _, hexByte_subset _⟩

/-- Two more digits, as long as the number is told apart from larger ones. -/
theorem readFrom_hexByte {value : Nat} {byte : Byte}
    (h : value * 0x100 + byte.toNat ≤ numeralLimit) (rest : Text) :
    Radix.hex.readFrom value (hexByte byte ++ rest) =
      Radix.hex.readFrom (value * 0x100 + byte.toNat) rest := by
  have hByte := byte.toNat_lt
  have hHigh : min (value * 16 + byte.toNat / 16) numeralLimit =
      value * 16 + byte.toNat / 16 := Nat.min_eq_left (by omega)
  have hLow : (value * 16 + byte.toNat / 16) * 16 + byte.toNat % 16 =
      value * 0x100 + byte.toNat := by omega
  simp only [hexByte, List.cons_append, List.nil_append, Radix.readFrom, Radix.base]
  rw [digit?_hexDigit (by omega), digit?_hexDigit (by omega)]
  simp only [hHigh, hLow, Nat.min_eq_left h]

theorem Radix.read?_eq {radix : Radix} {digits : Text} (h : digits ≠ []) :
    radix.read? digits = radix.readFrom 0 digits := by
  rw [read?, if_neg (by simpa using h)]

/-- Digits that are written for a value. -/
structure HexNumeral (digits : Text) (value : Nat) : Prop where
  length : 2 ≤ digits.length
  read : Radix.hex.read? digits = some value

/-- Both digits of a byte are written, also a leading zero, and they read back as the byte. -/
theorem hexNumeral_byte (byte : Byte) : HexNumeral (hexByte byte) byte.toNat := by
  refine ⟨Nat.le_refl 2, ?_⟩
  have hByte := byte.toNat_lt
  have hLimit : 0 * 0x100 + byte.toNat ≤ numeralLimit := by
    rw [numeralLimit]
    omega
  calc Radix.hex.read? (hexByte byte)
      = Radix.hex.readFrom 0 (hexByte byte ++ []) := by
        rw [List.append_nil]
        exact Radix.read?_eq (List.cons_ne_nil _ _)
    _ = some (0 * 0x100 + byte.toNat) := readFrom_hexByte hLimit []
    _ = some byte.toNat := by rw [Nat.zero_mul, Nat.zero_add]

/-- An address is written as its high byte and then its low byte. Read in this order, the two make
the address again. -/
theorem hexNumeral_word (address : Address) : HexNumeral (hexWord address) address.toNat := by
  refine ⟨Nat.le_add_left 2 2, ?_⟩
  have hAddress := address.toNat_lt
  have hValue : (highByte address).toNat * 0x100 + (lowByte address).toNat = address.toNat := by
    rw [toNat_highByte, toNat_lowByte]
    omega
  have hHigh : 0 * 0x100 + (highByte address).toNat ≤ numeralLimit := by
    rw [numeralLimit]
    omega
  have hLow : (highByte address).toNat * 0x100 + (lowByte address).toNat ≤ numeralLimit := by
    rw [hValue, numeralLimit]
    omega
  calc Radix.hex.read? (hexWord address)
      = Radix.hex.readFrom 0 (hexByte (highByte address) ++ hexByte (lowByte address)) :=
        Radix.read?_eq (List.cons_ne_nil _ _)
    _ = Radix.hex.readFrom (highByte address).toNat (hexByte (lowByte address) ++ []) := by
      rw [readFrom_hexByte hHigh, Nat.zero_mul, Nat.zero_add, List.append_nil]
    _ = some ((highByte address).toNat * 0x100 + (lowByte address).toNat) :=
      readFrom_hexByte hLow []
    _ = some address.toNat := by rw [hValue]

end Micro6502.Text
