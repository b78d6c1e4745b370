import Mathlib.Data.Nat.Digits.Lemmas
import Mathlib.Tactic.Linarith
import Micro6502.Machine.Arithmetic

/-! Addition and subtraction of single bytes as one law. A byte is one digit of a larger number,
in base 256 or as two decimal digits in base 100; the sum or difference is exact up to one carry
or borrow of the base, and this holds in both readings. In two's complement the top byte alone
decides whether a number is in range. -/

namespace Micro6502.Arithmetic

/-- Both halves of the byte are decimal digits. -/
def IsPacked (byte : Byte) : Prop := highDigit byte ≤ 9 ∧ lowDigit byte ≤ 9

instance (byte : Byte) : Decidable (IsPacked byte) := inferInstanceAs (Decidable (_ ∧ _))

/-- The number that two packed digits stand for. -/
def unpack (byte : Byte) : Nat := 10 * highDigit byte + lowDigit byte

/-- A way to read a byte as one digit of a number. -/
structure Positional where
  base : Nat
  digit : Byte → Nat
  IsDigit : Byte → Prop
  one_lt_base : 1 < base
  digit_lt : ∀ {byte}, IsDigit byte → digit byte < base
  digit_inj : ∀ {byte other}, IsDigit byte → IsDigit other → digit byte = digit other → byte = other

namespace Positional

/-- A byte is one digit. -/
def binary : Positional where
  base := 256
  digit := UInt8.toNat
  IsDigit _ := True
  one_lt_base := by decide
  digit_lt := fun _ => UInt8.toNat_lt _
  digit_inj := fun _ _ hSame => UInt8.toNat_inj.mp hSame

/-- A byte is two decimal digits, which count as one in base 100. -/
def packed : Positional where
  base := 100
  digit := unpack
  IsDigit := IsPacked
  one_lt_base := by decide
  digit_lt := by
    intro byte h
    simp only [IsPacked] at h
    simp only [unpack]
    omega
  digit_inj := by
    intro byte other h hOther hSame
    apply UInt8.toNat_inj.mp
    simp only [IsPacked, unpack, highDigit, lowDigit] at h hOther hSame
    omega

/-- The reading that the decimal flag stands for. -/
def ofFlag : Bool → Positional
  | true => packed
  | false => binary

/-- The number whose digits the bytes are, the least significant one first. -/
def value (system : Positional) (bytes : List Byte) : Nat :=
  Nat.ofDigits system.base (bytes.map system.digit)

variable {system : Positional}

theorem value_cons (byte : Byte) (bytes : List Byte) :
    system.value (byte :: bytes) = system.digit byte + system.base * system.value bytes :=
  Nat.ofDigits_cons

/-- Behind low digits, the high ones count times a power of the base. -/
theorem value_append (low high : List Byte) :
    system.value (low ++ high) =
      system.value low + system.base ^ low.length * system.value high := by
  rw [value, List.map_append, Nat.ofDigits_append, List.length_map, value, value]

theorem value_singleton (byte : Byte) : system.value [byte] = system.digit byte :=
  Nat.ofDigits_singleton

theorem lt_of_mem_digits {bytes : List Byte} (h : ∀ byte ∈ bytes, system.IsDigit byte) :
    ∀ digit ∈ bytes.map system.digit, digit < system.base := by
  intro digit hMem
  obtain ⟨byte, hByte, rfl⟩ := List.mem_map.mp hMem
  exact system.digit_lt (h byte hByte)

theorem value_lt {bytes : List Byte} (h : ∀ byte ∈ bytes, system.IsDigit byte) :
    system.value bytes < system.base ^ bytes.length := by
  rw [← List.length_map system.digit]
  exact Nat.ofDigits_lt_base_pow_length system.one_lt_base (lt_of_mem_digits h)

/-- Numbers of so many digits have these digits and no others. -/
theorem eq_of_value_eq {bytes others : List Byte} (hLength : bytes.length = others.length)
    (h : ∀ byte ∈ bytes, system.IsDigit byte) (hOthers : ∀ byte ∈ others, system.IsDigit byte)
    (hValue : system.value bytes = system.value others) : bytes = others := by
  have hDigits : bytes.map system.digit = others.map system.digit :=
    Nat.ofDigits_inj_of_len_eq system.one_lt_base (by simpa using hLength) (lt_of_mem_digits h)
      (lt_of_mem_digits hOthers) hValue
  refine List.ext_getElem hLength fun i hByte hOther => ?_
  refine system.digit_inj (h _ (List.getElem_mem hByte)) (hOthers _ (List.getElem_mem hOther)) ?_
  have hDigit := congrArg (·[i]?) hDigits
  simpa [hByte, hOther] using hDigit

end Positional

/-- What is done with the right operand. -/
inductive Sign where
  | plus
  | minus

namespace Sign

def factor : Sign → Int
  | plus => 1
  | minus => -1

/-- What the carry flag counts for: a clear one is a borrow. -/
def carried : Sign → Bool → Int
  | plus, carry => carry.toNat
  | minus, carry => carry.toNat - 1

def combine : Sign → Bool → Byte → Byte → Bool → ArithmeticResult
  | plus => add
  | minus => subtract

end Sign

/-- One digit of a sum or of a difference: it is exact, but for a carry that is worth the base. -/
structure Exact (system : Positional) (sign : Sign) (result : ArithmeticResult)
    (left right : Byte) (carry : Bool) : Prop where
  isDigit : system.IsDigit result.value
  value : (system.digit result.value : Int) = system.digit left +
    sign.factor * system.digit right + sign.carried carry -
      system.base * sign.carried result.carry

theorem toNat_decide (p : Prop) [Decidable p] : (decide p).toNat = if p then 1 else 0 := by
  split <;> simp_all

section

variable {left right : Byte} (carry : Bool)

/-- A binary sum is exact in base 256. -/
theorem exact_addBinary : Exact .binary .plus (addBinary left right carry) left right carry := by
  have hLeft := left.toNat_lt
  have hRight := right.toNat_lt
  have hCarry := carry.toNat_le
  refine ⟨trivial, ?_⟩
  simp only [Positional.binary, Sign.factor, Sign.carried, addBinary, UInt8.toNat_ofNat',
    toNat_decide]
  split <;> omega

/-- A binary difference is exact in base 256, with a clear carry flag as the borrow. -/
theorem exact_subtractBinary :
    Exact .binary .minus (subtractBinary left right carry) left right carry := by
  have hLeft := left.toNat_lt
  have hRight := right.toNat_lt
  have hCarry := carry.toNat_le
  refine ⟨trivial, ?_⟩
  simp only [Positional.binary, Sign.factor, Sign.carried, subtractBinary, UInt8.toNat_ofNat',
    toNat_decide]
  split <;> omega

/-- Two digits side by side. -/
theorem packed_of_toNat {byte : Byte} {high low : Nat} (hHigh : high ≤ 9) (hLow : low ≤ 9)
    (h : byte.toNat = 16 * high + low) :
    IsPacked byte ∧ unpack byte = 10 * high + low := by
  simp only [IsPacked, unpack, highDigit, lowDigit, h]
  omega

/-- A sum of two digits is a digit and perhaps a carry, which is worth ten in the sum and
stands beside the digit in the outcome. -/
theorem exists_addDigits {l r : Nat} (hl : l ≤ 9) (hr : r ≤ 9) :
    ∃ digit one, digit ≤ 9 ∧ one ≤ 1 ∧ l + r + carry.toNat = 10 * one + digit ∧
      addDigits l r carry = 16 * one + digit := by
  have hCarry := carry.toNat_le
  simp only [addDigits]
  split
  next hSmall => exact ⟨l + r + carry.toNat, 0, by omega, by omega, by omega, by omega⟩
  next hLarge => exact ⟨l + r + carry.toNat - 10, 1, by omega, by omega, by omega, by omega⟩

/-- A decimal sum of packed digits is packed again and exact in base 100. -/
theorem exact_addDecimal (hLeft : IsPacked left) (hRight : IsPacked right) :
    Exact .packed .plus (addDecimal left right carry) left right carry := by
  obtain ⟨low, one, hLow, hOne, hSum, hDigits⟩ := exists_addDigits carry hLeft.2 hRight.2
  have hHighs : highDigit left ≤ 9 ∧ highDigit right ≤ 9 := ⟨hLeft.1, hRight.1⟩
  obtain ⟨high, hHigh⟩ : ∃ high, high = highDigit left + highDigit right + one := ⟨_, rfl⟩
  have hTotal : addDigits (lowDigit left) (lowDigit right) carry + 16 * highDigit left +
      16 * highDigit right = 16 * high + low := by omega
  have hValue : (addDecimal left right carry).value.toNat =
      16 * (if high < 10 then high else high - 10) + low := by
    simp only [addDecimal, hTotal, UInt8.toNat_ofNat']
    split <;> split <;> omega
  have hCarry : (addDecimal left right carry).carry.toNat = if high < 10 then 0 else 1 := by
    simp only [addDecimal, hTotal, toNat_decide]
    split <;> split <;> omega
  obtain ⟨hDigit, hExact⟩ := packed_of_toNat (by split <;> omega) hLow hValue
  refine ⟨hDigit, ?_⟩
  simp only [Positional.packed, Sign.factor, Sign.carried, hExact, hCarry]
  simp only [unpack]
  split <;> omega

/-- A difference of two digits from a total that starts at sixteen is a digit and perhaps a
borrow, which is worth ten. The left digits are treated the same way, in their place. -/
theorem exists_difference (total : Nat) (hLeast : 6 ≤ total) (hMost : total ≤ 25) :
    ∃ digit borrow, digit ≤ 9 ∧ borrow ≤ 1 ∧ total + 10 * borrow = 16 + digit ∧
      (total < 16 ↔ borrow = 1) ∧ (lowDifference total).toNat = digit ∧
      (highDifference (16 * total)).toNat = 16 * digit := by
  have hPlace : 16 * total < 0x100 ↔ total < 16 := by omega
  simp only [lowDifference, highDifference, hPlace]
  split
  next hBorrow =>
    refine ⟨total - 6, 1, by omega, by omega, by omega, by omega, ?_, ?_⟩
    all_goals
      simp only [UInt8.toNat_sub, UInt8.toNat_ofNat', UInt8.reduceToNat]
      omega
  next hBorrow =>
    refine ⟨total - 16, 0, by omega, by omega, by omega, by omega, ?_, ?_⟩
    all_goals
      simp only [UInt8.toNat_sub, UInt8.toNat_ofNat', UInt8.reduceToNat]
      omega

/-- A decimal difference of packed digits is packed again and exact in base 100. -/
theorem exact_subtractDecimal (hLeft : IsPacked left) (hRight : IsPacked right) :
    Exact .packed .minus (subtractDecimal left right carry) left right carry := by
  have hCarry := carry.toNat_le
  have hLows : lowDigit left ≤ 9 ∧ lowDigit right ≤ 9 := ⟨hLeft.2, hRight.2⟩
  have hHighs : highDigit left ≤ 9 ∧ highDigit right ≤ 9 := ⟨hLeft.1, hRight.1⟩
  obtain ⟨ones, hOnes⟩ : ∃ ones, ones = 0x0F + lowDigit left - lowDigit right + carry.toNat :=
    ⟨_, rfl⟩
  obtain ⟨low, taken, hLow, hTaken, hLowTotal, hLowBorrow, hLowByte, -⟩ :=
    exists_difference ones (by omega) (by omega)
  obtain ⟨tens, hTens⟩ : ∃ tens, tens = 0x0F + highDigit left - highDigit right + (1 - taken) :=
    ⟨_, rfl⟩
  obtain ⟨high, borrow, hHigh, hBorrow, hHighTotal, hHighBorrow, -, hHighByte⟩ :=
    exists_difference tens (by omega) (by omega)
  have hTotal : 0xF0 + 16 * highDigit left - 16 * highDigit right +
      (if ones < 0x10 then 0 else 0x10) = 16 * tens := by
    split <;> omega
  have hValue : (subtractDecimal left right carry).value.toNat = 16 * high + low := by
    simp only [subtractDecimal, ← hOnes, hTotal, UInt8.toNat_add, hHighByte, hLowByte]
    omega
  have hOut : (subtractDecimal left right carry).carry.toNat = 1 - borrow := by
    simp only [subtractDecimal, ← hOnes, hTotal, toNat_decide]
    split <;> omega
  obtain ⟨hPacked, hExact⟩ := packed_of_toNat hHigh hLow hValue
  refine ⟨hPacked, ?_⟩
  simp only [Positional.packed, Sign.factor, Sign.carried, hExact, hOut]
  simp only [unpack]
  omega

/-- The law of a digit, in either reading. -/
theorem exact_combine (sign : Sign) {decimal : Bool}
    (hLeft : (Positional.ofFlag decimal).IsDigit left)
    (hRight : (Positional.ofFlag decimal).IsDigit right) :
    Exact (.ofFlag decimal) sign (sign.combine decimal left right carry) left right carry := by
  cases sign with
  | plus =>
      cases decimal with
      | true => exact exact_addDecimal carry hLeft hRight
      | false => exact exact_addBinary carry
  | minus =>
      cases decimal with
      | true => exact exact_subtractDecimal carry hLeft hRight
      | false => exact exact_subtractBinary carry

/-- A byte in two's complement. -/
def signed (byte : Byte) : Int := (byte.toNat : Int).bmod 256

/-- Bytes of the upper half stand for negative numbers. -/
theorem signed_eq (byte : Byte) :
    signed byte = if byte.toNat < 128 then (byte.toNat : Int) else byte.toNat - 256 := by
  have hByte : byte.toNat < 256 := byte.toNat_lt
  unfold signed
  generalize byte.toNat = number at hByte ⊢
  rw [Int.bmod_def]
  split <;> split <;> omega

theorem leavesRange_iff {possible : Bool} {total : Nat} :
    leavesRange possible total = true ↔ possible = true ∧ 0x80 ≤ total ∧ total < 0x180 := by
  simp only [leavesRange, Bool.and_eq_true, decide_eq_true_eq, and_assoc]

theorem sameSign_iff :
    sameSign left right = true ↔ (left.toNat < 128 ↔ right.toNat < 128) := by
  have hTop : ∀ byte : Byte, 0x80 ≤ byte ↔ ¬ byte.toNat < 128 := by
    intro byte
    simp only [UInt8.le_iff_toNat_le, UInt8.reduceToNat, Nat.not_lt]
  simp only [sameSign, beq_iff_eq, decide_eq_decide, hTop, not_iff_not]

/-- A number has room in so many bytes in two's complement. -/
def Fits (length : Nat) (number : Int) : Prop :=
  -2 ^ (8 * length - 1) ≤ number ∧ number ≤ 2 ^ (8 * length - 1) - 1

/-- The overflow flag of a binary operation says that the outcome in two's complement is out of
range. -/
theorem overflow_combine (sign : Sign) :
    (sign.combine false left right carry).overflow = true ↔
      ¬ Fits 1 (signed left + sign.factor * signed right + sign.carried carry) := by
  have hLeft := left.toNat_lt
  have hRight := right.toNat_lt
  have hCarry := carry.toNat_le
  rw [signed_eq, signed_eq, Fits]
  cases sign with
  | plus =>
      have hOverflow : (Sign.plus.combine false left right carry).overflow =
          leavesRange (sameSign left right) (left.toNat + right.toNat + carry.toNat) := rfl
      rw [hOverflow, leavesRange_iff, sameSign_iff, Sign.factor, Sign.carried]
      split <;> split <;> omega
  | minus =>
      have hOverflow : (Sign.minus.combine false left right carry).overflow =
          leavesRange (!sameSign left right)
            (0xFF + left.toNat - right.toNat + carry.toNat) := rfl
      rw [hOverflow, leavesRange_iff, Bool.not_eq_true', ← Bool.not_eq_true, sameSign_iff,
        Sign.factor, Sign.carried]
      split <;> split <;> omega

end

/-- The number that the bytes stand for in two's complement. -/
def signedValue (bytes : List Byte) : Int :=
  (Positional.binary.value bytes : Int).bmod (256 ^ bytes.length)

/-- With one more byte on top, the bound is half of what that byte can count. -/
theorem two_pow_top (length : Nat) : 2 ^ (8 * (length + 1) - 1) = 256 ^ length * 128 := by
  have hSplit : 8 * (length + 1) - 1 = 8 * length + 7 := by omega
  have hByte : 2 ^ 8 = 256 := rfl
  have hTop : 2 ^ 7 = 128 := rfl
  rw [hSplit, pow_add, pow_mul, hByte, hTop]

/-- The sign of a number is the sign of its top digit. The lower digits stay what they are. -/
theorem bmod_scaled {scale number digit : Nat} (hNumber : number < scale) (hDigit : digit < 256) :
    ((number + scale * digit : Nat) : Int).bmod (scale * 256) =
      number + scale * (if digit < 128 then (digit : Int) else digit - 256) := by
  have hScaled : scale * digit + scale ≤ scale * 256 := Nat.mul_le_mul_left scale hDigit
  have hMod : ((number + scale * digit : Nat) : Int) % (scale * 256 : Nat) =
      (number + scale * digit : Nat) := Int.emod_eq_of_lt (by omega) (by omega)
  rw [Int.bmod_def, hMod]
  by_cases hSign : digit < 128
  · have hBelow : scale * digit + scale ≤ scale * 128 := Nat.mul_le_mul_left scale hSign
    rw [if_pos (by omega), if_pos hSign]
    push_cast
    ring
  · have hAbove : scale * 128 ≤ scale * digit :=
      Nat.mul_le_mul_left scale (Nat.not_lt.mp hSign)
    rw [if_neg (by omega), if_neg hSign]
    push_cast
    ring

theorem binary_value_concat (low : List Byte) (top : Byte) :
    Positional.binary.value (low ++ [top]) =
      Positional.binary.value low + 256 ^ low.length * top.toNat := by
  rw [Positional.value_append, Positional.value_singleton]
  rfl

theorem binary_value_lt (bytes : List Byte) :
    Positional.binary.value bytes < 256 ^ bytes.length :=
  Positional.value_lt fun _ _ => trivial

/-- The sign of a number is in its most significant byte. -/
theorem signedValue_concat (low : List Byte) (top : Byte) :
    signedValue (low ++ [top]) =
      Positional.binary.value low + (256 ^ low.length : Nat) * signed top := by
  rw [signedValue, binary_value_concat, List.length_append, List.length_singleton, pow_succ,
    bmod_scaled (binary_value_lt low) top.toNat_lt, signed_eq]

/-- Only the top byte of a number decides whether the number has room. -/
theorem fits_succ {length : Nat} {number digit : Int} (hLeast : 0 ≤ number)
    (hMost : number < (256 ^ length : Nat)) :
    Fits (length + 1) (number + (256 ^ length : Nat) * digit) ↔ Fits 1 digit := by
  have hScale : (2 : Int) ^ (8 * (length + 1) - 1) = (256 ^ length : Nat) * 128 :=
    mod_cast two_pow_top length
  have hByte : (2 : Int) ^ (8 * 1 - 1) = 128 := rfl
  rw [Fits, Fits, hScale, hByte]
  generalize ((256 ^ length : Nat) : Int) = scale at *
  constructor
  · rintro ⟨hLow, hHigh⟩
    constructor
    · by_contra hOut
      nlinarith
    · by_contra hOut
      nlinarith
  · rintro ⟨hLow, hHigh⟩
    constructor <;> nlinarith

end Micro6502.Arithmetic
