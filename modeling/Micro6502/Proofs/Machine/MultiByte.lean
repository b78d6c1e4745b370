import Mathlib.Tactic.LinearCombination
import Micro6502.Proofs.Machine.Arithmetic

/-! Arithmetic on numbers of several bytes, from the least significant byte up. The carry flag
takes what is left over from byte to byte; so numbers of any length are added and subtracted
exactly, in binary and in packed decimal digits. -/

namespace Micro6502

open Arithmetic

/-- The instruction that adds or subtracts a byte. -/
def Arithmetic.Sign.step : Sign → Byte → Registers → Registers
  | plus => Registers.addWithCarry
  | minus => Registers.subtractWithCarry

namespace Registers

/-- Work from byte to byte: each byte of the left number is put into the accumulator, the step
is made with the byte of the right number, and the accumulator is kept. -/
def chain (step : Byte → Registers → Registers) : List Byte → List Byte → Registers →
    List Byte × Registers
  | left :: lefts, right :: rights, r =>
    let next := step right { r with a := left }
    let rest := chain step lefts rights next
    (next.a :: rest.1, rest.2)
  | _, _, r => ([], r)

/-- How the bytes of a number are read while the decimal flag stays as it is. -/
def reading (r : Registers) : Positional := .ofFlag r.p.decimal

variable {sign : Sign} {left right : List Byte} {r : Registers}

/-- A step works on the accumulator, with the carry and the decimal flag as they are found. -/
theorem step_eq (sign : Sign) (byte : Byte) (r : Registers) :
    sign.step byte r = r.accept (sign.combine r.p.decimal r.a byte r.p.carry) := by
  cases sign <;> rfl

/-- One step is exact, and the decimal flag is not touched. -/
theorem step_value (sign : Sign) {first second : Byte} (hFirst : r.reading.IsDigit first)
    (hSecond : r.reading.IsDigit second) :
    let next := sign.step second { r with a := first }
    next.p.decimal = r.p.decimal ∧ r.reading.IsDigit next.a ∧
      (r.reading.digit next.a : Int) = r.reading.digit first +
        sign.factor * r.reading.digit second + sign.carried r.p.carry -
          r.reading.base * sign.carried next.p.carry := by
  obtain ⟨hDigit, hValue⟩ := exact_combine r.p.carry sign hFirst hSecond
  rw [step_eq]
  exact ⟨rfl, hDigit, hValue⟩

/-- What a chain makes of two numbers: digits of the same kind, and a carry for the rest. -/
structure Chained (sign : Sign) (left right : List Byte) (r : Registers)
    (result : List Byte × Registers) : Prop where
  decimal : result.2.p.decimal = r.p.decimal
  length : result.1.length = left.length
  digits : ∀ byte ∈ result.1, r.reading.IsDigit byte
  value : (r.reading.value result.1 : Int) = r.reading.value left +
    sign.factor * r.reading.value right + sign.carried r.p.carry -
      r.reading.base ^ left.length * sign.carried result.2.p.carry

/-- The law of a digit goes from byte to byte: what one step carries, the next one takes in. -/
theorem chained (sign : Sign) (hLength : left.length = right.length)
    (hLeft : ∀ byte ∈ left, r.reading.IsDigit byte)
    (hRight : ∀ byte ∈ right, r.reading.IsDigit byte) :
    Chained sign left right r (r.chain sign.step left right) := by
  induction left generalizing right r with
  | nil =>
      obtain rfl := List.eq_nil_of_length_eq_zero hLength.symm
      exact ⟨rfl, rfl, by simp [chain], by simp [chain, Positional.value]⟩
  | cons first lefts ih =>
      cases right with
      | nil => cases hLength
      | cons second rights =>
          obtain ⟨hFirst, hLefts⟩ := List.forall_mem_cons.mp hLeft
          obtain ⟨hSecond, hRights⟩ := List.forall_mem_cons.mp hRight
          obtain ⟨hDecimal, hDigit, hFirstValue⟩ := step_value sign hFirst hSecond
          rw [chain]
          generalize sign.step second { r with a := first } = next at *
          have hReading : next.reading = r.reading := congrArg Positional.ofFlag hDecimal
          rw [← hReading] at hLefts hRights
          obtain ⟨hLast, hCount, hDigits, hValue⟩ := ih (Nat.succ.inj hLength) hLefts hRights
          rw [hReading] at hDigits hValue
          refine ⟨hLast.trans hDecimal, congrArg (· + 1) hCount,
            List.forall_mem_cons.mpr ⟨hDigit, hDigits⟩, ?_⟩
          simp only [Positional.value_cons, List.length_cons]
          push_cast
          linear_combination hFirstValue + (r.reading.base : Int) * hValue

/-- A sum with its carry is exact. -/
theorem Chained.sum_value {result : List Byte × Registers} (h : Chained .plus left right r result) :
    r.reading.value result.1 + result.2.p.carry.toNat * r.reading.base ^ left.length =
      r.reading.value left + r.reading.value right + r.p.carry.toNat := by
  have hValue := h.value
  simp only [Sign.factor, Sign.carried] at hValue
  zify
  linear_combination hValue

/-- A difference with its borrow is exact. -/
theorem Chained.difference_value {result : List Byte × Registers}
    (h : Chained .minus left right r result) :
    (r.reading.value result.1 : Int) =
      r.reading.value left - r.reading.value right - (1 - r.p.carry.toNat) +
        (1 - result.2.p.carry.toNat) * r.reading.base ^ left.length := by
  have hValue := h.value
  simp only [Sign.factor, Sign.carried] at hValue
  linear_combination hValue

/-- A longer chain is a chain with one more step at the end. -/
theorem chain_concat (step : Byte → Registers → Registers) (hLength : left.length = right.length)
    (top other : Byte) (r : Registers) :
    r.chain step (left ++ [top]) (right ++ [other]) =
      let low := r.chain step left right
      let last := step other { low.2 with a := top }
      (low.1 ++ [last.a], last) := by
  induction left generalizing right r with
  | nil =>
      obtain rfl := List.eq_nil_of_length_eq_zero hLength.symm
      rfl
  | cons first lefts ih =>
      cases right with
      | nil => cases hLength
      | cons second rights =>
          simp only [List.cons_append, chain, ih (Nat.succ.inj hLength)]

/-- Numbers of the same length, cut in front of their most significant bytes. -/
theorem exists_concat (hLength : left.length = right.length) (hNil : left ≠ []) :
    ∃ low top lower other, left = low ++ [top] ∧ right = lower ++ [other] ∧
      low.length = lower.length := by
  have hOther : right ≠ [] := by
    rintro rfl
    exact hNil (List.eq_nil_of_length_eq_zero hLength)
  refine ⟨left.dropLast, left.getLast hNil, right.dropLast, right.getLast hOther,
    (List.dropLast_append_getLast hNil).symm, (List.dropLast_append_getLast hOther).symm, ?_⟩
  rw [List.length_dropLast, List.length_dropLast, hLength]

/-- The last byte is still in the accumulator, and the flags describe it. -/
theorem describes_chain (sign : Sign) (hLength : left.length = right.length) (hNil : left ≠ [])
    (r : Registers) :
    let result := r.chain sign.step left right
    result.1.getLast? = some result.2.a ∧
      result.2.p.negative = decide (0x80 ≤ result.2.a) ∧
      result.2.p.zero = decide (result.2.a = 0) := by
  obtain ⟨low, top, lower, other, rfl, rfl, hLow⟩ := exists_concat hLength hNil
  simp only [chain_concat sign.step hLow, step_eq]
  exact ⟨List.getLast?_concat, rfl, rfl⟩

/-- Adding a number without a carry and then subtracting it without a borrow changes nothing. -/
theorem chain_minus_plus (hLength : left.length = right.length)
    (hLeft : ∀ byte ∈ left, r.reading.IsDigit byte)
    (hRight : ∀ byte ∈ right, r.reading.IsDigit byte) {s : Registers}
    (hReading : s.reading = r.reading) (hClear : r.p.carry = false) (hSet : s.p.carry = true) :
    (s.chain Sign.minus.step (r.chain Sign.plus.step left right).1 right).1 = left := by
  obtain ⟨-, hCount, hDigits, hSum⟩ := chained .plus hLength hLeft hRight
  generalize (r.chain Sign.plus.step left right).1 = sum at *
  generalize (r.chain Sign.plus.step left right).2.p.carry = carry at *
  rw [← hReading] at hDigits hRight
  obtain ⟨-, hBack, hRestored, hDifference⟩ := chained .minus (hCount.trans hLength) hDigits hRight
  generalize (s.chain Sign.minus.step sum right).1 = out at *
  generalize (s.chain Sign.minus.step sum right).2.p.carry = kept at *
  rw [hReading] at hRestored hDifference
  refine Positional.eq_of_value_eq (hBack.trans hCount) hRestored hLeft ?_
  have hOut := Positional.value_lt hRestored
  have hIn := Positional.value_lt hLeft
  rw [hBack, hCount] at hOut
  rw [hCount] at hDifference
  simp only [Sign.factor, Sign.carried, hClear, hSet, ← Nat.cast_pow] at hSum hDifference
  -- What comes back differs by the carry and the borrow, which are worth more than any number.
  cases carry <;> cases kept <;>
    simp only [Bool.toNat_true, Bool.toNat_false] at hSum hDifference <;> omega

theorem reading_of_binary (h : r.p.decimal = false) : r.reading = .binary :=
  congrArg Positional.ofFlag h

theorem isDigit_of_binary (h : r.p.decimal = false) (byte : Byte) : r.reading.IsDigit byte := by
  rw [reading_of_binary h]
  exact trivial

/-- In binary every byte is a digit, so numbers of the same length are all it takes. -/
theorem chained_binary (sign : Sign) (hLength : left.length = right.length)
    (h : r.p.decimal = false) : Chained sign left right r (r.chain sign.step left right) :=
  chained sign hLength (fun byte _ => isDigit_of_binary h byte)
    fun byte _ => isDigit_of_binary h byte

/-- The overflow flag behind a chain of binary steps says that the outcome in two's complement
has no room in so many bytes. -/
theorem overflow_chain (sign : Sign) (hLength : left.length = right.length) (hNil : left ≠ [])
    (hDecimal : r.p.decimal = false) :
    (r.chain sign.step left right).2.p.overflow = true ↔
      ¬ Fits left.length
        (signedValue left + sign.factor * signedValue right + sign.carried r.p.carry) := by
  obtain ⟨low, top, lower, other, rfl, rfl, hLow⟩ := exists_concat hLength hNil
  obtain ⟨hStill, hCount, -, hValue⟩ := chained_binary sign hLow hDecimal
  rw [hDecimal] at hStill
  rw [reading_of_binary hDecimal] at hValue
  have hStart := binary_value_lt (r.chain sign.step low lower).1
  rw [hCount] at hStart
  rw [chain_concat sign.step hLow, signedValue_concat, signedValue_concat, ← hLow,
    List.length_append, List.length_singleton]
  generalize r.chain sign.step low lower = middle at *
  have hOverflow : (sign.step other { middle.2 with a := top }).p.overflow =
      (sign.combine false top other middle.2.p.carry).overflow := by
    rw [step_eq, ← hStill]
    rfl
  have hTotal : (Positional.binary.value low : Int) + (256 ^ low.length : Nat) * signed top +
      sign.factor * (Positional.binary.value lower + (256 ^ low.length : Nat) * signed other) +
        sign.carried r.p.carry =
      Positional.binary.value middle.1 + (256 ^ low.length : Nat) *
        (signed top + sign.factor * signed other + sign.carried middle.2.p.carry) := by
    have hBase : Positional.binary.base = 256 := rfl
    rw [hValue, hBase]
    push_cast
    ring
  rw [hOverflow, overflow_combine, hTotal, fits_succ (by omega) (mod_cast hStart)]

/-- The negative flag behind a chain of binary steps is the sign bit of the outcome. -/
theorem negative_chain (sign : Sign) (hLength : left.length = right.length) (hNil : left ≠ [])
    (hDecimal : r.p.decimal = false) :
    (r.chain sign.step left right).2.p.negative = true ↔
      2 ^ (8 * left.length - 1) ≤ Positional.binary.value (r.chain sign.step left right).1 := by
  obtain ⟨low, top, lower, other, rfl, rfl, hLow⟩ := exists_concat hLength hNil
  obtain ⟨-, hCount, -, -⟩ := chained_binary sign hLow hDecimal
  have hStart := binary_value_lt (r.chain sign.step low lower).1
  rw [chain_concat sign.step hLow, List.length_append, List.length_singleton, two_pow_top]
  generalize r.chain sign.step low lower = middle at *
  have hNegative : (sign.step other { middle.2 with a := top }).p.negative = true ↔
      128 ≤ (sign.step other { middle.2 with a := top }).a.toNat := by
    rw [step_eq]
    exact decide_eq_true_iff.trans UInt8.le_iff_toNat_le
  rw [hNegative, binary_value_concat, hCount]
  rw [hCount] at hStart
  generalize (sign.step other { middle.2 with a := top }).a.toNat = digit
  generalize 256 ^ low.length = scale at *
  constructor
  · intro hTop
    exact (Nat.mul_le_mul_left scale hTop).trans (Nat.le_add_left _ _)
  · intro hTop
    by_contra hSmall
    have hBelow : scale * (digit + 1) ≤ scale * 128 :=
      Nat.mul_le_mul_left scale (Nat.not_le.mp hSmall)
    rw [Nat.mul_succ] at hBelow
    omega

/-- Binary numbers of any length are added and subtracted exactly, up to a carry or a borrow out
of the most significant byte. If there is a byte, the flags behind it are those of the whole
number: overflow says that the outcome in two's complement has no room, and negative is its sign
bit. What was added without a carry is taken away again by subtracting it without a borrow. -/
theorem chain_binary (hLength : left.length = right.length) (hDecimal : r.p.decimal = false) :
    let n := left.length
    let value := Positional.binary.value
    let sum := r.chain addWithCarry left right
    let difference := r.chain subtractWithCarry left right
    (sum.1.length = n ∧ difference.1.length = n) ∧
      value sum.1 + sum.2.p.carry.toNat * 256 ^ n =
        value left + value right + r.p.carry.toNat ∧
      (value difference.1 : Int) = value left - value right - (1 - r.p.carry.toNat) +
        (1 - difference.2.p.carry.toNat) * 256 ^ n ∧
      (0 < n →
        (sum.2.p.overflow = true ↔
          ¬ Fits n (signedValue left + signedValue right + r.p.carry.toNat)) ∧
        (sum.2.p.negative = true ↔ 2 ^ (8 * n - 1) ≤ value sum.1) ∧
        (difference.2.p.overflow = true ↔
          ¬ Fits n (signedValue left - signedValue right - (1 - r.p.carry.toNat))) ∧
        (difference.2.p.negative = true ↔ 2 ^ (8 * n - 1) ≤ value difference.1)) ∧
      ∀ {s : Registers}, s.p.decimal = false → r.p.carry = false → s.p.carry = true →
        (s.chain subtractWithCarry sum.1 right).1 = left := by
  intro n value sum difference
  have hReading := reading_of_binary hDecimal
  have hSum := chained_binary .plus hLength hDecimal
  have hDifference := chained_binary .minus hLength hDecimal
  have hSumValue := hSum.sum_value
  have hDifferenceValue := hDifference.difference_value
  rw [hReading] at hSumValue hDifferenceValue
  refine ⟨⟨hSum.length, hDifference.length⟩, hSumValue, hDifferenceValue, fun hSome => ?_, ?_⟩
  · have hNil : left ≠ [] := List.ne_nil_of_length_pos hSome
    have hOver := overflow_chain .plus hLength hNil hDecimal
    have hUnder := overflow_chain .minus hLength hNil hDecimal
    have hMinus : signedValue left + Sign.minus.factor * signedValue right +
        Sign.minus.carried r.p.carry =
          signedValue left - signedValue right - (1 - r.p.carry.toNat) := by
      rw [Sign.factor, Sign.carried]
      ring
    rw [Sign.factor, Sign.carried, one_mul] at hOver
    rw [hMinus] at hUnder
    exact ⟨hOver, negative_chain .plus hLength hNil hDecimal, hUnder,
      negative_chain .minus hLength hNil hDecimal⟩
  · intro s hOther hClear hSet
    exact chain_minus_plus hLength (fun byte _ => isDigit_of_binary hDecimal byte)
      (fun byte _ => isDigit_of_binary hDecimal byte)
      ((reading_of_binary hOther).trans hReading.symm) hClear hSet

/-- Two bytes whose sum has no room in two's complement. -/
theorem chain_binary_overflow :
    let left : List Byte := [0xFF, 0x7F]
    let right : List Byte := [0x01, 0x00]
    let r : Registers := {}
    let sum := r.chain addWithCarry left right
    left.length = right.length ∧ r.p.decimal = false ∧ sum.1 = [0x00, 0x80] ∧
      ¬ Fits 2 (signedValue left + signedValue right + r.p.carry.toNat) ∧
      Positional.binary.value sum.1 + sum.2.p.carry.toNat * 256 ^ 2 =
        Positional.binary.value left + Positional.binary.value right + r.p.carry.toNat ∧
      (({ p := { carry := true } } : Registers).chain subtractWithCarry sum.1 right).1 = left := by
  intro left right r sum
  have hLength : left.length = right.length := rfl
  have hDecimal : r.p.decimal = false := rfl
  obtain ⟨-, hValue, -, hFlags, hBack⟩ := chain_binary hLength hDecimal
  obtain ⟨hOverflow, -⟩ := hFlags (by decide)
  exact ⟨hLength, hDecimal, by decide, hOverflow.mp (by decide), hValue, hBack rfl rfl rfl⟩

theorem reading_of_decimal (h : r.p.decimal = true) : r.reading = .packed :=
  congrArg Positional.ofFlag h

/-- Packed decimal numbers of any length are added and subtracted exactly, up to a carry or a
borrow out of the most significant byte, and the outcome is packed again. If there is a byte, the
flags describe the last one, which is still in the accumulator. What was added without a carry is
taken away again by subtracting it without a borrow. -/
theorem chain_decimal (hLength : left.length = right.length)
    (hLeft : ∀ byte ∈ left, IsPacked byte) (hRight : ∀ byte ∈ right, IsPacked byte)
    (hDecimal : r.p.decimal = true) :
    let n := left.length
    let value := Positional.packed.value
    let sum := r.chain addWithCarry left right
    let difference := r.chain subtractWithCarry left right
    (sum.1.length = n ∧ ∀ byte ∈ sum.1, IsPacked byte) ∧
      (difference.1.length = n ∧ ∀ byte ∈ difference.1, IsPacked byte) ∧
      value sum.1 + sum.2.p.carry.toNat * 100 ^ n =
        value left + value right + r.p.carry.toNat ∧
      (value difference.1 : Int) = value left - value right - (1 - r.p.carry.toNat) +
        (1 - difference.2.p.carry.toNat) * 100 ^ n ∧
      (0 < n → ∀ result ∈ [sum, difference], result.1.getLast? = some result.2.a ∧
        result.2.p.negative = decide (0x80 ≤ result.2.a) ∧
        result.2.p.zero = decide (result.2.a = 0)) ∧
      ∀ {s : Registers}, s.p.decimal = true → r.p.carry = false → s.p.carry = true →
        (s.chain subtractWithCarry sum.1 right).1 = left := by
  intro n value sum difference
  have hReading := reading_of_decimal hDecimal
  have hLeftDigits : ∀ byte ∈ left, r.reading.IsDigit byte := hReading ▸ hLeft
  have hRightDigits : ∀ byte ∈ right, r.reading.IsDigit byte := hReading ▸ hRight
  have hSum := chained .plus hLength hLeftDigits hRightDigits
  have hDifference := chained .minus hLength hLeftDigits hRightDigits
  have hSumDigits := hSum.digits
  have hDifferenceDigits := hDifference.digits
  have hSumValue := hSum.sum_value
  have hDifferenceValue := hDifference.difference_value
  rw [hReading] at hSumDigits hDifferenceDigits hSumValue hDifferenceValue
  refine ⟨⟨hSum.length, hSumDigits⟩, ⟨hDifference.length, hDifferenceDigits⟩, hSumValue,
    hDifferenceValue, fun hSome => ?_, ?_⟩
  · have hNil : left ≠ [] := List.ne_nil_of_length_pos hSome
    intro result hResult
    simp only [List.mem_cons, List.not_mem_nil, or_false] at hResult
    rcases hResult with rfl | rfl
    · exact describes_chain .plus hLength hNil r
    · exact describes_chain .minus hLength hNil r
  · intro s hOther hClear hSet
    exact chain_minus_plus hLength hLeftDigits hRightDigits
      ((reading_of_decimal hOther).trans hReading.symm) hClear hSet

/-- Four digits whose sum has five. -/
theorem chain_decimal_carry :
    let left : List Byte := [0x58, 0x46]
    let right : List Byte := [0x67, 0x91]
    let r : Registers := { p := { decimal := true } }
    let sum := r.chain addWithCarry left right
    left.length = right.length ∧ (∀ byte ∈ left, IsPacked byte) ∧
      (∀ byte ∈ right, IsPacked byte) ∧ r.p.decimal = true ∧
      sum.1 = [0x25, 0x38] ∧ sum.2.p.carry = true ∧
      Positional.packed.value sum.1 + sum.2.p.carry.toNat * 100 ^ 2 =
        Positional.packed.value left + Positional.packed.value right + r.p.carry.toNat ∧
      (({ p := { carry := true, decimal := true } } : Registers).chain subtractWithCarry
        sum.1 right).1 = left := by
  intro left right r sum
  have hLength : left.length = right.length := rfl
  have hLeft : ∀ byte ∈ left, IsPacked byte := by simp [left, IsPacked, highDigit, lowDigit]
  have hRight : ∀ byte ∈ right, IsPacked byte := by simp [right, IsPacked, highDigit, lowDigit]
  have hDecimal : r.p.decimal = true := rfl
  obtain ⟨-, -, hValue, -, -, hBack⟩ := chain_decimal hLength hLeft hRight hDecimal
  exact ⟨hLength, hLeft, hRight, hDecimal, by decide, by decide, hValue, hBack rfl rfl rfl⟩

end Registers
end Micro6502
