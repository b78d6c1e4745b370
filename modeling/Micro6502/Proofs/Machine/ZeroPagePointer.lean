import Micro6502.Proofs.Machine.Effect
import Micro6502.Proofs.Machine.Fetch

/-! Indexed indirect addressing. The index wraps in the zero page, but the pointer found there is
read like any other word. So the last place of the zero page is where a pointer leaves it: its high
byte comes from the page behind, not from the first place again. -/

namespace Micro6502

variable {ρ δ : Type}

/-- In the zero page, only the last place has none behind it. -/
theorem toUInt16_add_one {place : Byte} (h : place ≠ 0xFF) :
    (place + 1).toUInt16 = place.toUInt16 + 1 := by
  have hPlace := place.toNat_lt
  have hLast : place.toNat ≠ 255 := fun hNat => h (UInt8.toNat_inj.mp hNat)
  simp only [← UInt16.toNat_inj, UInt8.toNat_toUInt16, UInt8.toNat_add, UInt16.toNat_add,
    UInt8.reduceToNat, UInt16.reduceToNat]
  omega

theorem word_inj_high {low high other : Byte} : word low high = word low other ↔ high = other := by
  refine ⟨fun h => ?_, congrArg (word low)⟩
  rw [← highByte_word low high, h, highByte_word]

namespace Memory

/-- The word at a place in the zero page, if the first place is taken for the one behind the
last. -/
def wrappedWord (memory : Memory ρ δ) (place : Byte) : Address :=
  word (memory.stored place.toUInt16) (memory.stored (place + 1).toUInt16)

variable {memory : Memory ρ δ} {place : Byte}

theorem storedWord_of_ne (h : place ≠ 0xFF) :
    memory.storedWord place.toUInt16 = memory.wrappedWord place := by
  rw [wrappedWord, toUInt16_add_one h]
  rfl

/-- Only at the last place does it matter which byte comes next, and not if the two are the same. -/
theorem storedWord_eq_wrappedWord_iff :
    memory.storedWord place.toUInt16 = memory.wrappedWord place ↔
      place ≠ 0xFF ∨ memory.stored 0x0100 = memory.stored 0x0000 := by
  by_cases hLast : place = 0xFF
  · subst hLast
    have hWord : memory.storedWord (0xFF : Byte).toUInt16 = memory.wrappedWord 0xFF ↔
        memory.stored 0x0100 = memory.stored 0x0000 := word_inj_high
    rw [hWord, or_iff_right fun h => h rfl]
  · exact iff_of_true (storedWord_of_ne hLast) (.inl hLast)

/-- Only the byte behind the last place matters from outside the zero page. -/
theorem storedWord_congr {other : Memory ρ δ}
    (hPage : ∀ cell : Byte, other.stored cell.toUInt16 = memory.stored cell.toUInt16)
    (hBehind : place = 0xFF → other.stored 0x0100 = memory.stored 0x0100) :
    other.storedWord place.toUInt16 = memory.storedWord place.toUInt16 := by
  rw [storedWord, storedWord, hPage]
  by_cases hLast : place = 0xFF
  · rw [hLast]
    exact congrArg (word _) (hBehind hLast)
  · rw [← toUInt16_add_one hLast, hPage]

end Memory

namespace Processor

variable [ByteSource ρ] {cpu : Processor ρ δ}

/-- The place in the zero page that the operand byte and X come to. -/
def pointerPlace (cpu : Processor ρ δ) : Byte := cpu.fetchByte.1 + cpu.x

variable [Screen δ]

/-- The operand byte is fetched first, and away from the random address the pointer is found as it
is stored. -/
theorem effectiveAddress_of_place (hLow : cpu.pointerPlace.toUInt16 ≠ randomAddress)
    (hHigh : (cpu.pointerPlace + 1).toUInt16 ≠ randomAddress) :
    (cpu.effectiveAddress .indirectX).1 = cpu.memory.storedWord cpu.pointerPlace.toUInt16 := by
  have hNext : cpu.pointerPlace.toUInt16 + 1 ≠ randomAddress := by
    by_cases hLast : cpu.pointerPlace = 0xFF
    · rw [hLast]
      decide
    · rwa [← toUInt16_add_one hLast]
  have hWord : (cpu.effectiveAddress .indirectX).1 =
      cpu.fetchByte.2.memory.storedWord cpu.pointerPlace.toUInt16 :=
    congrArg Prod.fst (readWord_eq hLow hNext)
  have hStored : cpu.fetchByte.2.memory.stored = cpu.memory.stored :=
    funext (cpu.memory.stored_afterRead cpu.pc)
  rw [hWord, Memory.storedWord, hStored]
  rfl

/-- The address is the word at the place, which lies in the zero page except for the last place.
There the high byte is the one at $0100, so that the pointer wraps only if the byte at $0000 is the
same. Apart from that byte, nothing outside the zero page has a part in it, and the operand and X
have one only through the place. -/
theorem effectiveAddress_indirectX (hLow : cpu.pointerPlace.toUInt16 ≠ randomAddress)
    (hHigh : (cpu.pointerPlace + 1).toUInt16 ≠ randomAddress) :
    let place := cpu.pointerPlace
    let address := (cpu.effectiveAddress .indirectX).1
    (place ≠ 0xFF → address = cpu.memory.wrappedWord place) ∧
      (place = 0xFF → address = word (cpu.memory.stored 0x00FF) (cpu.memory.stored 0x0100)) ∧
      (address = cpu.memory.wrappedWord place ↔
        place ≠ 0xFF ∨ cpu.memory.stored 0x0100 = cpu.memory.stored 0x0000) ∧
      ∀ other : Processor ρ δ, other.pointerPlace = place →
        (∀ cell : Byte,
          other.memory.stored cell.toUInt16 = cpu.memory.stored cell.toUInt16) →
        (place = 0xFF → other.memory.stored 0x0100 = cpu.memory.stored 0x0100) →
        (other.effectiveAddress .indirectX).1 = address := by
  intro place address
  have hAddress : address = cpu.memory.storedWord place.toUInt16 :=
    effectiveAddress_of_place hLow hHigh
  refine ⟨fun hInside => ?_, fun hLast => ?_, ?_, fun other hPlace hPage hBehind => ?_⟩
  · rw [hAddress, Memory.storedWord_of_ne hInside]
  · rw [hAddress, hLast]
    rfl
  · rw [hAddress]
    exact Memory.storedWord_eq_wrappedWord_iff
  · have hOther : (other.effectiveAddress .indirectX).1 =
        other.memory.storedWord other.pointerPlace.toUInt16 :=
      effectiveAddress_of_place (by rwa [hPlace]) (by rwa [hPlace])
    rw [hOther, hPlace, hAddress]
    exact Memory.storedWord_congr hPage hBehind

/-- A pointer whose place wraps to $24, for two programs that have little else in common, and one
at the last place, with the same byte on both sides of the zero page. -/
theorem effectiveAddress_indirectX_wrapped :
    ∃ cpu other last : Processor Congruential (Array (Address × Byte)),
      cpu.fetchByte.1 = 0x80 ∧ cpu.x = 0xA4 ∧ other.fetchByte.1 = 0x10 ∧ other.x = 0x14 ∧
      (cpu.effectiveAddress .indirectX).1 = 0xBEEF ∧
      (other.effectiveAddress .indirectX).1 = 0xBEEF ∧
      last.pointerPlace = 0xFF ∧ (last.effectiveAddress .indirectX).1 = 0x1234 ∧
      (last.effectiveAddress .indirectX).1 = last.memory.wrappedWord 0xFF := by
  let zero : Memory Congruential (Array (Address × Byte)) := .zero (.seeded 1) #[]
  let page := (zero.write 0x0024 0xEF).write 0x0025 0xBE
  let cpu : Processor Congruential (Array (Address × Byte)) :=
    { x := 0xA4, memory := page.write 0x0200 0x80 }
  let other : Processor Congruential (Array (Address × Byte)) :=
    { pc := 0x0300, x := 0x14, memory := (page.write 0x0300 0x10).write 0x0100 0x77 }
  let last : Processor Congruential (Array (Address × Byte)) :=
    { x := 0x7F
      memory := (((zero.write 0x0200 0x80).write 0x00FF 0x34).write 0x0000 0x12).write 0x0100 0x12 }
  have hPlace : cpu.pointerPlace = 0x24 ∧ other.pointerPlace = 0x24 := by decide +kernel
  have hLast : last.pointerPlace = 0xFF := by decide +kernel
  have hCells : cpu.pointerPlace.toUInt16 ≠ randomAddress ∧
      (cpu.pointerPlace + 1).toUInt16 ≠ randomAddress := by
    rw [hPlace.1]
    decide
  have hLastCells : last.pointerPlace.toUInt16 ≠ randomAddress ∧
      (last.pointerPlace + 1).toUInt16 ≠ randomAddress := by
    rw [hLast]
    decide
  obtain ⟨hInside, -, -, hSame⟩ := effectiveAddress_indirectX hCells.1 hCells.2
  obtain ⟨-, hBehind, hWraps, -⟩ := effectiveAddress_indirectX hLastCells.1 hLastCells.2
  have hAddress : (cpu.effectiveAddress .indirectX).1 = 0xBEEF := by
    rw [hInside (by rw [hPlace.1]; decide)]
    decide +kernel
  have hOther : (other.effectiveAddress .indirectX).1 = (cpu.effectiveAddress .indirectX).1 := by
    refine hSame other (hPlace.2.trans hPlace.1.symm) (fun cell => ?_) fun h => ?_
    · have hAway : ∀ address : Address, 0x0100 ≤ address.toNat → cell.toUInt16 ≠ address := by
        rintro address hAddress rfl
        exact absurd cell.toNat_lt (Nat.not_lt.mpr (cell.toNat_toUInt16 ▸ hAddress))
      simp only [cpu, other, Memory.stored_write]
      rw [if_neg (hAway _ (by decide)), if_neg (hAway _ (by decide)), if_neg (hAway _ (by decide))]
    · rw [hPlace.1] at h
      cases h
  refine ⟨cpu, other, last, by decide +kernel, rfl, by decide +kernel, rfl, hAddress,
    hOther.trans hAddress, hLast, ?_, ?_⟩
  · rw [hBehind hLast]
    decide +kernel
  · rw [← hLast]
    exact hWraps.mpr (.inr (by decide +kernel))

/-- At the last place the pointer does not wrap: it is $5634, not $1234, and it changes with a
byte outside the zero page. -/
theorem effectiveAddress_indirectX_last :
    let zero : Memory Congruential (Array (Address × Byte)) := .zero (.seeded 1) #[]
    let page := ((zero.write 0x0200 0x80).write 0x00FF 0x34).write 0x0000 0x12
    let cpu : Processor Congruential (Array (Address × Byte)) :=
      { x := 0x7F, memory := page.write 0x0100 0x56 }
    let other : Processor Congruential (Array (Address × Byte)) :=
      { x := 0x7F, memory := page.write 0x0100 0x99 }
    cpu.pointerPlace = 0xFF ∧ cpu.pointerPlace.toUInt16 ≠ randomAddress ∧
      (cpu.pointerPlace + 1).toUInt16 ≠ randomAddress ∧
      (cpu.effectiveAddress .indirectX).1 = 0x5634 ∧
      cpu.memory.wrappedWord cpu.pointerPlace = 0x1234 ∧
      other.fetchByte.1 = cpu.fetchByte.1 ∧
      (∀ address ≠ 0x0100, other.memory.stored address = cpu.memory.stored address) ∧
      (other.effectiveAddress .indirectX).1 = 0x9934 := by
  intro zero page cpu other
  refine ⟨by decide +kernel, by decide +kernel, by decide +kernel, by decide +kernel,
    by decide +kernel, by decide +kernel, fun address hAway => ?_, by decide +kernel⟩
  simp only [cpu, other, Memory.stored_write, if_neg hAway]

end Processor
end Micro6502
