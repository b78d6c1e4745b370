import Micro6502.Machine.Processor

/-! Reads that find what is stored. Away from the random address a read has no effect of
its own, so fetching moves the program counter and nothing else. -/

namespace Micro6502

theorem add_one_add_one (address : Address) : address + 1 + 1 = address + 2 := by
  rw [UInt16.add_assoc]
  rfl

namespace Memory

variable {ρ δ : Type}

/-- Successive cells hold the given bytes, and none of the cells is the random one. The
cell behind the top of memory is the one at zero. -/
def Holds (memory : Memory ρ δ) : Address → List Byte → Prop
  | _, [] => True
  | address, byte :: bytes => address ≠ randomAddress ∧ memory.stored address = byte ∧
      memory.Holds (address + 1) bytes

/-- The word stored in two successive cells. -/
def storedWord (memory : Memory ρ δ) (address : Address) : Address :=
  word (memory.stored address) (memory.stored (address + 1))

end Memory

namespace Processor

variable {ρ δ : Type} {cpu : Processor ρ δ}

@[simp] theorem pc_jump (cpu : Processor ρ δ) (target : Address) :
    (cpu.jump target).pc = target := rfl

@[simp] theorem x_jump (cpu : Processor ρ δ) (target : Address) :
    (cpu.jump target).x = cpu.x := rfl

@[simp] theorem y_jump (cpu : Processor ρ δ) (target : Address) :
    (cpu.jump target).y = cpu.y := rfl

@[simp] theorem jump_jump (cpu : Processor ρ δ) (first second : Address) :
    (cpu.jump first).jump second = cpu.jump second := rfl

variable [ByteSource ρ]

/-- Elsewhere than at the random address, a read leaves the processor alone. -/
theorem read_eq {address : Address} (h : address ≠ randomAddress) :
    cpu.read address = (cpu.memory.stored address, cpu) := by
  rw [read, cpu.memory.value_of_ne h, cpu.memory.afterRead_of_ne h]

/-- The byte at the program counter is fetched as it is stored. -/
theorem fetchByte_eq {byte : Byte} {bytes : List Byte}
    (h : cpu.memory.Holds cpu.pc (byte :: bytes)) :
    cpu.fetchByte = (byte, cpu.jump (cpu.pc + 1)) := by
  obtain ⟨hCell, hByte, -⟩ := h
  rw [fetchByte, read_eq hCell, hByte]

theorem fetchWord_eq {low high : Byte} {bytes : List Byte}
    (h : cpu.memory.Holds cpu.pc (low :: high :: bytes)) :
    cpu.fetchWord = (word low high, cpu.jump (cpu.pc + 2)) := by
  have hNext : (cpu.jump (cpu.pc + 1)).memory.Holds (cpu.jump (cpu.pc + 1)).pc
      (high :: bytes) := h.2.2
  rw [fetchWord, fetchByte_eq h]
  simp only
  rw [fetchByte_eq hNext]
  simp only [pc_jump, jump_jump, add_one_add_one]

/-- A word is read as it is stored, if neither of its cells is the random one. -/
theorem readWord_eq [Screen δ] {cell : Address} (hLow : cell ≠ randomAddress)
    (hHigh : cell + 1 ≠ randomAddress) :
    Bus.readWord cpu cell = (cpu.memory.storedWord cell, cpu) := by
  have hFirst : Bus.read cpu cell = (cpu.memory.stored cell, cpu) := read_eq hLow
  have hSecond : Bus.read cpu (cell + 1) = (cpu.memory.stored (cell + 1), cpu) := read_eq hHigh
  rw [Bus.readWord, hFirst]
  simp only
  rw [hSecond]
  rfl

end Processor
end Micro6502
