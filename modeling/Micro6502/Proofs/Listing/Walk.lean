import Micro6502.Assembly.CodeLine
import Micro6502.Listing.Walk

/-! Listings line by line: how a listing is taken apart at its first line, and what each line
says of the bytes that it stands for. -/

namespace Micro6502.Listing

/-- The bytes that an instruction takes in memory. Of the two behind the opcode these are as
many as its size leaves room for. -/
def Instruction.bytes (instruction : Instruction) : List Byte :=
  instruction.descriptor.opcode ::
    [instruction.operand.first, instruction.operand.second].take (instruction.size - 1)

/-- A line of a listing shows a line of code. -/
structure Instruction.Shows (instruction : Instruction) (code : Assembly.CodeLine) : Prop where
  address : instruction.address = code.address
  descriptor : instruction.descriptor = code.descriptor
  bytes : instruction.bytes = code.bytes

variable {β : Type} [Bus β]

@[simp] theorem address_decodeAt (bus : β) (address : Address) :
    (decodeAt bus address).1.address = address := rfl

@[simp] theorem descriptor_decodeAt (bus : β) (address : Address) :
    (decodeAt bus address).1.descriptor = Catalog.decode (Bus.read bus address).1 := rfl

/-- A listing from a place in memory starts with the instruction there and goes on behind it, with
the bus as reading it has left it. -/
theorem disassembleFrom_succ {place : Nat} (h : place < 0x10000) (bus : β) (limit : Nat) :
    (disassembleFrom place bus (limit + 1)).1 =
      (decodeAt bus (.ofNat place)).1 ::
        (disassembleFrom (place + (decodeAt bus (.ofNat place)).1.size)
          (decodeAt bus (.ofNat place)).2 limit).1 := by
  rw [disassembleFrom, if_pos h]

theorem disassembleFrom_of_le {place : Nat} (h : 0x10000 ≤ place) (bus : β) (limit : Nat) :
    (disassembleFrom place bus limit).1 = [] := by
  cases limit with
  | zero => rfl
  | succ limit => rw [disassembleFrom, if_neg (Nat.not_lt.mpr h)]

/-- What is listed has been decoded from an opcode. -/
theorem exists_opcode {place limit : Nat} {bus : β} {instruction : Instruction}
    (h : instruction ∈ (disassembleFrom place bus limit).1) :
    ∃ opcode, instruction.descriptor = Catalog.decode opcode := by
  induction limit generalizing place bus with
  | zero => cases h
  | succ limit ih =>
      rcases Nat.lt_or_ge place 0x10000 with hPlace | hPlace
      · rw [disassembleFrom_succ hPlace] at h
        rcases List.mem_cons.mp h with rfl | h
        · exact ⟨_, descriptor_decodeAt bus (.ofNat place)⟩
        · exact ih h
      · rw [disassembleFrom_of_le hPlace] at h
        cases h

/-- The second line of a listing starts where the first one ends. -/
theorem disassemble_second {bus : β} {start : Address}
    (h : start.toNat + (decodeAt bus start).1.size < 0x10000) (limit : Nat) :
    ∃ second rest, (disassemble bus start (limit + 2)).1 =
        (decodeAt bus start).1 :: second :: rest ∧
      second.address = start + .ofNat (decodeAt bus start).1.size := by
  rw [disassemble, disassembleFrom_succ start.toNat_lt, UInt16.ofNat_toNat, disassembleFrom_succ h]
  refine ⟨_, _, rfl, ?_⟩
  rw [address_decodeAt, UInt16.ofNat_add, UInt16.ofNat_toNat]

end Micro6502.Listing
