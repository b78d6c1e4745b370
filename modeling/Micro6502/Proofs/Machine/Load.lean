import Micro6502.Assembly.Program
import Micro6502.Machine.Basic
import Micro6502.Proofs.Machine.Fetch

/-! Code in memory. Lines that adjoin are loaded as one run of bytes; a run that does not
come round to its own start is then found in memory as it was written. -/

namespace Micro6502

namespace Memory

variable {ρ δ : Type} {memory other : Memory ρ δ}

theorem Holds.of_stored (h : ∀ address, other.stored address = memory.stored address)
    {address : Address} {bytes : List Byte} (hHolds : memory.Holds address bytes) :
    other.Holds address bytes := by
  induction bytes generalizing address with
  | nil => trivial
  | cons byte bytes ih =>
      obtain ⟨hCell, hByte, hRest⟩ := hHolds
      exact ⟨hCell, (h address).trans hByte, ih hRest⟩

theorem add_one_add_ofNat (address : Address) (count : Nat) :
    address + 1 + .ofNat count = address + .ofNat (count + 1) := by
  rw [UInt16.add_assoc, Nat.add_comm, UInt16.ofNat_add]
  rfl

/-- Bytes in a row are held piece by piece, and the second piece lies behind the first. -/
theorem Holds.of_append {address : Address} {bytes more : List Byte}
    (h : memory.Holds address (bytes ++ more)) :
    memory.Holds address bytes ∧ memory.Holds (address + .ofNat bytes.length) more := by
  induction bytes generalizing address with
  | nil => exact ⟨trivial, by rwa [List.length_nil, show address + .ofNat 0 = address from
      UInt16.add_zero _]⟩
  | cons byte bytes ih =>
      obtain ⟨hCell, hByte, hRest⟩ := h
      obtain ⟨hBytes, hMore⟩ := ih hRest
      rw [add_one_add_ofNat] at hMore
      exact ⟨⟨hCell, hByte, hBytes⟩, hMore⟩

end Memory

namespace Bus

variable {β : Type} [Bus β]

theorem writeBytes_append (bus : β) (address : Address) (bytes more : List Byte) :
    writeBytes bus address (bytes ++ more) =
      writeBytes (writeBytes bus address bytes) (address + .ofNat bytes.length) more := by
  induction bytes generalizing bus address with
  | nil =>
      rw [List.length_nil, show address + .ofNat 0 = address from UInt16.add_zero _]
      rfl
  | cons byte bytes ih =>
      rw [List.length_cons, ← Memory.add_one_add_ofNat]
      exact ih _ _

end Bus

namespace Assembly

/-- Each line starts where the one before it ends, the first one at `place`, and the last one
does not reach beyond the top of memory. -/
def Adjoining (place : Nat) : List CodeLine → Prop
  | [] => place ≤ 0x10000
  | line :: rest => line.address.toNat = place ∧ Adjoining (place + line.bytes.length) rest

instance decidableAdjoining : (place : Nat) → (lines : List CodeLine) →
    Decidable (Adjoining place lines)
  | place, [] => inferInstanceAs (Decidable (place ≤ 0x10000))
  | place, line :: rest =>
    have := decidableAdjoining (place + line.bytes.length) rest
    inferInstanceAs (Decidable (line.address.toNat = place ∧ _))

/-- All together, lines that adjoin fit in the memory behind their start. -/
theorem Adjoining.length_le {place : Nat} {lines : List CodeLine} (h : Adjoining place lines) :
    place + (lines.flatMap CodeLine.bytes).length ≤ 0x10000 := by
  induction lines generalizing place with
  | nil => exact h
  | cons line rest ih =>
      have hRest := ih h.2
      rw [List.flatMap_cons, List.length_append]
      omega

/-- Loading lines that adjoin is writing their bytes in one go. -/
theorem Adjoining.load_eq {β : Type} [Bus β] {place : Nat} {lines : List CodeLine}
    (h : Adjoining place lines) (bus : β) :
    lines.foldl (fun bus line => Bus.writeBytes bus line.address line.bytes) bus =
      Bus.writeBytes bus (.ofNat place) (lines.flatMap CodeLine.bytes) := by
  induction lines generalizing place bus with
  | nil => rfl
  | cons line rest ih =>
      obtain ⟨hStart, hRest⟩ := h
      rw [List.foldl_cons, ih hRest, List.flatMap_cons, Bus.writeBytes_append, UInt16.ofNat_add,
        ← hStart, UInt16.ofNat_toNat]

/-- No byte of a line is stored at the random address. -/
def CodeLine.AvoidsRandom (line : CodeLine) : Prop :=
  ∀ offset < line.bytes.length, line.address + .ofNat offset ≠ randomAddress

instance (line : CodeLine) : Decidable line.AvoidsRandom :=
  inferInstanceAs (Decidable (∀ offset < line.bytes.length, _))

/-- The bytes of all lines avoid the random address if those of each line do. -/
theorem Adjoining.avoidsRandom {place : Nat} {lines : List CodeLine} (h : Adjoining place lines)
    (hLines : ∀ line ∈ lines, line.AvoidsRandom) :
    ∀ offset < (lines.flatMap CodeLine.bytes).length,
      UInt16.ofNat place + .ofNat offset ≠ randomAddress := by
  induction lines generalizing place with
  | nil => exact fun offset hOffset => absurd hOffset (Nat.not_lt_zero offset)
  | cons line rest ih =>
      obtain ⟨hStart, hRest⟩ := h
      intro offset hOffset
      rw [List.flatMap_cons, List.length_append] at hOffset
      rcases Nat.lt_or_ge offset line.bytes.length with hLine | hLine
      · rw [← hStart, UInt16.ofNat_toNat]
        exact hLines line List.mem_cons_self offset hLine
      · have hLater := ih hRest (fun other hOther => hLines other (.tail _ hOther))
          (offset - line.bytes.length) (by omega)
        rwa [← UInt16.ofNat_add, Nat.add_assoc, Nat.add_sub_cancel' hLine, UInt16.ofNat_add]
          at hLater

end Assembly

namespace Machine

variable {ρ δ κ : Type} [ByteSource ρ] [Screen δ] {m : Machine ρ δ κ}

/-- Away from the random address a read shows what is stored. -/
theorem read_eq_stored {address : Address} (h : address ≠ randomAddress) :
    (Bus.read m address).1 = m.cpu.memory.stored address :=
  m.cpu.memory.value_of_ne h

/-- A read stores nothing, also where it draws a random byte. -/
@[simp] theorem stored_read (m : Machine ρ δ κ) (address place : Address) :
    (Bus.read m address).2.cpu.memory.stored place = m.cpu.memory.stored place :=
  m.cpu.memory.stored_afterRead address place

/-- An address that no byte is written to keeps its own. -/
theorem stored_writeBytes_of_ne {address place : Address}
    {bytes : List Byte} (h : ∀ offset < bytes.length, place ≠ address + .ofNat offset) :
    (Bus.writeBytes m address bytes).cpu.memory.stored place = m.cpu.memory.stored place := by
  induction bytes generalizing m address with
  | nil => rfl
  | cons byte bytes ih =>
      have hFirst : place ≠ address := by
        simpa using h 0 (Nat.succ_pos _)
      have hRest : ∀ offset < bytes.length, place ≠ address + 1 + .ofNat offset := by
        intro offset hOffset
        rw [Memory.add_one_add_ofNat]
        exact h (offset + 1) (Nat.succ_lt_succ hOffset)
      rw [Bus.writeBytes, ih hRest]
      exact (m.cpu.memory.stored_write address place byte).trans (if_neg hFirst)

/-- What has been written is there, as long as it does not come round to its own start. -/
theorem holds_writeBytes (m : Machine ρ δ κ) {address : Address} {bytes : List Byte}
    (hLength : bytes.length ≤ 0x10000)
    (hCells : ∀ offset < bytes.length, address + .ofNat offset ≠ randomAddress) :
    (Bus.writeBytes m address bytes).cpu.memory.Holds address bytes := by
  induction bytes generalizing m address with
  | nil => trivial
  | cons byte bytes ih =>
      rw [List.length_cons] at hLength
      have hFirst : address ≠ randomAddress := by
        simpa using hCells 0 (Nat.succ_pos _)
      have hRest : ∀ offset < bytes.length, address + 1 + .ofNat offset ≠ randomAddress := by
        intro offset hOffset
        rw [Memory.add_one_add_ofNat]
        exact hCells (offset + 1) (Nat.succ_lt_succ hOffset)
      have hKept : ∀ offset < bytes.length, address ≠ address + 1 + .ofNat offset := by
        intro offset hOffset hSame
        have hNat := congrArg UInt16.toNat hSame
        rw [Memory.add_one_add_ofNat, UInt16.toNat_add, UInt16.toNat_ofNat'] at hNat
        have hAddress := address.toNat_lt
        omega
      refine ⟨hFirst, ?_, ih _ (by omega) hRest⟩
      rw [Bus.writeBytes, stored_writeBytes_of_ne hKept]
      exact (m.cpu.memory.stored_write address address byte).trans (if_pos rfl)

end Machine
end Micro6502
