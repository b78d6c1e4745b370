import Mathlib.Logic.Basic
import Micro6502.Assembly.Program
import Micro6502.Listing.Walk

/-! Two buses side by side. If no single access tells them apart, then neither does anything
that is made of accesses: words, listings, and programs that are loaded. -/

namespace Micro6502

/-- The same answer, with related states behind it. -/
structure Agree {α σ : Type} (R : σ → σ → Prop) (first second : α × σ) : Prop where
  answer : first.1 = second.1
  state : R first.2 second.2

namespace Bus

variable {β : Type} [Bus β]

/-- A relation that no access reveals: related buses have the same bytes, and what accesses
leave behind is related again. -/
structure Simulation (R : β → β → Prop) : Prop where
  read : ∀ {bus other : β}, R bus other → ∀ address, Agree R (read bus address) (read other address)
  write : ∀ {bus other : β}, R bus other → ∀ address byte,
    R (write bus address byte) (write other address byte)

namespace Simulation

variable {R : β → β → Prop} (hR : Simulation R) {bus other : β}

include hR

/-- A word is two reads, so related buses give the same word. -/
theorem readWord (h : R bus other) (address : Address) :
    Agree R (Bus.readWord bus address) (Bus.readWord other address) := by
  have hLow := hR.read h address
  have hHigh := hR.read hLow.state (address + 1)
  exact ⟨congrArg₂ word hLow.answer hHigh.answer, hHigh.state⟩

theorem readBytes (h : R bus other) (address : Address) (count : Nat) :
    Agree R (Bus.readBytes bus address count) (Bus.readBytes other address count) := by
  induction count generalizing bus other address with
  | zero => exact ⟨rfl, h⟩
  | succ count ih =>
      have hFirst := hR.read h address
      have hRest := ih hFirst.state (address + 1)
      exact ⟨congrArg₂ List.cons hFirst.answer hRest.answer, hRest.state⟩

theorem writeBytes (h : R bus other) (address : Address) (bytes : List Byte) :
    R (Bus.writeBytes bus address bytes) (Bus.writeBytes other address bytes) := by
  induction bytes generalizing bus other address with
  | nil => exact h
  | cons byte bytes ih => exact ih (hR.write h address byte) (address + 1)

/-- A program is stored line by line, and every line is bytes in a row. -/
theorem load (h : R bus other) (program : Assembly.Program) :
    R (program.load bus) (program.load other) := by
  unfold Assembly.Program.load
  induction program.lines generalizing bus other with
  | nil => exact h
  | cons line rest ih => exact ih (hR.writeBytes h line.address line.bytes)

/-- An instruction of a listing is three reads, whatever its size is. -/
theorem decodeAt (h : R bus other) (address : Address) :
    Agree R (Listing.decodeAt bus address) (Listing.decodeAt other address) := by
  have hOpcode := hR.read h address
  have hFirst := hR.read hOpcode.state (address + 1)
  have hSecond := hR.read hFirst.state (address + 2)
  refine ⟨?_, hSecond.state⟩
  simp only [Listing.decodeAt, hOpcode.answer, hFirst.answer, hSecond.answer]

/-- A listing reads one instruction after another. The state in front of each is related again,
and the instructions are the same, so both listings come to their end at the same place. -/
theorem disassembleFrom (h : R bus other) (place limit : Nat) :
    Agree R (Listing.disassembleFrom place bus limit)
      (Listing.disassembleFrom place other limit) := by
  induction limit generalizing bus other place with
  | zero => exact ⟨rfl, h⟩
  | succ limit ih =>
      simp only [Listing.disassembleFrom]
      split
      · have hFirst := hR.decodeAt h (.ofNat place)
        rw [hFirst.answer]
        have hRest := ih hFirst.state
          (place + (Listing.decodeAt other (.ofNat place)).1.size)
        exact ⟨congrArg (List.cons _) hRest.answer, hRest.state⟩
      · exact ⟨rfl, h⟩

/-- The text of a listing is made of its instructions alone. -/
theorem decompile (h : R bus other) (start : Address) (limit : Nat) :
    Agree R (Listing.decompile bus start limit) (Listing.decompile other start limit) := by
  have hWalk := hR.disassembleFrom h start.toNat limit
  refine ⟨?_, hWalk.state⟩
  simp only [Listing.decompile, Listing.disassemble, hWalk.answer]

/-- A row is eight bytes, and where the next one starts does not depend on them. -/
theorem rowsFrom (h : R bus other) (place limit : Nat) :
    Agree R (Listing.rowsFrom place bus limit) (Listing.rowsFrom place other limit) := by
  induction limit generalizing bus other place with
  | zero => exact ⟨rfl, h⟩
  | succ limit ih =>
      simp only [Listing.rowsFrom]
      split
      · have hRow := hR.readBytes h (.ofNat place) Listing.rowBytes
        have hRest := ih hRow.state (place + Listing.rowBytes)
        exact ⟨congrArg₂ (fun bytes rows => Listing.formatRow (.ofNat place) bytes :: rows)
          hRow.answer hRest.answer, hRest.state⟩
      · exact ⟨rfl, h⟩

theorem dump (h : R bus other) (start : Address) (limit : Nat) :
    Agree R (Listing.dump bus start limit) (Listing.dump other start limit) := by
  have hRows := hR.rowsFrom h start.toNat limit
  exact ⟨congrArg (Text.joinWith Listing.lineBreak) hRows.answer, hRows.state⟩

end Simulation

/-- A property that no access destroys. -/
structure Keeps (P : β → Prop) : Prop where
  read : ∀ {bus : β}, P bus → ∀ address, P (read bus address).2
  write : ∀ {bus : β}, P bus → ∀ address byte, P (write bus address byte)

namespace Keeps

variable {P : β → Prop} (hP : Keeps P) {bus : β}

include hP

/-- A bus with the property, next to itself. -/
theorem simulation : Simulation fun bus other : β => bus = other ∧ P bus where
  read := by
    rintro bus _ ⟨rfl, h⟩ address
    exact ⟨rfl, rfl, hP.read h address⟩
  write := by
    rintro bus _ ⟨rfl, h⟩ address byte
    exact ⟨rfl, hP.write h address byte⟩

theorem readWord (h : P bus) (address : Address) : P (Bus.readWord bus address).2 :=
  hP.read (hP.read h address) (address + 1)

theorem load (h : P bus) (program : Assembly.Program) : P (program.load bus) :=
  (hP.simulation.load ⟨rfl, h⟩ program).2

theorem decompile (h : P bus) (start : Address) (limit : Nat) :
    P (Listing.decompile bus start limit).2 :=
  (hP.simulation.decompile ⟨rfl, h⟩ start limit).state.2

theorem dump (h : P bus) (start : Address) (limit : Nat) : P (Listing.dump bus start limit).2 :=
  (hP.simulation.dump ⟨rfl, h⟩ start limit).state.2

end Keeps
end Bus
end Micro6502
