import Mathlib.Algebra.GroupWithZero.Nat
import Mathlib.Data.List.Induction
import Micro6502.Proofs.Machine.Footprint
import Micro6502.Proofs.Machine.Load

/-! Loading whatever the lines of a program are. They may overlap, go back, or run over the top
of memory; each byte is stored in its turn, so an address keeps the byte that comes last. -/

namespace Micro6502

namespace Assembly

/-- The bytes of a line, each with the address that it goes to. Behind the top of memory comes
the bottom. -/
def CodeLine.stores (line : CodeLine) : List (Address × Byte) :=
  line.bytes.mapIdx fun offset byte => (line.address + .ofNat offset, byte)

/-- The bytes of all lines with their addresses, in program order. -/
def Program.stores (program : Program) : List (Address × Byte) :=
  program.lines.flatMap CodeLine.stores

end Assembly

namespace Bus

variable {β : Type} [Bus β]

/-- Store bytes one after another, each at an address of its own. -/
def storeAll (bus : β) (writes : List (Address × Byte)) : β :=
  writes.foldl (fun bus entry => write bus entry.1 entry.2) bus

/-- Bytes in a row go to addresses in a row, which wrap at the top of memory. -/
theorem writeBytes_eq_storeAll (bus : β) (address : Address) (bytes : List Byte) :
    writeBytes bus address bytes =
      storeAll bus (bytes.mapIdx fun offset byte => (address + .ofNat offset, byte)) := by
  induction bytes generalizing bus address with
  | nil => rfl
  | cons byte bytes ih =>
      have hNext : (fun (offset : Nat) (byte : Byte) => (address + .ofNat (offset + 1), byte)) =
          fun offset byte => (address + 1 + .ofNat offset, byte) := by
        funext offset byte
        rw [Memory.add_one_add_ofNat]
      rw [List.mapIdx_cons, hNext, show address + .ofNat 0 = address from UInt16.add_zero _]
      exact ih _ _

end Bus

/-- Where one line ends and the next one begins does not matter to loading. -/
theorem Assembly.Program.load_eq_storeAll {β : Type} [Bus β] (program : Program) (bus : β) :
    program.load bus = Bus.storeAll bus program.stores := by
  rw [Bus.storeAll, stores, List.foldl_flatMap]
  exact List.foldl_ext _ _ _ fun bus line _ =>
    Bus.writeBytes_eq_storeAll bus line.address line.bytes

namespace Memory

variable {ρ δ : Type} [Screen δ] (memory : Memory ρ δ)

theorem writeAll_append (writes more : List (Address × Byte)) :
    memory.writeAll (writes ++ more) = (memory.writeAll writes).writeAll more := by
  induction writes generalizing memory with
  | nil => rfl
  | cons write rest ih => exact ih _

/-- To store bytes draws no random ones. -/
@[simp] theorem source_writeAll (writes : List (Address × Byte)) :
    (memory.writeAll writes).source = memory.source := by
  induction writes generalizing memory with
  | nil => rfl
  | cons write rest ih => exact ih _

/-- An address holds the last byte that was stored there. -/
theorem stored_writeAll (writes : List (Address × Byte)) (address : Address) :
    (memory.writeAll writes).stored address =
      ((writes.reverse.find? fun write => write.1 = address).map Prod.snd).getD
        (memory.stored address) := by
  -- The last byte is stored on top of all others, so the list is taken apart from its end.
  induction writes using List.reverseRecOn with
  | nil => rfl
  | append_singleton writes write ih =>
      rw [writeAll_append, List.reverse_append, List.reverse_singleton, List.singleton_append,
        List.find?_cons]
      show ((memory.writeAll writes).write write.1 write.2).stored address = _
      rw [stored_write]
      by_cases h : write.1 = address
      · simp [h]
      · rw [if_neg fun hSame => h hSame.symm, ih]
        simp [h]

end Memory

namespace Machine

variable {ρ δ κ : Type} [ByteSource ρ] [Screen δ]

/-- Bytes that are stored through a machine go to its memory and change nothing else. -/
theorem storeAll_eq (m : Machine ρ δ κ) (writes : List (Address × Byte)) :
    Bus.storeAll m writes =
      { m with cpu := { m.cpu with memory := m.cpu.memory.writeAll writes } } := by
  induction writes generalizing m with
  | nil => rfl
  | cons write rest ih => exact ih _

/-- After a program has been loaded, each address holds the byte that was stored there last, or
the byte from before if there was none. The screen has been told of the bytes for the display
window, in order. The registers, the run state and all else are as they were, the random source
with them. -/
theorem load_last_stands (program : Assembly.Program) (m : Machine ρ δ κ) :
    let loaded := program.load m
    (∀ address, loaded.cpu.memory.stored address =
      ((program.stores.reverse.find? fun write => write.1 = address).map Prod.snd).getD
        (m.cpu.memory.stored address)) ∧
    loaded.cpu.memory.screen = (program.stores.filter fun write => inWindow write.1).foldl
      (fun screen write => Screen.paint screen write.1 write.2) m.cpu.memory.screen ∧
    loaded.cpu.memory.source = m.cpu.memory.source ∧
    loaded.cpu.toRegisters = m.cpu.toRegisters ∧
    loaded = { m with cpu := loaded.cpu } ∧
    program.byteCount = (program.lines.map fun line => line.bytes.length).sum := by
  have hLoaded : program.load m =
      { m with cpu := { m.cpu with memory := m.cpu.memory.writeAll program.stores } } := by
    rw [program.load_eq_storeAll, storeAll_eq]
  dsimp only
  rw [hLoaded]
  exact ⟨m.cpu.memory.stored_writeAll program.stores, Memory.screen_writeAll program.stores,
    m.cpu.memory.source_writeAll program.stores, rfl, rfl, List.length_flatMap⟩

/-- A line that runs over the top of memory, and a second one on top of what it left there. -/
example :
    ((Assembly.assemble "*=$FFFF\nDCB 1,2\n*=0\nDCB 3".toList).toOption.map fun program =>
      let m : Machine Congruential (Array (Address × Byte)) Unit :=
        program.load (around { memory := .zero (.seeded 1) #[] } ())
      (m.cpu.memory.stored 0x0000, m.cpu.memory.screen, program.byteCount)) =
      some (3, #[(0xFFFF, 1)], 3) := by
  decide +kernel

end Machine
end Micro6502
