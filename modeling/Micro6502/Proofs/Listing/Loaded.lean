import Micro6502.Proofs.Assembly.Placement
import Micro6502.Proofs.Listing.Walk
import Micro6502.Proofs.Machine.Load

/-! The listing of a loaded program. A decoder finds the boundaries between instructions
again from the opcodes alone, since every line of code that is not a directive is as long as
the table says for its opcode. -/

namespace Micro6502

-- What the table says is known from its lemmas; nothing here looks into it.
attribute [local irreducible] Catalog.decode

namespace Assembly

/-- A line of code that decoding its first byte leads back to. -/
structure CodeLine.Executable (code : CodeLine) : Prop where
  head : code.bytes.head? = some code.descriptor.opcode
  decoded : Catalog.decode code.descriptor.opcode = code.descriptor
  size : code.bytes.length = code.descriptor.size

theorem CodeLine.Executable.bytes_eq {code : CodeLine} (h : code.Executable) :
    code.bytes = code.descriptor.opcode :: code.bytes.tail := by
  obtain ⟨operand, hBytes⟩ := List.head?_eq_some_iff.mp h.head
  rw [hBytes, List.tail_cons]

/-- A walk places every line that it meets. -/
theorem Walk.placed {labels : List Label} {line : Nat} {place last : Place}
    {sources : List Text} {lines : List CodeLine} (h : Walk labels line place sources lines last)
    {code : CodeLine} (hCode : code ∈ lines) :
    ∃ line counter mnemonic, code.Placed line counter mnemonic := by
  induction h with
  | done => cases hCode
  | blank _ _ ih | silent _ _ _ _ ih => exact ih hCode
  | code _ _ _ hPlaced _ ih =>
      rcases List.mem_cons.mp hCode with rfl | hCode
      · exact ⟨_, _, _, hPlaced⟩
      · exact ih hCode

/-- Every line of the finished program has a place on the walk through its source. -/
theorem Assembles.placed {source : Text} {layout : Layout} {program : Program}
    (h : Assembles source layout program) {code : CodeLine} (hCode : code ∈ program.lines) :
    ∃ line counter mnemonic, code.Placed line counter mnemonic := by
  have hLabels : ∀ label ∈ layout.symbols.labels, label.dependency = none →
      (layout.symbols.labels.filter fun other => other.name = label.name) = [label] :=
    fun label hMem _ => filter_eq_singleton h.orderly.distinct hMem
  exact (Layout.walk_of_addLines h.laidOut hLabels (List.nil_append _) h.lines).placed hCode

/-- Every line of an accepted source text is an instruction or a directive. -/
theorem executable_of_assemble {source : Text} {program : Program}
    (h : assemble source = .ok program) {code : CodeLine} (hCode : code ∈ program.lines)
    (hInstruction : code.descriptor.operation ≠ .dcb) : code.Executable := by
  obtain ⟨layout, hAssembles⟩ := exists_layout h
  obtain ⟨_, _, _, hPlaced⟩ := hAssembles.placed hCode
  obtain ⟨hHead, hDecoded⟩ := hPlaced.instruction hInstruction
  exact ⟨hHead, hDecoded, hPlaced.size⟩

end Assembly

namespace Listing

open Assembly

variable {ρ δ κ : Type} [ByteSource ρ] [Screen δ] {m : Machine ρ δ κ}

/-- Decoding stores nothing. -/
theorem stored_decodeAt (m : Machine ρ δ κ) (address place : Address) :
    (decodeAt m address).2.cpu.memory.stored place = m.cpu.memory.stored place := by
  calc (decodeAt m address).2.cpu.memory.stored place
      = (Bus.read (Bus.read (Bus.read m address).2 (address + 1)).2
          (address + 2)).2.cpu.memory.stored place := rfl
    _ = m.cpu.memory.stored place := by simp only [Machine.stored_read]

/-- The operand bytes of an instruction are listed as they are stored. What is read behind
them may be a random byte, but the instruction does not use it. -/
theorem take_decodeAt {address : Address} {opcode : Byte} {operand : List Byte}
    (h : m.cpu.memory.Holds address (opcode :: operand)) (hLength : operand.length ≤ 2) :
    [(decodeAt m address).1.operand.first, (decodeAt m address).1.operand.second].take
      operand.length = operand := by
  have hFirst : (decodeAt m address).1.operand.first =
      (Bus.read (Bus.read m address).2 (address + 1)).1 := rfl
  have hSecond : (decodeAt m address).1.operand.second =
      (Bus.read (Bus.read (Bus.read m address).2 (address + 1)).2 (address + 2)).1 := rfl
  match operand, h, hLength with
  | [], _, _ => rfl
  | [first], ⟨_, _, hCell, hByte, _⟩, _ =>
      rw [hFirst, Machine.read_eq_stored hCell, Machine.stored_read, hByte]
      rfl
  | [first, second], ⟨_, _, hCell, hByte, hCells⟩, _ =>
      rw [add_one_add_one] at hCells
      obtain ⟨hNext, hLast, _⟩ := hCells
      rw [hFirst, hSecond, Machine.read_eq_stored hCell, Machine.read_eq_stored hNext,
        Machine.stored_read, Machine.stored_read, Machine.stored_read, hByte, hLast]
      rfl

/-- Decoding a line of code where it is stored gives that line. -/
theorem shows_decodeAt {code : CodeLine} (hCode : code.Executable)
    (h : m.cpu.memory.Holds code.address code.bytes) :
    (decodeAt m code.address).1.Shows code := by
  rw [hCode.bytes_eq] at h
  have hDescriptor : (decodeAt m code.address).1.descriptor = code.descriptor := by
    rw [descriptor_decodeAt, Machine.read_eq_stored h.1, h.2.1, hCode.decoded]
  have hSize : (decodeAt m code.address).1.size - 1 = code.bytes.tail.length := by
    rw [Instruction.size, hDescriptor, ← hCode.size, List.length_tail]
  have hLength : code.bytes.tail.length ≤ 2 := by
    have hBound := Catalog.size_decode_le code.descriptor.opcode
    rw [hCode.decoded, ← hCode.size] at hBound
    rw [List.length_tail]
    omega
  refine ⟨address_decodeAt m code.address, hDescriptor, ?_⟩
  rw [Instruction.bytes, hSize, take_decodeAt h hLength, hDescriptor, ← hCode.bytes_eq]

/-- Over instructions that adjoin, as long as they are in memory, the listing keeps step. -/
theorem forall₂_disassembleFrom {place : Nat} {lines : List CodeLine}
    (hAdjoin : Adjoining place lines) (hLines : ∀ code ∈ lines, code.Executable)
    (h : m.cpu.memory.Holds (.ofNat place) (lines.flatMap CodeLine.bytes)) :
    List.Forall₂ Instruction.Shows (disassembleFrom place m lines.length).1 lines := by
  induction lines generalizing place m with
  | nil => exact .nil
  | cons code rest ih =>
      have hCode := hLines code List.mem_cons_self
      obtain ⟨hFirst, hRest⟩ := hAdjoin
      have hPlace : UInt16.ofNat place = code.address := by rw [← hFirst, UInt16.ofNat_toNat]
      rw [List.flatMap_cons, hPlace] at h
      obtain ⟨hBytes, hMore⟩ := h.of_append
      have hShows := shows_decodeAt hCode hBytes
      have hSize : (decodeAt m code.address).1.size = code.bytes.length := by
        rw [Instruction.size, hShows.descriptor, hCode.size]
      rw [List.length_cons, disassembleFrom_succ (hFirst ▸ code.address.toNat_lt), hPlace, hSize]
      refine .cons hShows (ih hRest (fun other hOther => hLines other (.tail _ hOther)) ?_)
      rw [UInt16.ofNat_add, hPlace]
      exact hMore.of_stored (stored_decodeAt m code.address)

/-- A program whose lines are instructions that adjoin is listed as it was assembled, once it
has been loaded into any machine. -/
theorem disassemble_load {source : Text} {program : Program} {start : Address}
    (h : assemble source = .ok program)
    (hInstructions : ∀ code ∈ program.lines, code.descriptor.operation ≠ .dcb)
    (hAdjoin : Adjoining start.toNat program.lines)
    (hRandom : ∀ code ∈ program.lines, code.AvoidsRandom) (m : Machine ρ δ κ) :
    List.Forall₂ Instruction.Shows
      (disassemble (program.load m) start program.lines.length).1 program.lines := by
  have hLoad : program.load m =
      Bus.writeBytes m start (program.lines.flatMap CodeLine.bytes) := by
    rw [Program.load, hAdjoin.load_eq, UInt16.ofNat_toNat]
  have hLength : (program.lines.flatMap CodeLine.bytes).length ≤ 0x10000 := by
    have hEnd := hAdjoin.length_le
    omega
  have hHolds := Machine.holds_writeBytes m hLength (hAdjoin.avoidsRandom hRandom)
  rw [disassemble, hLoad]
  refine forall₂_disassembleFrom hAdjoin
    (fun code hCode => executable_of_assemble h hCode (hInstructions code hCode)) ?_
  rw [UInt16.ofNat_toNat] at hHolds ⊢
  exact hHolds

/-- A program right below the random address. Decoding its last line draws a random byte. -/
theorem disassemble_load_below_random :
    ∃ (program : Program) (m : Machine Congruential Unit Unit),
      assemble "*=$00F8\nLOOP: BNE END\nDEC LOOP\nEND: RTS".toList = .ok program ∧
      (program.lines.map CodeLine.bytes) = [[0xD0, 0x02], [0xC6, 0xF8], [0x60]] ∧
      List.Forall₂ Instruction.Shows
        (disassemble (program.load m) 0x00F8 program.lines.length).1 program.lines := by
  obtain ⟨program, h, hBytes, hInstructions, hAdjoin, hRandom⟩ : ∃ program,
      assemble "*=$00F8\nLOOP: BNE END\nDEC LOOP\nEND: RTS".toList = .ok program ∧
      program.lines.map CodeLine.bytes = [[0xD0, 0x02], [0xC6, 0xF8], [0x60]] ∧
      (∀ code ∈ program.lines, code.descriptor.operation ≠ .dcb) ∧
      Adjoining (0x00F8 : Address).toNat program.lines ∧
      ∀ code ∈ program.lines, code.AvoidsRandom :=
    ⟨_, rfl, by decide, by decide, by decide, by decide⟩
  exact ⟨program, .start {} (.seeded 1) () (), h, hBytes,
    disassemble_load h hInstructions hAdjoin hRandom _⟩

end Listing
end Micro6502
