import Micro6502.Proofs.Assembly.Program
import Micro6502.Proofs.Instruction.Branch
import Micro6502.Proofs.Listing.Source
import Micro6502.Proofs.Listing.Walk

/-! From a listing back to code. The text of an instruction is read as an operand from which
the encoder chooses a form, and it chooses the form that was listed unless a shorter or a
longer one has the same text. Line by line, the location counter of the assembler then goes
where the listing went. -/

namespace Micro6502.Listing

open Text Assembly

namespace Instruction

/-- Whether the operation of an instruction exists in some mode. -/
def HasForm (instruction : Instruction) (mode : AddressingMode) : Prop :=
  ∃ d ∈ Catalog.all, d.mnemonic = instruction.descriptor.mnemonic ∧ d.mode = mode

/-- The text of an instruction stands for no other form of it. An index makes an operand
absolute if it can, and an address in the zero page makes it zero-page if it can. -/
structure Unambiguous (instruction : Instruction) : Prop where
  valid : instruction.descriptor.isInvalid = false
  zeroPageX : instruction.descriptor.mode = .zeroPageX → ¬ instruction.HasForm .absoluteX
  zeroPageY : instruction.descriptor.mode = .zeroPageY → ¬ instruction.HasForm .absoluteY
  absolute : instruction.descriptor.mode = .absolute → instruction.operand.second = 0 →
    ¬ instruction.HasForm .zeroPage

instance (instruction : Instruction) (mode : AddressingMode) :
    Decidable (instruction.HasForm mode) :=
  inferInstanceAs (Decidable (∃ d ∈ Catalog.all, _))

/-- The conditions one by one, as they are decided. -/
theorem unambiguous_iff {instruction : Instruction} : instruction.Unambiguous ↔
    instruction.descriptor.isInvalid = false ∧
    (instruction.descriptor.mode = .zeroPageX → ¬ instruction.HasForm .absoluteX) ∧
    (instruction.descriptor.mode = .zeroPageY → ¬ instruction.HasForm .absoluteY) ∧
    (instruction.descriptor.mode = .absolute → instruction.operand.second = 0 →
      ¬ instruction.HasForm .zeroPage) :=
  ⟨fun ⟨hValid, hX, hY, hAbsolute⟩ => ⟨hValid, hX, hY, hAbsolute⟩,
    fun ⟨hValid, hX, hY, hAbsolute⟩ => ⟨hValid, hX, hY, hAbsolute⟩⟩

instance (instruction : Instruction) : Decidable instruction.Unambiguous :=
  decidable_of_iff' _ unambiguous_iff

/-- An instruction as a line of source. -/
def text (instruction : Instruction) : Text :=
  formatInstruction instruction.descriptor instruction.address instruction.operand

def encoding (instruction : Instruction) : Encoding :=
  { descriptor := instruction.descriptor, bytes := instruction.bytes, pending := none }

variable {i : Instruction}

theorem Unambiguous.mem_all (h : i.Unambiguous)
    (hListed : ∃ opcode, i.descriptor = Catalog.decode opcode) : i.descriptor ∈ Catalog.all := by
  obtain ⟨opcode, hDescriptor⟩ := hListed
  have hValid := h.valid
  rw [hDescriptor] at hValid ⊢
  exact (Catalog.mem_of_decode hValid).1

section

variable (hMem : i.descriptor ∈ Catalog.all)

include hMem

theorem size_eq : i.size = i.descriptor.mode.instructionSize := Catalog.size_of_mem hMem

theorem length_bytes : i.bytes.length = i.size := by
  have hSize := size_eq hMem
  have hOperand : i.descriptor.mode.operandBytes ≤ 2 := by
    cases i.descriptor.mode <;> decide
  rw [AddressingMode.instructionSize] at hSize
  simp only [bytes, List.length_cons, List.length_take, List.length_nil]
  omega

/-- A value whose field has the listed operand bytes is emitted as the instruction. -/
theorem emit_eq {value : Nat}
    (h : operandField i.descriptor.mode.instructionSize value =
      [i.operand.first, i.operand.second].take i.descriptor.mode.operandBytes) :
    emit i.descriptor value none = i.encoding := by
  rw [emit, Catalog.size_of_mem hMem, h, encoding, bytes, size_eq hMem,
    AddressingMode.instructionSize, Nat.add_sub_cancel_left]

/-- One operand byte is emitted of its own value. -/
theorem emit_byte (hMode : i.descriptor.mode.operandBytes = 1) :
    emit i.descriptor i.operand.first.toNat none = i.encoding := by
  apply emit_eq hMem
  rw [AddressingMode.instructionSize, hMode]
  simp only [operandField, UInt8.ofNat_toNat]
  rfl

/-- Two operand bytes are emitted of the word that they make up. -/
theorem emit_word (hMode : i.descriptor.mode.operandBytes = 2) :
    emit i.descriptor i.operand.word.toNat none = i.encoding := by
  have hWord : operandField 3 i.operand.word.toNat = [i.operand.first, i.operand.second] := by
    rw [operandField_address, OperandBytes.word, lowByte_word, highByte_word]
  apply emit_eq hMem
  rw [AddressingMode.instructionSize, hMode]
  exact hWord

omit hMem in
/-- The assembler finds no form in a mode that the operation does not have. -/
theorem inMode?_eq_none {forms : List Descriptor} {mode : AddressingMode}
    (hForms : Catalog.Finds i.descriptor forms) (h : ¬ i.HasForm mode) :
    Catalog.inMode? forms mode = none := by
  cases hFound : Catalog.inMode? forms mode with
  | none => rfl
  | some form =>
      obtain ⟨hForm, hMode⟩ := Catalog.inMode?_eq_some hFound
      have hName := ((Catalog.mem_of_forMnemonic? hForms.named).mp hForm).2
      exact absurd ⟨form, hForms.executable form hForm, hName, hMode⟩ h

/-- A branch is listed with its target, and the distance comes out of that again. -/
theorem encode_branch (hMode : i.descriptor.mode = .relative) {forms : List Descriptor}
    (hForms : Catalog.Finds i.descriptor forms) (symbols : SymbolTable) :
    encode i.descriptor.mnemonic forms (shownOperand i.descriptor.mode i.address i.operand)
      i.address symbols = .ok i.encoding := by
  have hOwn := hForms.own
  have hTarget := (branchTarget (i.address + 2) i.operand.first).toNat_lt
  have hEncoding : i.encoding =
      ⟨i.descriptor, [i.descriptor.opcode, i.operand.first], none⟩ := by
    rw [encoding, bytes, size_eq hMem, hMode]
    rfl
  rw [hMode] at hOwn ⊢
  unfold encode
  rw [hOwn, hEncoding]
  refine (encodeBranch_number (Nat.le_of_lt_succ hTarget)).trans ?_
  rw [branchOffset_branchTarget]

/-- What the operand of an instruction is read as is encoded as the instruction was. -/
theorem encode_shownOperand (h : i.Unambiguous) {forms : List Descriptor}
    (hForms : Catalog.Finds i.descriptor forms) (symbols : SymbolTable) :
    encode i.descriptor.mnemonic forms (shownOperand i.descriptor.mode i.address i.operand)
      i.address symbols = .ok i.encoding := by
  by_cases hRelative : i.descriptor.mode = .relative
  · exact encode_branch hMem hRelative hForms symbols
  have hFirst : i.operand.first.toNat ≤ 0xFF := Nat.le_of_lt_succ i.operand.first.toNat_lt
  have hNarrow : i.operand.first.toNat ≤ 0xFFFF := Nat.le_trans hFirst (by decide)
  have hWord : i.operand.word.toNat ≤ 0xFFFF := Nat.le_of_lt_succ i.operand.word.toNat_lt
  have hOwn := hForms.own
  unfold encode
  rw [hForms.straight hRelative]
  generalize hMode : i.descriptor.mode = mode at hRelative hOwn ⊢
  have hBytes := congrArg AddressingMode.operandBytes hMode
  cases mode with
  | relative => exact absurd rfl hRelative
  | implied =>
      have hEmit : emit i.descriptor 0 none = i.encoding := emit_eq hMem (by rw [hMode]; rfl)
      rw [← hEmit]
      exact encodeImplied_eq hOwn
  | immediate =>
      rw [← emit_byte hMem hBytes]
      exact encodeImmediate_number hOwn hFirst
  | zeroPage =>
      rw [← emit_byte hMem hBytes]
      exact encodeDirect_number (directForm?_zeroPage hOwn hFirst) hNarrow
  | zeroPageX =>
      have hWide := inMode?_eq_none hForms (h.zeroPageX hMode)
      rw [← emit_byte hMem hBytes]
      exact encodeIndexed_number (indexedForm?_narrow hWide hOwn hFirst) hNarrow
  | zeroPageY =>
      have hWide := inMode?_eq_none hForms (h.zeroPageY hMode)
      rw [← emit_byte hMem hBytes]
      exact encodeIndexed_number (indexedForm?_narrow hWide hOwn hFirst) hNarrow
  | absolute =>
      have hZeroPage (hSmall : i.operand.word.toNat ≤ 0xFF) :
          Catalog.inMode? forms .zeroPage = none := by
        refine inMode?_eq_none hForms (h.absolute hMode ?_)
        rw [OperandBytes.word, toNat_word] at hSmall
        apply UInt8.toNat_inj.mp
        rw [UInt8.toNat_zero]
        omega
      rw [← emit_word hMem hBytes]
      exact encodeDirect_number (directForm?_absolute hOwn hZeroPage) hWord
  | absoluteX | absoluteY =>
      rw [← emit_word hMem hBytes]
      exact encodeIndexed_number (indexedForm?_wide hOwn) hWord
  | indirect =>
      rw [← emit_word hMem hBytes]
      exact encodeIndirect_number hOwn hWord
  | indirectX | indirectY =>
      rw [← emit_byte hMem hBytes]
      exact encodePointer_number hOwn hFirst

/-- The text of an instruction is code for its own bytes, wherever it stands. -/
theorem encodeStatement_text (h : i.Unambiguous) (symbols : SymbolTable) :
    encodeStatement Catalog.forMnemonic? i.descriptor.mnemonic
      (formatOperand i.descriptor.mode i.address i.operand) i.address symbols =
        .ok i.encoding := by
  obtain ⟨forms, hForms⟩ := Catalog.exists_forms hMem
  have hDirective : (forms.any fun form => form.operation = .dcb) = false :=
    List.any_eq_false.mpr fun form hForm => by
      simpa using Catalog.operation_ne_of_mem (hForms.executable form hForm)
  rw [encodeStatement, hForms.named]
  simp only [hDirective, Bool.false_eq_true, if_false, parseOperand_formatOperand,
    encode_shownOperand hMem h hForms]

/-- The line puts the instruction behind the code, if the location counter is at the address it
was listed for. The address counts for branches. -/
theorem addLine_text (h : i.Unambiguous) {layout : Layout} (hCounter : layout.counter = i.address)
    (line : Nat) :
    layout.addLine Catalog.forMnemonic? line i.text = .ok (layout.append line i.encoding) := by
  rw [Layout.addLine, text, normalize_formatInstruction hMem,
    if_neg (formatInstruction_ne_nil hMem _ _), classify_formatInstruction hMem]
  simp only [Layout.add, Layout.addStatement, hCounter, encodeStatement_text hMem h]

end

end Instruction

/-- Instructions as a source text: the address of the first, then each on a line of its own. -/
def source (start : Address) (instructions : List Instruction) : Text :=
  joinWith ['\n'] (startLine start :: instructions.map Instruction.text)

/-- The code of an instruction that stands on the given line of source. -/
def Instruction.code (instruction : Instruction) (line : Nat) : CodeLine :=
  instruction.encoding.placed instruction.address line

/-- No line break is in a listed line, so the source has the lines that it was put together from. -/
theorem lines_source {start : Address} {instructions : List Instruction}
    (h : ∀ i ∈ instructions, i.descriptor ∈ Catalog.all) :
    lines (source start instructions) = startLine start :: instructions.map Instruction.text := by
  apply lines_joinWith
  intro piece hPiece
  rcases List.mem_cons.mp hPiece with rfl | hPiece
  · exact ⟨startLine_ne_nil start, notMem_startLine start (by decide) (by decide)⟩
  · obtain ⟨i, hMem, rfl⟩ := List.mem_map.mp hPiece
    exact ⟨formatInstruction_ne_nil (h i hMem) _ _,
      notMem_formatInstruction (h i hMem) _ _ (by decide)⟩

/-- The first line moves the location counter and does nothing else. -/
theorem addLine_startLine (forms? : FormLookup) (layout : Layout) (line : Nat)
    (start : Address) :
    layout.addLine forms? line (startLine start) = .ok (layout.moveTo start) := by
  rw [Layout.addLine, normalize_startLine, if_neg (startLine_ne_nil start), classify_startLine]
  rfl

variable {β : Type} [Bus β]

/-- Over the lines of a listing, the location counter goes where the listing went. The table and
the origin are left alone, since no line has a label. -/
theorem addLines_listing {place limit line : Nat} {bus : β} {layout : Layout}
    (hCounter : layout.counter = .ofNat place)
    (h : ∀ i ∈ (disassembleFrom place bus limit).1, i.Unambiguous) :
    ∃ final, layout.addLines Catalog.forMnemonic? line
        ((disassembleFrom place bus limit).1.map Instruction.text) = .ok final ∧
      final.code.toList = layout.code.toList ++
        ((disassembleFrom place bus limit).1.zipIdx line).map (fun (i, line) => i.code line) ∧
      final.symbols = layout.symbols ∧ final.origin = layout.origin ∧
      final.addressLabels = layout.addressLabels := by
  induction limit generalizing place line bus layout with
  | zero => exact ⟨layout, rfl, (List.append_nil _).symm, rfl, rfl, rfl⟩
  | succ limit ih =>
      rcases Nat.lt_or_ge place 0x10000 with hPlace | hPlace
      · rw [disassembleFrom_succ hPlace] at h ⊢
        generalize hFirst : (decodeAt bus (.ofNat place)).1 = i at h ⊢
        have hUnambiguous := h i List.mem_cons_self
        have hMem := hUnambiguous.mem_all ⟨_, hFirst ▸ descriptor_decodeAt bus (.ofNat place)⟩
        have hAddress : layout.counter = i.address := by
          rw [hCounter, ← hFirst, address_decodeAt]
        have hNext : (layout.append line i.encoding).counter = .ofNat (place + i.size) := by
          rw [UInt16.ofNat_add, ← hCounter, ← i.length_bytes hMem]
          rfl
        obtain ⟨final, hFinal, hCode, hSymbols, hOrigin, hLabels⟩ :=
          ih hNext (fun other hOther => h other (List.mem_cons_of_mem _ hOther))
        refine ⟨final, ?_, ?_, hSymbols, hOrigin, hLabels⟩
        · rw [List.map_cons, Layout.addLines, i.addLine_text hMem hUnambiguous hAddress]
          exact hFinal
        · simp [hCode, Layout.append, Instruction.code, Encoding.placed, hAddress]
      · rw [disassembleFrom_of_le hPlace]
        exact ⟨layout, rfl, (List.append_nil _).symm, rfl, rfl, rfl⟩

/-- A listing of unambiguous instructions, read as source, is assembled to the very bytes that
were listed, each instruction at its own address. -/
theorem assemble_source (bus : β) (start : Address) (limit : Nat)
    (h : ∀ i ∈ (disassemble bus start limit).1, i.Unambiguous) :
    assemble (source start (disassemble bus start limit).1) = .ok {
      labels := []
      lines := ((disassemble bus start limit).1.zipIdx 2).map fun (i, line) => i.code line
      origin := some start
      addressLabels := 0 } := by
  have hLines : lines (source start (disassemble bus start limit).1) =
      startLine start :: (disassemble bus start limit).1.map Instruction.text :=
    lines_source fun i hListed => (h i hListed).mem_all (exists_opcode hListed)
  have hStart : (Layout.moveTo {} start).counter = .ofNat start.toNat :=
    UInt16.ofNat_toNat.symm
  obtain ⟨layout, hLayout, hCode, hSymbols, hOrigin, hLabels⟩ := addLines_listing hStart h
  have hFirst : Layout.addLines Catalog.forMnemonic? {} 1
      (lines (source start (disassemble bus start limit).1)) = .ok layout := by
    rw [hLines, Layout.addLines, addLine_startLine]
    exact hLayout
  have hPlain : ∀ line ∈ layout.code.toList, line.pending = none := by
    intro line hLine
    rw [hCode] at hLine
    obtain ⟨⟨i, number⟩, -, rfl⟩ := List.mem_map.mp hLine
    rfl
  rw [assemble_of_addLines hFirst (by rw [hSymbols]; rfl) (mapM_fillLine_settled hPlain),
    hCode, hSymbols, hOrigin, hLabels]
  rfl

/-- A branch around the end of memory, and an instruction that lies across it. -/
theorem assemble_source_wrapped :
    ∃ image : Address → Byte,
      (disassemble image 0xFFFA 50).1.map Instruction.text =
        ["STX $10,Y".toList, "BEQ $007D".toList, "JMP ($1234)".toList] ∧
      assemble (source 0xFFFA (disassemble image 0xFFFA 50).1) = .ok {
        labels := []
        lines := ((disassemble image 0xFFFA 50).1.zipIdx 2).map fun (i, line) => i.code line
        origin := some 0xFFFA
        addressLabels := 0 } := by
  obtain ⟨image, hText, h⟩ : ∃ image : Address → Byte,
      (disassemble image 0xFFFA 50).1.map Instruction.text =
        ["STX $10,Y".toList, "BEQ $007D".toList, "JMP ($1234)".toList] ∧
      ∀ i ∈ (disassemble image 0xFFFA 50).1, i.Unambiguous :=
    ⟨Bus.writeBytes (fun _ => 0) 0xFFFA [0x96, 0x10, 0xF0, 0x7F, 0x6C, 0x34, 0x12],
      by decide +kernel, by decide +kernel⟩
  exact ⟨image, hText, assemble_source image 0xFFFA 50 h⟩

end Micro6502.Listing
