import Micro6502.Proofs.Instruction.Branch
import Micro6502.Proofs.Listing.Source

/-! Lines of listings that look the same. The text of an instruction tells its mnemonic, the text
of its operand tells the mode once it is known whether the instruction is a branch, and the number
in it tells the operand bytes. So a line is printed for one instruction only. -/

namespace Micro6502.Listing

open Text Assembly

theorem hexWord_injective : Function.Injective hexWord := by
  intro first second h
  have hFirst := (hexNumeral_word first).read
  rw [h, (hexNumeral_word second).read] at hFirst
  exact UInt16.toNat_inj.mp (Option.some.inj hFirst).symm

/-- The address stands in front of the instruction in a field of fixed width. -/
theorem formatLine_inj {a b : Address} {d e : Descriptor} {x y : OperandBytes}
    (h : formatLine a d x = formatLine b e y) :
    a = b ∧ formatInstruction d a x = formatInstruction e b y := by
  obtain ⟨hFront, hInstruction⟩ := List.append_inj h rfl
  obtain ⟨hWord, -⟩ := List.append_inj hFront rfl
  exact ⟨hexWord_injective (List.cons.inj hWord).2, hInstruction⟩

/-- The mnemonic is told by its three letters, and the rest of the text is the operand. -/
theorem formatInstruction_inj {a b : Address} {d e : Descriptor} {x y : OperandBytes}
    (hd : d ∈ Catalog.all) (he : e ∈ Catalog.all)
    (h : formatInstruction d a x = formatInstruction e b y) :
    d.mnemonic = e.mnemonic ∧ formatOperand d.mode a x = formatOperand e.mode b y := by
  obtain ⟨rest, hText, hTrim, -⟩ := formatInstruction_eq d a x
  obtain ⟨other, hOther, hOtherTrim, -⟩ := formatInstruction_eq e b y
  have hLength : d.mnemonic.length = e.mnemonic.length := by
    rw [(Catalog.mnemonic_of_mem hd).1, (Catalog.mnemonic_of_mem he).1]
  rw [hText, hOther] at h
  obtain ⟨hName, hRest⟩ := List.append_inj h hLength
  exact ⟨hName, by rw [← hTrim, hRest, hOtherTrim]⟩

/-- The mode of an instruction from what its operand is read as, how many characters this takes,
and whether the instruction is a branch. -/
def shownMode (branch : Bool) (length : Nat) : Operand → AddressingMode
  | .absent | .accumulator => .implied
  | .immediate _ | .immediateLabel _ _ => .immediate
  | .direct _ => if branch then .relative else if length = 3 then .zeroPage else .absolute
  | .indexedX _ => if length = 5 then .zeroPageX else .absoluteX
  | .indexedY _ => if length = 5 then .zeroPageY else .absoluteY
  | .indirect _ => .indirect
  | .indirectX _ => .indirectX
  | .indirectY _ => .indirectY

/-- The mode is found again from the operand, the length of its text and whether it is a branch. -/
theorem shownMode_shownOperand (mode : AddressingMode) (address : Address)
    (operand : OperandBytes) :
    shownMode (decide (mode = .relative)) (formatOperand mode address operand).length
      (shownOperand mode address operand) = mode := by
  cases mode <;> rfl

theorem shownOperand_eq {mode other : AddressingMode} {a b : Address} {x y : OperandBytes}
    (h : formatOperand mode a x = formatOperand other b y) :
    shownOperand mode a x = shownOperand other b y := by
  have hRead := parseOperand_formatOperand mode a x
  rw [h, parseOperand_formatOperand] at hRead
  exact (Except.ok.inj hRead).symm

/-- The operand bytes that the mode uses are told by the operand. -/
theorem take_of_shownOperand {mode : AddressingMode} {address : Address} {x y : OperandBytes}
    (h : shownOperand mode address x = shownOperand mode address y) :
    [x.first, x.second].take mode.operandBytes = [y.first, y.second].take mode.operandBytes := by
  have hByte : x.first.toNat = y.first.toNat → [x.first] = [y.first] := fun hNat =>
    congrArg (fun byte => [byte]) (UInt8.toNat_inj.mp hNat)
  have hWord : x.word.toNat = y.word.toNat → [x.first, x.second] = [y.first, y.second] := by
    intro hNat
    have hSame : x.word = y.word := UInt16.toNat_inj.mp hNat
    have hLow := congrArg lowByte hSame
    have hHigh := congrArg highByte hSame
    simp only [OperandBytes.word, lowByte_word, highByte_word] at hLow hHigh
    rw [hLow, hHigh]
  cases mode with
  | implied => rfl
  | immediate => exact hByte (Operand.immediate.inj h)
  | zeroPage => exact hByte (Value.number.inj (Operand.direct.inj h))
  | zeroPageX => exact hByte (Value.number.inj (Operand.indexedX.inj h))
  | zeroPageY => exact hByte (Value.number.inj (Operand.indexedY.inj h))
  | indirectX => exact hByte (Value.number.inj (Operand.indirectX.inj h))
  | indirectY => exact hByte (Value.number.inj (Operand.indirectY.inj h))
  | absolute => exact hWord (Value.number.inj (Operand.direct.inj h))
  | absoluteX => exact hWord (Value.number.inj (Operand.indexedX.inj h))
  | absoluteY => exact hWord (Value.number.inj (Operand.indexedY.inj h))
  | indirect => exact hWord (Value.number.inj (Operand.indirect.inj h))
  | relative =>
      have hTarget := Value.number.inj (Operand.direct.inj h)
      have hOffset := branchOffset_branchTarget address x.first
      rw [hTarget, branchOffset_branchTarget] at hOffset
      exact congrArg (fun byte => [byte]) hOffset.symm

/-- What is listed for an opcode that stands for no instruction. -/
theorem formatInstruction_of_invalid {opcode : Byte} (h : (Catalog.decode opcode).isInvalid = true)
    (address : Address) (operand : OperandBytes) :
    formatInstruction (Catalog.decode opcode) address operand = "???".toList := by
  rcases Catalog.decode_cases opcode with ⟨hMem, -⟩ | hNone
  · have hAll : ∀ d ∈ Catalog.all, d.isInvalid = false := by decide +kernel
    rw [hAll _ hMem] at h
    cases h
  · rw [hNone]
    rfl

section

variable {o p : Byte} (ho : (Catalog.decode o).isInvalid = false) {a b : Address}
  {x y : OperandBytes}

include ho

/-- What is no instruction is listed in a way that no instruction is. -/
theorem formatLine_ne_of_invalid (hp : (Catalog.decode p).isInvalid = true) :
    formatLine a (Catalog.decode o) x ≠ formatLine b (Catalog.decode p) y := by
  intro h
  obtain ⟨-, hText⟩ := formatLine_inj h
  rw [formatInstruction_of_invalid hp] at hText
  have hMark : '?' ∉ formatInstruction (Catalog.decode o) a x :=
    notMem_formatInstruction (Catalog.mem_of_decode ho).1 a x (by decide)
  exact hMark (hText ▸ List.mem_cons_self)

/-- Two valid instructions with the same line have the same address, opcode and operand bytes. Of
the bytes behind them nothing is told. -/
theorem eq_of_formatLine (hp : (Catalog.decode p).isInvalid = false)
    (h : formatLine a (Catalog.decode o) x = formatLine b (Catalog.decode p) y) :
    a = b ∧ o = p ∧ [x.first, x.second].take ((Catalog.decode o).size - 1) =
      [y.first, y.second].take ((Catalog.decode o).size - 1) := by
  obtain ⟨hMem, hOpcode⟩ := Catalog.mem_of_decode ho
  obtain ⟨hOther, hOtherOpcode⟩ := Catalog.mem_of_decode hp
  obtain ⟨rfl, hText⟩ := formatLine_inj h
  obtain ⟨hName, hOperand⟩ := formatInstruction_inj hMem hOther hText
  -- A branch shows its target as an address, so only the mnemonic tells that it is one.
  have hBranch : (Catalog.decode o).mode = .relative ↔ (Catalog.decode p).mode = .relative :=
    ⟨Catalog.relative_of_mnemonic hOther hMem hName.symm,
      Catalog.relative_of_mnemonic hMem hOther hName⟩
  have hShown := shownOperand_eq hOperand
  have hMode : (Catalog.decode o).mode = (Catalog.decode p).mode := by
    rw [← shownMode_shownOperand (Catalog.decode o).mode a x, hOperand, hShown,
      decide_eq_decide.mpr hBranch, shownMode_shownOperand]
  have hSame : Catalog.decode o = Catalog.decode p :=
    Catalog.eq_of_mnemonic_mode hMem hOther hName hMode
  refine ⟨rfl, by rw [← hOpcode, hSame, hOtherOpcode], ?_⟩
  rw [← hMode] at hShown
  rw [Catalog.size_of_mem hMem, AddressingMode.instructionSize, Nat.add_sub_cancel_left]
  exact take_of_shownOperand hShown

end

/-- A line of a listing stands for one instruction at one address, with the operand bytes that it
uses. Two modes never print alike, so neither do a zero-page and an absolute form of the same
value; nor do branches to different targets, nor an instruction and what is none. -/
theorem lines_unambiguous {o : Byte} (ho : (Catalog.decode o).isInvalid = false) (p : Byte)
    (a b : Address) (x y : OperandBytes) :
    let line := formatLine a (Catalog.decode o) x
    let other := formatLine b (Catalog.decode p) y
    ((Catalog.decode p).isInvalid = true → line ≠ other) ∧
      ((Catalog.decode p).isInvalid = false →
        (line = other → a = b ∧ o = p ∧
          [x.first, x.second].take ((Catalog.decode o).size - 1) =
            [y.first, y.second].take ((Catalog.decode o).size - 1)) ∧
        ((Catalog.decode o).mode ≠ (Catalog.decode p).mode → line ≠ other) ∧
        ((Catalog.decode o).mode = .relative → (Catalog.decode p).mode = .relative →
          branchTarget (a + 2) x.first ≠ branchTarget (b + 2) y.first → line ≠ other)) := by
  intro line other
  refine ⟨formatLine_ne_of_invalid ho, fun hp => ⟨eq_of_formatLine ho hp, ?_, ?_⟩⟩
  · intro hMode h
    obtain ⟨-, rfl, -⟩ := eq_of_formatLine ho hp h
    exact hMode rfl
  · intro hBranch _ hTarget h
    obtain ⟨rfl, rfl, hOffset⟩ := eq_of_formatLine ho hp h
    rw [Catalog.size_of_mem (Catalog.mem_of_decode ho).1, hBranch] at hOffset
    exact hTarget (congrArg (branchTarget (a + 2)) (List.cons.inj hOffset).1)

/-- The zero page in both of its forms, and a branch that goes around the end of memory. -/
theorem lines_unambiguous_zeroPage :
    (Catalog.decode 0xA5).isInvalid = false ∧ (Catalog.decode 0xAD).isInvalid = false ∧
      (Catalog.decode 0xA5).mode ≠ (Catalog.decode 0xAD).mode ∧
      formatLine 0x0200 (Catalog.decode 0xA5) ⟨0x10, 0x00⟩ = "$0200: LDA $10".toList ∧
      formatLine 0x0200 (Catalog.decode 0xAD) ⟨0x10, 0x00⟩ = "$0200: LDA $0010".toList ∧
      formatLine 0x0200 (Catalog.decode 0xA5) ⟨0x10, 0x00⟩ ≠
        formatLine 0x0200 (Catalog.decode 0xAD) ⟨0x10, 0x00⟩ ∧
      formatLine 0xFFFA (Catalog.decode 0xF0) ⟨0x7F, 0x00⟩ = "$FFFA: BEQ $007B".toList ∧
      ∀ (opcode : Byte) (operand : OperandBytes), (Catalog.decode opcode).isInvalid = false →
        formatLine 0xFFFA (Catalog.decode 0xF0) ⟨0x7F, 0x00⟩ =
          formatLine 0xFFFA (Catalog.decode opcode) operand →
        0xF0 = opcode ∧ [0x7F] = [operand.first] := by
  have hLoad : Catalog.decode 0xA5 = .executable .lda .zeroPage 0xA5 :=
    Catalog.decode_opcode (d := .executable .lda .zeroPage 0xA5) (by decide +kernel)
  have hWide : Catalog.decode 0xAD = .executable .lda .absolute 0xAD :=
    Catalog.decode_opcode (d := .executable .lda .absolute 0xAD) (by decide +kernel)
  have hEqual : Catalog.decode 0xF0 = .executable .beq .relative 0xF0 :=
    Catalog.decode_opcode (d := .executable .beq .relative 0xF0) (by decide +kernel)
  have hZeroPage : (Catalog.decode 0xA5).isInvalid = false := by rw [hLoad]; rfl
  have hAbsolute : (Catalog.decode 0xAD).isInvalid = false := by rw [hWide]; rfl
  have hBranch : (Catalog.decode 0xF0).isInvalid = false := by rw [hEqual]; rfl
  have hMode : (Catalog.decode 0xA5).mode ≠ (Catalog.decode 0xAD).mode := by
    rw [hLoad, hWide]
    decide
  have hForms := lines_unambiguous hZeroPage 0xAD 0x0200 0x0200 ⟨0x10, 0x00⟩ ⟨0x10, 0x00⟩
  refine ⟨hZeroPage, hAbsolute, hMode, by rw [hLoad]; decide, by rw [hWide]; decide,
    (hForms.2 hAbsolute).2.1 hMode, by rw [hEqual]; decide, fun opcode operand hOpcode hLine => ?_⟩
  have hAll := lines_unambiguous hBranch opcode 0xFFFA 0xFFFA ⟨0x7F, 0x00⟩ operand
  obtain ⟨-, hSame, hTake⟩ := (hAll.2 hOpcode).1 hLine
  rw [hEqual] at hTake
  exact ⟨hSame, hTake⟩

end Micro6502.Listing
