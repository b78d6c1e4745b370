import Micro6502.Proofs.Assembly.Encoding
import Micro6502.Proofs.Machine.Fetch

/-! What an operand means to the processor, against what it was written for. The form and
the bytes are chosen by the encoding; fetching them again gives the number of the operand,
with the index register that goes with its shape. -/

namespace Micro6502

open Assembly

def Assembly.Value.number? : Value → Option Nat
  | .number value => some value
  | .label _ => none

/-- The number that an operand gives. -/
def Assembly.Operand.number? : Operand → Option Nat
  | .immediate value => some value
  | .indirectX value | .indirectY value | .indexedX value | .indexedY value => value.number?
  | .indirect value | .direct value => value.number?
  | .absent | .accumulator | .immediateLabel _ _ => none

namespace Processor

variable {ρ δ : Type}

/-- The first cell of the pointer that an operand goes through, if it goes through one. -/
def pointerCell? (cpu : Processor ρ δ) : Operand → Option Address
  | .indirect (.number value) | .indirectY (.number value) => some (.ofNat value)
  | .indirectX (.number value) => some (.ofNat ((value + cpu.x.toNat) % 0x100))
  | _ => none

/-- The addresses that operands with a number select, for the mode they are executed in.
Indexing wraps at the end of memory in an absolute mode, and at the end of the zero page
in a zero-page mode. -/
inductive Selects (cpu : Processor ρ δ) : Operand → AddressingMode → Nat → Prop
  | absolute (value : Nat) : Selects cpu (.direct (.number value)) .absolute value
  | zeroPage (value : Nat) : Selects cpu (.direct (.number value)) .zeroPage value
  | absoluteX (value : Nat) :
      Selects cpu (.indexedX (.number value)) .absoluteX ((value + cpu.x.toNat) % 0x10000)
  | zeroPageX (value : Nat) :
      Selects cpu (.indexedX (.number value)) .zeroPageX ((value + cpu.x.toNat) % 0x100)
  | absoluteY (value : Nat) :
      Selects cpu (.indexedY (.number value)) .absoluteY ((value + cpu.y.toNat) % 0x10000)
  | zeroPageY (value : Nat) :
      Selects cpu (.indexedY (.number value)) .zeroPageY ((value + cpu.y.toNat) % 0x100)
  | indirect (value : Nat) : Selects cpu (.indirect (.number value)) .indirect
      (cpu.memory.storedWord (.ofNat value)).toNat
  | indirectX (value : Nat) : Selects cpu (.indirectX (.number value)) .indirectX
      (cpu.memory.storedWord (.ofNat ((value + cpu.x.toNat) % 0x100))).toNat
  | indirectY (value : Nat) : Selects cpu (.indirectY (.number value)) .indirectY
      (((cpu.memory.storedWord (.ofNat value)).toNat + cpu.y.toNat) % 0x10000)

variable [ByteSource ρ] [Screen δ]

/-- What a processor that has fetched the opcode makes of the operand, and where that
leaves it: an address, a value, or the distance of a branch. -/
inductive Understands (cpu next : Processor ρ δ) (mode : AddressingMode) : Operand → Prop
  | address {operand : Operand} {target : Address}
      (hTarget : cpu.Selects operand mode target.toNat)
      (hAddress : cpu.effectiveAddress mode = (target, next)) : Understands cpu next mode operand
  | value {byte : Byte} (hMode : mode = .immediate)
      (hValue : cpu.operandValue mode = (byte, next)) :
      Understands cpu next mode (.immediate byte.toNat)
  | branch {target : Nat} (hMode : mode = .relative)
      (hOffset : cpu.fetchByte = (branchOffset (cpu.pc - 1) target, next)) :
      Understands cpu next mode (.direct (.number target))

end Processor

theorem word_ofNat {value : Nat} (h : value ≤ 0xFFFF) :
    word (.ofNat value) (.ofNat (value / 0x100)) = .ofNat value := by
  apply UInt16.toNat_inj.mp
  simp only [toNat_word, UInt8.toNat_ofNat', UInt16.toNat_ofNat']
  omega

/-- An index is added in the zero page, and the sum wraps at its end. -/
theorem toUInt16_ofNat_add (value : Nat) (index : Byte) :
    (UInt8.ofNat value + index).toUInt16 = .ofNat ((value + index.toNat) % 0x100) := by
  apply UInt16.toNat_inj.mp
  simp only [UInt8.toNat_toUInt16, UInt8.toNat_add, UInt8.toNat_ofNat', UInt16.toNat_ofNat']
  omega

theorem toUInt16_ofNat {value : Nat} (h : value ≤ 0xFF) :
    (UInt8.ofNat value).toUInt16 = .ofNat value := by
  apply UInt16.toNat_inj.mp
  simp only [UInt8.toNat_toUInt16, UInt8.toNat_ofNat', UInt16.toNat_ofNat']
  omega

theorem toNat_ofNat_of_le {value : Nat} (h : value ≤ 0xFFFF) :
    (UInt16.ofNat value).toNat = value := by
  rw [UInt16.toNat_ofNat']
  omega

/-- An index is added to an address, and the sum wraps at the end of memory. -/
theorem toNat_ofNat_add {value : Nat} (index : Byte) :
    (UInt16.ofNat value + index.toUInt16).toNat = (value + index.toNat) % 0x10000 := by
  simp only [UInt16.toNat_add, UInt16.toNat_ofNat', UInt8.toNat_toUInt16]
  omega

namespace Processor

variable {ρ δ : Type} [ByteSource ρ] [Screen δ] {cpu : Processor ρ δ}

theorem number?_eq_some {value : Value} {number : Nat} (h : value.number? = some number) :
    value = .number number := by
  cases value with
  | label name => cases h
  | number other =>
      cases h
      rfl

theorem number_eq_of_points {operand : Operand} {value : Value} {mode : AddressingMode}
    (h : operand.Points value mode) {number : Nat} (hNumber : operand.number? = some number) :
    value = .number number := by
  cases h <;> exact number?_eq_some hNumber

theorem number_eq_of_gives {operand : Operand} {value : Value} {mode : AddressingMode}
    {narrow? : Option AddressingMode} (h : operand.Gives value mode narrow?) {number : Nat}
    (hNumber : operand.number? = some number) : value = .number number := by
  cases h <;> exact number?_eq_some hNumber

/-- Two operand bytes with a full address. -/
theorem understands_wide {operand : Operand} {value : Nat} {mode : AddressingMode}
    {narrow? : Option AddressingMode} (hOperand : operand.Gives (.number value) mode narrow?)
    (hRange : value ≤ 0xFFFF)
    (hHolds : cpu.memory.Holds cpu.pc (operandField mode.instructionSize value))
    (hPointer : ∀ cell, cpu.pointerCell? operand = some cell →
      cell ≠ randomAddress ∧ cell + 1 ≠ randomAddress) :
    cpu.Understands (cpu.jump (cpu.pc + .ofNat mode.operandBytes)) mode operand := by
  rw [hOperand.size_wide] at hHolds
  have hWord := fetchWord_eq hHolds
  rw [word_ofNat hRange] at hWord
  cases hOperand with
  | direct =>
      refine .address ?_ hWord
      rw [toNat_ofNat_of_le hRange]
      exact .absolute value
  | indexedX =>
      refine .address ?_ (by rw [effectiveAddress, hWord]; rfl)
      rw [x_jump, toNat_ofNat_add]
      exact .absoluteX value
  | indexedY =>
      refine .address ?_ (by rw [effectiveAddress, hWord]; rfl)
      rw [y_jump, toNat_ofNat_add]
      exact .absoluteY value
  | indirect =>
      obtain ⟨hLow, hHigh⟩ := hPointer _ rfl
      refine .address (.indirect value) ?_
      rw [effectiveAddress, hWord]
      exact readWord_eq hLow hHigh

/-- One operand byte with an address in the zero page. -/
theorem understands_narrow {operand : Operand} {value : Nat} {mode narrow : AddressingMode}
    (hOperand : operand.Gives (.number value) mode (some narrow)) (hRange : value ≤ 0xFF)
    (hHolds : cpu.memory.Holds cpu.pc (operandField narrow.instructionSize value)) :
    cpu.Understands (cpu.jump (cpu.pc + .ofNat narrow.operandBytes)) narrow operand := by
  rw [hOperand.size_narrow.1] at hHolds
  have hByte := fetchByte_eq hHolds
  cases hOperand with
  | direct =>
      refine .address ?_ (by rw [effectiveAddress, hByte]; rfl)
      rw [toUInt16_ofNat hRange, toNat_ofNat_of_le (by omega)]
      exact .zeroPage value
  | indexedX =>
      refine .address ?_ (by rw [effectiveAddress, hByte]; rfl)
      rw [x_jump, toUInt16_ofNat_add, toNat_ofNat_of_le (by omega)]
      exact .zeroPageX value
  | indexedY =>
      refine .address ?_ (by rw [effectiveAddress, hByte]; rfl)
      rw [y_jump, toUInt16_ofNat_add, toNat_ofNat_of_le (by omega)]
      exact .zeroPageY value

/-- One operand byte with a pointer in the zero page. -/
theorem understands_pointer {operand : Operand} {value : Nat} {mode : AddressingMode}
    (hOperand : operand.Points (.number value) mode) (hRange : value ≤ 0xFF)
    (hHolds : cpu.memory.Holds cpu.pc (operandField mode.instructionSize value))
    (hPointer : ∀ cell, cpu.pointerCell? operand = some cell →
      cell ≠ randomAddress ∧ cell + 1 ≠ randomAddress) :
    cpu.Understands (cpu.jump (cpu.pc + .ofNat mode.operandBytes)) mode operand := by
  rw [hOperand.size.1] at hHolds
  have hByte := fetchByte_eq hHolds
  cases hOperand with
  | indirectX =>
      obtain ⟨hLow, hHigh⟩ := hPointer _ rfl
      refine .address (.indirectX value) ?_
      rw [effectiveAddress, hByte]
      simp only [x_jump, toUInt16_ofNat_add]
      exact readWord_eq hLow hHigh
  | indirectY =>
      obtain ⟨hLow, hHigh⟩ := hPointer _ rfl
      have hWord : Bus.readWord (cpu.jump (cpu.pc + 1)) (.ofNat value) =
          (cpu.memory.storedWord (.ofNat value), cpu.jump (cpu.pc + 1)) := readWord_eq hLow hHigh
      have hAddress : cpu.effectiveAddress .indirectY =
          (cpu.memory.storedWord (.ofNat value) + cpu.y.toUInt16, cpu.jump (cpu.pc + 1)) := by
        simp only [effectiveAddress, hByte, toUInt16_ofNat hRange, hWord, y_jump]
      refine .address ?_ hAddress
      rw [UInt16.toNat_add, UInt8.toNat_toUInt16]
      exact .indirectY value

/-- One operand byte that is the value itself. -/
theorem understands_immediate {value : Nat} (hRange : value ≤ 0xFF)
    (hHolds : cpu.memory.Holds cpu.pc (operandField 2 value)) :
    cpu.Understands (cpu.jump (cpu.pc + 1)) .immediate (.immediate value) := by
  obtain ⟨hCell, hByte, -⟩ := hHolds
  have hValue : cpu.operandValue .immediate = (.ofNat value, cpu.jump (cpu.pc + 1)) := by
    have hRead : (cpu.jump (cpu.pc + 1)).read cpu.pc =
        (cpu.memory.stored cpu.pc, cpu.jump (cpu.pc + 1)) := read_eq hCell
    rw [← hByte]
    exact hRead
  have hNumber : (UInt8.ofNat value).toNat = value := by
    rw [UInt8.toNat_ofNat']
    omega
  rw [← hNumber]
  exact .value rfl hValue

/-- With the opcode fetched, the field of the operand lies ahead. -/
theorem understands_of_emit {operand : Operand} {form : Descriptor} {value : Nat}
    {pending : Option LabelRef} (hForm : form ∈ Catalog.all)
    (hHolds : cpu.memory.Holds cpu.pc (emit form value pending).bytes)
    (h : ∀ {fetched : Processor ρ δ}, fetched = cpu.jump (cpu.pc + 1) →
      fetched.memory.Holds fetched.pc (operandField form.mode.instructionSize value) →
      fetched.Understands (fetched.jump (fetched.pc + .ofNat form.mode.operandBytes))
        form.mode operand) :
    (cpu.jump (cpu.pc + 1)).Understands
      (cpu.jump (cpu.pc + .ofNat (emit form value pending).bytes.length)) form.mode operand := by
  have hNext : cpu.pc + 1 + .ofNat form.mode.operandBytes =
      cpu.pc + .ofNat (emit form value pending).bytes.length := by
    rw [length_emit hForm, Catalog.size_of_mem hForm, AddressingMode.instructionSize,
      UInt16.ofNat_add, UInt16.add_assoc]
    rfl
  rw [emit_bytes hForm] at hHolds
  rw [← hNext]
  exact h rfl hHolds.2.2

/-- Whatever way an operand with a number was encoded in, it is understood once the opcode
has been fetched. -/
theorem encodes_understood {forms : List Descriptor} {symbols : SymbolTable}
    {operand : Operand} {encoding : Encoding} {number : Nat}
    (h : Encodes forms cpu.pc symbols operand encoding)
    (hNamed : ∀ form ∈ forms, form ∈ Catalog.named) (hNumber : operand.number? = some number)
    (hHolds : cpu.memory.Holds cpu.pc encoding.bytes)
    (hPointer : ∀ cell, cpu.pointerCell? operand = some cell →
      cell ≠ randomAddress ∧ cell + 1 ≠ randomAddress) :
    encoding.descriptor ∈ Catalog.all ∧
      encoding.bytes.head? = some encoding.descriptor.opcode ∧
      (cpu.jump (cpu.pc + 1)).Understands (cpu.jump (cpu.pc + .ofNat encoding.bytes.length))
        encoding.descriptor.mode operand := by
  -- A directive is implied, so a form with operand bytes can be executed.
  have hForm : ∀ {mode form}, Catalog.inMode? forms mode = some form →
      mode.instructionSize ≠ 1 → form ∈ Catalog.all ∧ form.mode = mode := by
    intro mode form hFound hSize
    obtain ⟨hMem, rfl⟩ := Catalog.inMode?_eq_some hFound
    refine ⟨Catalog.mem_all_of_mode_ne (hNamed _ hMem) fun hImplied => hSize ?_, rfl⟩
    rw [hImplied]
    rfl
  cases h with
  | @branch form value target pending hFound hValue hRange =>
      obtain ⟨hMem, hMode⟩ := hForm hFound (by decide)
      obtain rfl := number?_eq_some hNumber
      cases hValue
      refine ⟨hMem, rfl, .branch hMode ?_⟩
      have hField : (cpu.jump (cpu.pc + 1)).memory.Holds (cpu.jump (cpu.pc + 1)).pc
          [branchOffset cpu.pc number] := hHolds.2.2
      have hStart : cpu.pc + 1 - 1 = cpu.pc := UInt16.add_sub_cancel _ _
      rw [fetchByte_eq hField, pc_jump, hStart, jump_jump, add_one_add_one]
      rfl
  | implied hOperand => rcases hOperand with rfl | rfl <;> cases hNumber
  | @immediate value form hRange hFound =>
      obtain ⟨hMem, hMode⟩ := hForm hFound (by decide)
      refine ⟨hMem, rfl, understands_of_emit hMem hHolds fun _ hField => ?_⟩
      simp only [hMode] at hField ⊢
      exact understands_immediate hRange hField
  | half => cases hNumber
  | pointer hOperand hFound _ hValue hRange =>
      obtain rfl := number_eq_of_points hOperand hNumber
      obtain ⟨hMem, rfl⟩ := hForm hFound (by rw [hOperand.size.1]; decide)
      cases hValue
      refine ⟨hMem, rfl, understands_of_emit hMem hHolds fun hSame hField => ?_⟩
      subst hSame
      exact understands_pointer hOperand hRange hField hPointer
  | wide hOperand hFound _ hValue hRange =>
      obtain rfl := number_eq_of_gives hOperand hNumber
      obtain ⟨hMem, rfl⟩ := hForm hFound (by rw [hOperand.size_wide]; decide)
      cases hValue
      refine ⟨hMem, rfl, understands_of_emit hMem hHolds fun hSame hField => ?_⟩
      subst hSame
      exact understands_wide hOperand hRange hField hPointer
  | narrow hOperand hFound _ hValue hRange =>
      obtain rfl := number_eq_of_gives hOperand hNumber
      obtain ⟨hMem, rfl⟩ := hForm hFound (by rw [hOperand.size_narrow.1]; decide)
      cases hValue
      exact ⟨hMem, rfl, understands_of_emit hMem hHolds fun _ hField =>
        understands_narrow hOperand hRange hField⟩

/-- What is encoded for an operand with a number is what the processor finds again: the
opcode leads back to the descriptor, the operand bytes are the ones that are consumed, and
in the mode of the descriptor they mean what the operand was written for. -/
theorem understands_of_encode {mnemonic : Text} {forms : List Descriptor} {operand : Operand}
    {number : Nat} {symbols : SymbolTable} {encoding : Encoding}
    (hForms : Catalog.forMnemonic? mnemonic = some forms)
    (hNumber : operand.number? = some number)
    (hEncode : encode mnemonic forms operand cpu.pc symbols = .ok encoding)
    (hHolds : cpu.memory.Holds cpu.pc encoding.bytes)
    (hPointer : ∀ cell, cpu.pointerCell? operand = some cell →
      cell ≠ randomAddress ∧ cell + 1 ≠ randomAddress) :
    cpu.fetchByte = (encoding.descriptor.opcode, cpu.jump (cpu.pc + 1)) ∧
      Catalog.decode encoding.descriptor.opcode = encoding.descriptor ∧
      (cpu.jump (cpu.pc + 1)).Understands (cpu.jump (cpu.pc + .ofNat encoding.bytes.length))
        encoding.descriptor.mode operand := by
  obtain ⟨hMem, hHead, hUnderstands⟩ := encodes_understood (encodes_of_encode hEncode)
    (fun form hMem => ((Catalog.mem_of_forMnemonic? hForms).mp hMem).1) hNumber hHolds hPointer
  obtain ⟨operandBytes, hBytes⟩ := List.head?_eq_some_iff.mp hHead
  rw [hBytes] at hHolds
  exact ⟨fetchByte_eq hHolds, Catalog.decode_opcode hMem, hUnderstands⟩

/-- An instruction across the top of memory, with a pointer at `$0080`. -/
theorem understands_of_encode_wrapped :
    ∃ (cpu : Processor Congruential Unit) (forms : List Descriptor) (encoding : Encoding),
      Catalog.forMnemonic? "LDA".toList = some forms ∧ cpu.pc = 0xFFFF ∧
      encode "LDA".toList forms (.indirectY (.number 0x80)) cpu.pc {} = .ok encoding ∧
      cpu.memory.Holds cpu.pc encoding.bytes ∧
      cpu.fetchByte = (encoding.descriptor.opcode, cpu.jump (cpu.pc + 1)) ∧
      Catalog.decode encoding.descriptor.opcode = encoding.descriptor ∧
      (cpu.jump (cpu.pc + 1)).Understands (cpu.jump (cpu.pc + .ofNat encoding.bytes.length))
        encoding.descriptor.mode (.indirectY (.number 0x80)) := by
  let memory : Memory Congruential Unit := (((Memory.zero ⟨0⟩ ()).write 0xFFFF 0xB1).write
    0x0000 0x80).write 0x0081 0x12
  let cpu : Processor Congruential Unit := { pc := 0xFFFF, y := 4, memory }
  have hForms : Catalog.forMnemonic? "LDA".toList =
      some (Catalog.named.filter fun form => form.mnemonic = "LDA".toList) := by rfl
  obtain ⟨encoding, hEncode, hBytes⟩ : ∃ encoding : Encoding,
      encode "LDA".toList (Catalog.named.filter fun form => form.mnemonic = "LDA".toList)
        (.indirectY (.number 0x80)) cpu.pc {} = .ok encoding ∧
      encoding.bytes = [0xB1, 0x80] := ⟨_, rfl, rfl⟩
  have hHolds : cpu.memory.Holds cpu.pc encoding.bytes := by
    rw [hBytes]
    simp [Memory.Holds, cpu, memory, randomAddress]
  have hPointer : ∀ cell, cpu.pointerCell? (.indirectY (.number 0x80)) = some cell →
      cell ≠ randomAddress ∧ cell + 1 ≠ randomAddress := by
    intro cell hCell
    cases hCell
    decide
  exact ⟨cpu, _, encoding, hForms, rfl, hEncode, hHolds,
    understands_of_encode hForms rfl hEncode hHolds hPointer⟩

end Processor
end Micro6502
