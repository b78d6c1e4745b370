import Micro6502.Proofs.Assembly.Program
import Micro6502.Proofs.Instruction.Branch

/-! Labels in operands. A label that is known when its line is encoded goes into the
operand at once, any other label goes into the placeholder afterwards; the operand
bytes are the same either way, and they stand for the address of the label. -/

namespace Micro6502.Assembly

/-- The instruction on a line of source, with its operand, if there is one. The value
list of a byte directive is not an operand. -/
def instruction? (source : Text) : Option (Text × Operand) :=
  match (statement? source).map Statement.code? with
  | some (.ok (some (mnemonic, operand))) =>
    if mnemonic = directiveName then none
    else (parseOperand operand).toOption.map fun parsed => (mnemonic, parsed)
  | _ => none

def Value.label? : Value → Option Text
  | .number _ => none
  | .label name => some name

/-- The label that an operand refers to, unless it does so for a pointer in the zero
page. -/
def Operand.label? : Operand → Option Text
  | .immediateLabel _ name => some name
  | .indexedX value | .indexedY value | .indirect value | .direct value => value.label?
  | .absent | .accumulator | .immediate _ | .indirectX _ | .indirectY _ => none

/-- The half of an address as a number. -/
def ByteSelect.part (select : ByteSelect) (target : Nat) : Nat :=
  match select with
  | .low => target % 0x100
  | .high => target / 0x100

/-- The operand bytes of a line stand for a target, according to its operand. -/
inductive CodeLine.Denotes (code : CodeLine) (target : Address) : Operand → Prop
  | wide {operand : Operand} {value : Value} {narrow? : Option AddressingMode}
      {low high : Byte} (hOperand : operand.Gives value code.descriptor.mode narrow?)
      (hBytes : code.bytes = [code.descriptor.opcode, low, high])
      (hTarget : low.toNat + 256 * high.toNat = target.toNat) : Denotes code target operand
  | narrow {operand : Operand} {value : Value} {wide : AddressingMode} {byte : Byte}
      (hOperand : operand.Gives value wide (some code.descriptor.mode))
      (hBytes : code.bytes = [code.descriptor.opcode, byte])
      (hRange : target.toNat ≤ 0xFF) (hTarget : byte.toNat = target.toNat) :
      Denotes code target operand
  | half {select : ByteSelect} {name : Text} {byte : Byte}
      (hMode : code.descriptor.mode = .immediate)
      (hBytes : code.bytes = [code.descriptor.opcode, byte])
      (hTarget : byte.toNat = select.part target.toNat) :
      Denotes code target (.immediateLabel select name)
  | branch {value : Value} {byte : Byte} (hMode : code.descriptor.mode = .relative)
      (hBytes : code.bytes = [code.descriptor.opcode, byte])
      (hDistance : (byte.toNat : Int) = ((target.toNat : Int) - code.address.toNat - 2) % 256)
      (hTarget : -128 ≤ ((target.toNat : Int) - code.address.toNat - 2).bmod 65536 →
        ((target.toNat : Int) - code.address.toNat - 2).bmod 65536 ≤ 127 →
        branchTarget (code.address + 2) byte = target) :
      Denotes code target (.direct value)

theorem toNat_apply (select : ByteSelect) (target : Address) :
    (select.apply target).toNat = select.part target.toNat := by
  cases select with
  | low => exact toNat_lowByte target
  | high => exact toNat_highByte target

/-- An instruction stands on a line whose statement carries code other than a list of bytes, with
an operand that can be read. -/
theorem instruction?_eq_some {source mnemonic : Text} {operand : Operand}
    (h : instruction? source = some (mnemonic, operand)) :
    ∃ statement text, statement? source = some statement ∧
      statement.code? = .ok (some (mnemonic, text)) ∧ mnemonic ≠ directiveName ∧
      parseOperand text = .ok operand := by
  unfold instruction? at h
  split at h
  next found text hCode =>
    obtain ⟨statement, hStatement, hCode⟩ := Option.map_eq_some_iff.mp hCode
    split at h
    next => cases h
    next hName =>
      obtain ⟨parsed, hParse, hPair⟩ := Option.map_eq_some_iff.mp h
      cases hPair
      exact ⟨statement, text, hStatement, hCode, hName, except_toOption_eq_some.mp hParse⟩
  next => cases h

theorem Value.label?_eq_some {value : Value} {name : Text} (h : value.label? = some name) :
    value = .label name := by
  cases value with
  | number value => cases h
  | label other =>
      cases h
      rfl

/-- An operand gives one value only, so if it refers to a label the value is that label. -/
theorem Operand.Gives.label_eq {operand : Operand} {value : Value} {mode : AddressingMode}
    {narrow? : Option AddressingMode} (h : operand.Gives value mode narrow?) {name : Text}
    (hName : operand.label? = some name) : value = .label name := by
  cases h <;> exact Value.label?_eq_some hName

/-- What a look-up contributes to an operand: something of the label, or a placeholder
and a reference. -/
theorem resolved_cases {symbols : SymbolTable} {name : Text} {known : Label → Nat}
    {placeholder value : Nat} {reference : LabelRef} {pending : Option LabelRef}
    (h : (match symbols.lookup? name with
      | some label => (known label, none)
      | none => (placeholder, some reference)) = (value, pending)) :
    (∃ label, symbols.lookup? name = some label ∧ value = known label ∧ pending = none) ∨
    (symbols.lookup? name = none ∧ value = placeholder ∧ pending = some reference) := by
  cases hLabel : symbols.lookup? name with
  | some label =>
      rw [hLabel] at h
      cases h
      exact .inl ⟨label, rfl, rfl, rfl⟩
  | none =>
      rw [hLabel] at h
      cases h
      exact .inr ⟨rfl, rfl, rfl⟩

section

variable {forms : List Descriptor} {address : Address} {seen final : SymbolTable}
  {operand : Operand} {encoding : Encoding} {line : Nat} {code : CodeLine}

/-- A line whose label was known is finished as it is. -/
theorem eq_of_fillLine_placed (hPending : encoding.pending = none)
    (h : fillLine final (encoding.placed address line) = .ok code) :
    code = encoding.placed address line := by
  rcases fillLine_eq_ok h with ⟨-, hSame⟩ | ⟨reference, label, hSome, -, -⟩
  · exact hSame
  · cases hPending.symm.trans hSome

/-- A line whose label was not known is filled with the label of that name. -/
theorem fill_of_fillLine_placed {reference : LabelRef}
    (hPending : encoding.pending = some reference)
    (h : fillLine final (encoding.placed address line) = .ok code) :
    ∃ label, final.lookup? reference.name = some label ∧
      (encoding.placed address line).fill label.address = .ok code := by
  rcases fillLine_eq_ok h with ⟨hNone, -⟩ | ⟨other, label, hSome, hLabel, hFill⟩
  · cases hPending.symm.trans hNone
  · cases hPending.symm.trans hSome
    exact ⟨label, hLabel, hFill⟩

theorem fill_address {opcode low high : Byte} (hBytes : code.bytes = [opcode, low, high])
    (target : Address) : code.fill target =
      .ok { code with bytes := [opcode, lowByte target, highByte target], pending := none } := by
  simp only [CodeLine.fill, hBytes]

theorem fill_half {opcode byte : Byte} (hBytes : code.bytes = [opcode, byte])
    (hMode : code.descriptor.mode ≠ .relative) (target : Address) : code.fill target =
      .ok { code with bytes := [opcode, code.select.apply target], pending := none } := by
  simp only [CodeLine.fill, hBytes, if_neg hMode]

/-- A branch takes the distance, counted from its own address. -/
theorem fill_branch {opcode byte : Byte} (hBytes : code.bytes = [opcode, byte])
    (hMode : code.descriptor.mode = .relative) (target : Address) : code.fill target =
      .ok { code with
        bytes := [opcode, branchOffset code.address target.toNat], pending := none } := by
  simp only [CodeLine.fill, hBytes, if_pos hMode]

/-- A line of three bytes stands for its label: the address was emitted if the label was known,
and it is filled in if not. -/
theorem denotes_wide {value : Value} {narrow? : Option AddressingMode} {form : Descriptor}
    {target : Nat} {pending : Option LabelRef} {name : Text}
    (hOperand : operand.Gives value form.mode narrow?) (hForm : form ∈ Catalog.all)
    (hName : operand.label? = some name)
    (hValue : resolveValue seen addressPlaceholder value = (target, pending))
    (hLater : ∀ {label}, seen.lookup? name = some label → final.lookup? name = some label)
    (hFill : fillLine final ((emit form target pending).placed address line) = .ok code) :
    ∃ label, final.lookup? name = some label ∧ code.Denotes label.address operand := by
  have hHalves : ∀ label : Label, (lowByte label.address).toNat +
      256 * (highByte label.address).toNat = label.address.toNat := by
    intro label
    rw [← toNat_word, word_lowByte_highByte]
  have hBytes := emit_bytes hForm target pending
  rw [hOperand.size_wide] at hBytes
  obtain rfl := hOperand.label_eq hName
  rcases resolved_cases hValue with ⟨label, hLabel, rfl, rfl⟩ | ⟨-, rfl, rfl⟩
  · obtain rfl := eq_of_fillLine_placed rfl hFill
    rw [operandField_address] at hBytes
    exact ⟨label, hLater hLabel, .wide hOperand hBytes (hHalves label)⟩
  · obtain ⟨label, hLabel, hFill⟩ := fill_of_fillLine_placed rfl hFill
    rw [fill_address hBytes] at hFill
    cases hFill
    exact ⟨label, hLabel, .wide hOperand rfl (hHalves label)⟩

/-- A form of two bytes is taken for a label that is known to be low, so there is nothing
to fill in afterwards: the placeholder of an unknown one would not fit. -/
theorem denotes_narrow {value : Value} {wide : AddressingMode} {form : Descriptor}
    {target : Nat} {pending : Option LabelRef} {name : Text}
    (hOperand : operand.Gives value wide (some form.mode)) (hForm : form ∈ Catalog.all)
    (hName : operand.label? = some name)
    (hValue : resolveValue seen addressPlaceholder value = (target, pending))
    (hRange : target ≤ 0xFF)
    (hLater : ∀ {label}, seen.lookup? name = some label → final.lookup? name = some label)
    (hFill : fillLine final ((emit form target pending).placed address line) = .ok code) :
    ∃ label, final.lookup? name = some label ∧ code.Denotes label.address operand := by
  have hBytes := emit_bytes hForm target pending
  rw [hOperand.size_narrow.1] at hBytes
  obtain rfl := hOperand.label_eq hName
  rcases resolved_cases hValue with ⟨label, hLabel, rfl, rfl⟩ | ⟨-, rfl, rfl⟩
  · obtain rfl := eq_of_fillLine_placed rfl hFill
    refine ⟨label, hLater hLabel, .narrow hOperand hBytes hRange ?_⟩
    rw [UInt8.toNat_ofNat', Nat.mod_eq_of_lt (by omega)]
  · exact absurd hRange (by decide)

/-- One half of a label goes into the one byte, from the address that is known or from the one
that is filled in. -/
theorem denotes_half {select : ByteSelect} {name : Text} {form : Descriptor} {value : Nat}
    {pending : Option LabelRef} (hForm : form ∈ Catalog.all) (hMode : form.mode = .immediate)
    (hValue : resolveHalf seen select name = (value, pending))
    (hLater : ∀ {label}, seen.lookup? name = some label → final.lookup? name = some label)
    (hFill : fillLine final ((emit form value pending).placed address line) = .ok code) :
    ∃ label, final.lookup? name = some label ∧
      code.Denotes label.address (.immediateLabel select name) := by
  have hBytes := emit_bytes hForm value pending
  rw [hMode] at hBytes
  rcases resolved_cases hValue with ⟨label, hLabel, rfl, rfl⟩ | ⟨-, rfl, rfl⟩
  · obtain rfl := eq_of_fillLine_placed rfl hFill
    refine ⟨label, hLater hLabel, .half hMode hBytes ?_⟩
    rw [UInt8.ofNat_toNat, toNat_apply]
  · obtain ⟨label, hLabel, hFill⟩ := fill_of_fillLine_placed rfl hFill
    have hOther : form.mode ≠ .relative := by
      rw [hMode]
      decide
    rw [fill_half hBytes hOther] at hFill
    cases hFill
    exact ⟨label, hLabel, .half hMode rfl (toNat_apply select label.address)⟩

/-- The distance is taken from the address of the label, early or late, so it is the same. -/
theorem denotes_branch {name : Text} {form : Descriptor} {target : Nat}
    {pending : Option LabelRef} (hMode : form.mode = .relative)
    (hValue : resolveValue seen addressPlaceholder (.label name) = (target, pending))
    (hLater : ∀ {label}, seen.lookup? name = some label → final.lookup? name = some label)
    (hEncoding : encoding =
      { descriptor := form, bytes := [form.opcode, branchOffset address target], pending })
    (hFill : fillLine final (encoding.placed address line) = .ok code) :
    ∃ label, final.lookup? name = some label ∧
      code.Denotes label.address (.direct (.label name)) := by
  subst hEncoding
  rcases resolved_cases hValue with ⟨label, hLabel, rfl, rfl⟩ | ⟨-, rfl, rfl⟩
  · obtain rfl := eq_of_fillLine_placed rfl hFill
    exact ⟨label, hLater hLabel, .branch hMode rfl (toNat_branchOffset _ _)
      (branchTarget_branchOffset _ _)⟩
  · obtain ⟨label, hLabel, hFill⟩ := fill_of_fillLine_placed rfl hFill
    rw [fill_branch rfl hMode] at hFill
    cases hFill
    exact ⟨label, hLabel, .branch hMode rfl (toNat_branchOffset _ _)
      (branchTarget_branchOffset _ _)⟩

/-- However an operand with a label was encoded, and whether or not the label was known
by then, the finished line stands for the address of the label. -/
theorem Encodes.denotes {name : Text} (h : Encodes forms address seen operand encoding)
    (hForms : ∀ form ∈ forms, form ∈ Catalog.all) (hName : operand.label? = some name)
    (hLater : ∀ {label}, seen.lookup? name = some label → final.lookup? name = some label)
    (hFill : fillLine final (encoding.placed address line) = .ok code) :
    ∃ label, final.lookup? name = some label ∧ code.Denotes label.address operand := by
  cases h with
  | @branch form value _ _ hForm hValue hRange =>
      obtain rfl := Value.label?_eq_some hName
      exact denotes_branch (Catalog.inMode?_eq_some hForm).2 hValue hLater rfl hFill
  | implied hOperand hForm => rcases hOperand with rfl | rfl <;> cases hName
  | immediate => cases hName
  | half hForm hValue =>
      obtain ⟨hMem, hMode⟩ := Catalog.inMode?_eq_some hForm
      cases hName
      exact denotes_half (hForms _ hMem) hMode hValue hLater hFill
  | pointer hOperand => cases hOperand <;> cases hName
  | wide hOperand hForm _ hValue _ =>
      obtain ⟨hMem, rfl⟩ := Catalog.inMode?_eq_some hForm
      exact denotes_wide hOperand (hForms _ hMem) hName hValue hLater hFill
  | narrow hOperand hForm _ hValue hRange =>
      obtain ⟨hMem, rfl⟩ := Catalog.inMode?_eq_some hForm
      exact denotes_narrow hOperand (hForms _ hMem) hName hValue hRange hLater hFill

end

/-- An instruction of a source text, through both passes: its forms are executable, it is
encoded with the labels known by then, and the result is finished in the end. -/
theorem Assembles.exists_instruction {source : Text} {layout : Layout} {program : Program}
    (h : Assembles source layout program) {i : Nat} {line mnemonic : Text} {operand : Operand}
    (hLine : (Text.lines source)[i]? = some line)
    (hInstruction : instruction? line = some (mnemonic, operand)) :
    ∃ before statement entered forms encoding code,
      Layout.addLines Catalog.forMnemonic? {} 1 ((Text.lines source).take i) = .ok before ∧
      statement? line = some statement ∧ before.enter (i + 1) statement = .ok entered ∧
      entered.symbols.labels <+: layout.symbols.labels ∧
      Catalog.forMnemonic? mnemonic = some forms ∧ (∀ form ∈ forms, form ∈ Catalog.all) ∧
      encode mnemonic forms operand entered.counter entered.symbols = .ok encoding ∧
      fillLine layout.symbols.settle (encoding.placed entered.counter (i + 1)) = .ok code ∧
      (program.lines.filter fun other => other.line = i + 1) = [code] := by
  obtain ⟨statement, text, hStatement, hCode, hName, hParse⟩ :=
    instruction?_eq_some hInstruction
  obtain ⟨before, entered, encoding, code, hBefore, hEnter, hSeen, hEncode, hFill, hOnly⟩ :=
    h.exists_encoding hLine hStatement hCode
  rcases encodeStatement_eq_ok hEncode with
    ⟨hDirective, -⟩ | ⟨forms, parsed, hForms, hAll, hRead, hEncode⟩
  · exact absurd hDirective hName
  · cases hParse.symm.trans hRead
    exact ⟨before, statement, entered, forms, encoding, code, hBefore, hStatement, hEnter, hSeen,
      hForms, hAll, hEncode, hFill, hOnly⟩

/-- In an accepted source text, every label of an operand is defined exactly once, and
the operand bytes stand for its final address, wherever and however it is defined. -/
theorem assemble_denotes {source : Text} {program : Program} (h : assemble source = .ok program)
    {i : Nat} {line mnemonic name : Text} {operand : Operand}
    (hLine : (Text.lines source)[i]? = some line)
    (hInstruction : instruction? line = some (mnemonic, operand))
    (hName : operand.label? = some name) :
    ∃ label code, (program.labels.filter fun other => other.name = name) = [label] ∧
      (program.lines.filter fun other => other.line = i + 1) = [code] ∧
      code.pending = none ∧ code.Denotes label.address operand := by
  obtain ⟨layout, hAssembles⟩ := exists_layout h
  obtain ⟨before, statement, entered, forms, encoding, code, -, -, -, hSeen, -, hAll, hEncode,
    hFill, hOnly⟩ := hAssembles.exists_instruction hLine hInstruction
  obtain ⟨label, hLabel, hDenotes⟩ := (encodes_of_encode hEncode).denotes hAll hName
    (hAssembles.lookup?_settle hSeen) hFill
  exact ⟨label, code, hAssembles.filter_label hLabel, hOnly,
    (finishes_of_fillLine hFill).settled, hDenotes⟩

/-- A label that is defined further down, and relative to one further down still. -/
theorem assemble_denotes_forward :
    ∃ program, assemble "LDA FAR,X\nFAR = END + 2\nEND: BNE END".toList = .ok program ∧
      ∃ label code,
        (program.labels.filter fun other => other.name = "FAR".toList) = [label] ∧
        (program.lines.filter fun other => other.line = 1) = [code] ∧
        code.pending = none ∧
        code.Denotes label.address (.indexedX (.label "FAR".toList)) := by
  have hLine : (Text.lines "LDA FAR,X\nFAR = END + 2\nEND: BNE END".toList)[0]? =
      some "LDA FAR,X".toList := by decide
  have hInstruction : instruction? "LDA FAR,X".toList =
      some ("LDA".toList, .indexedX (.label "FAR".toList)) := by rfl
  exact ⟨_, rfl, assemble_denotes rfl hLine hInstruction rfl⟩

end Micro6502.Assembly
