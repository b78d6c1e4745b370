import Micro6502.Proofs.Assembly.Reference

/-! Labels as pointers into the zero page. Whether the address of a label lies there is
asked when its line is encoded, and so only of a label that is known by then. Any other
label is filled in with its low byte, wherever it turns out to be. -/

namespace Micro6502.Assembly

/-- The label that an operand refers to as a pointer in the zero page. -/
def Operand.pointer? : Operand → Option Text
  | .indirectX value | .indirectY value => value.label?
  | _ => none

/-- The operand byte of a line is the given address, which lies in the zero page. -/
def CodeLine.PointsTo (code : CodeLine) (target : Address) : Prop :=
  target.toNat ≤ 0xFF ∧
    ∃ byte, code.bytes = [code.descriptor.opcode, byte] ∧ byte.toNat = target.toNat

/-- A name is given to a place on one of the first lines, up to the one of index `i`. -/
def MarkedBy (source name : Text) (i : Nat) : Prop :=
  ∃ j ≤ i, ∃ line rest, (Text.lines source)[j]? = some line ∧
    statement? line = some (.label name rest)

theorem Operand.Points.label_eq {operand : Operand} {value : Value} {mode : AddressingMode}
    (h : operand.Points value mode) {name : Text} (hName : operand.pointer? = some name) :
    value = .label name := by
  cases h <;> exact Value.label?_eq_some hName

theorem operandField_low (target : Address) :
    operandField 2 target.toNat = [lowByte target] := by
  simp only [operandField, ofNat_toNat_address]

/-- A pointer through a label that is known is accepted just in the zero page. -/
theorem encode_pointer {mnemonic name : Text} {forms : List Descriptor} {operand : Operand}
    {mode : AddressingMode} {form : Descriptor} {symbols : SymbolTable} {label : Label}
    (hOperand : operand.Points (.label name) mode)
    (hForm : Catalog.inMode? forms mode = some form)
    (hBranch : Catalog.inMode? forms .relative = none)
    (hLabel : symbols.lookup? name = some label) (address : Address) :
    encode mnemonic forms operand address symbols =
      if label.address.toNat ≤ 0xFF then .ok (emit form label.address.toNat none)
      else .error (.outOfRange label.address.toNat) := by
  have hEncode : encode mnemonic forms operand address symbols =
      encodePointer mnemonic forms symbols mode (.label name) := by
    cases hOperand <;> simp only [encode, hBranch]
  rw [hEncode]
  simp only [encodePointer, resolveValue, hLabel, checkRange]
  split
  · rw [require_eq_ok.mpr hForm]
    rfl
  · rfl

section

variable {forms : List Descriptor} {address : Address} {seen final : SymbolTable}
  {operand : Operand} {encoding : Encoding} {line : Nat} {code : CodeLine} {name : Text}

/-- A pointer through a label is finished as the low byte of its address. The address was
compared with the zero page if the label was known. -/
theorem Encodes.pointer_eq (h : Encodes forms address seen operand encoding)
    (hForms : ∀ form ∈ forms, form ∈ Catalog.all) (hName : operand.pointer? = some name)
    (hLater : ∀ {label}, seen.lookup? name = some label → final.lookup? name = some label)
    (hFill : fillLine final (encoding.placed address line) = .ok code) :
    ∃ label mode, final.lookup? name = some label ∧
      operand.Points (.label name) mode ∧
      Catalog.inMode? forms mode = some code.descriptor ∧
      Catalog.inMode? forms .relative = none ∧
      code.bytes = [code.descriptor.opcode, lowByte label.address] ∧
      (seen.lookup? name ≠ none → label.address.toNat ≤ 0xFF) := by
  cases h with
  | @pointer _ value mode form pointer pending hOperand hForm hBranch hValue hRange =>
      obtain ⟨hMem, rfl⟩ := Catalog.inMode?_eq_some hForm
      have hBytes := emit_bytes (hForms _ hMem) pointer pending
      rw [hOperand.size.1] at hBytes
      obtain rfl := hOperand.label_eq hName
      rcases resolved_cases hValue with ⟨label, hLabel, rfl, rfl⟩ | ⟨hUnknown, rfl, rfl⟩
      · obtain rfl := eq_of_fillLine_placed rfl hFill
        rw [operandField_low] at hBytes
        exact ⟨label, _, hLater hLabel, hOperand, hForm, hBranch, hBytes, fun _ => hRange⟩
      · obtain ⟨label, hLabel, hFill⟩ := fill_of_fillLine_placed rfl hFill
        rw [fill_half hBytes hOperand.size.2] at hFill
        cases hFill
        exact ⟨label, _, hLabel, hOperand, hForm, hBranch, rfl, fun h => absurd hUnknown h⟩
  | branch => cases hName
  | implied hOperand => rcases hOperand with rfl | rfl <;> cases hName
  | immediate => cases hName
  | half => cases hName
  | wide hOperand | narrow hOperand => cases hOperand <;> cases hName

end

/-- A name that was given to a place by a line is known when the line is encoded. -/
theorem lookup?_of_markedBy {source line name : Text} {i : Nat} {before entered : Layout}
    {statement : Statement}
    (hBefore : Layout.addLines Catalog.forMnemonic? {} 1 ((Text.lines source).take i) =
      .ok before)
    (hLine : (Text.lines source)[i]? = some line) (hStatement : statement? line = some statement)
    (hEnter : before.enter (i + 1) statement = .ok entered) (hMarked : MarkedBy source name i) :
    entered.symbols.lookup? name ≠ none := by
  have hKnown : ∃ label ∈ entered.symbols.labels, label.name = name ∧
      label.dependency = none := by
    obtain ⟨j, hBound, other, rest, hOther, hLabel⟩ := hMarked
    rcases Nat.eq_or_lt_of_le hBound with rfl | hEarlier
    · cases hOther.symm.trans hLine
      cases hLabel.symm.trans hStatement
      exact ⟨_, Layout.mem_of_enter hEnter, rfl, rfl⟩
    · rw [← List.getElem?_take_of_lt hEarlier] at hOther
      obtain ⟨_, after, -, hTakes, hLater⟩ := Layout.addLines_getElem? hBefore hOther
      obtain ⟨label, hMem, hSame⟩ := hTakes.exists_label hLabel
      have hExtends := hLater.trans (Layout.extends_enter hEnter)
      exact ⟨label, hExtends.symbols.subset hMem, hSame⟩
  obtain ⟨label, hMem, hSame, hPlain⟩ := hKnown
  intro hNone
  have hMiss := List.find?_eq_none.mp hNone label hMem
  simp [hSame, hPlain] at hMiss

/-- A pointer through a label, in an accepted source text. The operand byte is always the
low byte of the address. It is the address itself only if the name was given to a place
by the time of the line or the address happens to lie in the zero page; where neither
holds, the same operand against the finished table is out of range. -/
theorem assemble_pointer {source : Text} {program : Program} (h : assemble source = .ok program)
    {i : Nat} {line mnemonic name : Text} {operand : Operand}
    (hLine : (Text.lines source)[i]? = some line)
    (hInstruction : instruction? line = some (mnemonic, operand))
    (hName : operand.pointer? = some name) :
    ∃ label code forms, (program.labels.filter fun other => other.name = name) = [label] ∧
      (program.lines.filter fun other => other.line = i + 1) = [code] ∧
      code.pending = none ∧
      code.bytes = [code.descriptor.opcode, lowByte label.address] ∧
      (code.PointsTo label.address ↔
        MarkedBy source name i ∨ label.address.toNat ≤ 0xFF) ∧
      Catalog.forMnemonic? mnemonic = some forms ∧
      encode mnemonic forms operand code.address { labels := program.labels } =
        if label.address.toNat ≤ 0xFF then
          .ok { descriptor := code.descriptor, bytes := code.bytes, pending := none }
        else .error (.outOfRange label.address.toNat) := by
  obtain ⟨layout, hAssembles⟩ := exists_layout h
  obtain ⟨before, statement, entered, forms, encoding, code, hBefore, hStatement, hEnter, hSeen,
    hForms, hAll, hEncode, hFill, hOnly⟩ := hAssembles.exists_instruction hLine hInstruction
  obtain ⟨label, mode, hLabel, hOperand, hForm, hBranch, hBytes, hRange⟩ :=
    (encodes_of_encode hEncode).pointer_eq hAll hName (hAssembles.lookup?_settle hSeen) hFill
  obtain ⟨hMem, hMode⟩ := Catalog.inMode?_eq_some hForm
  refine ⟨label, code, forms, hAssembles.filter_label hLabel, hOnly,
    (finishes_of_fillLine hFill).settled, hBytes, ⟨fun hPoints => .inr hPoints.1, ?_⟩,
    hForms, ?_⟩
  · intro hKnown
    have hLow : label.address.toNat ≤ 0xFF := by
      rcases hKnown with hMarked | hLow
      · exact hRange (lookup?_of_markedBy hBefore hLine hStatement hEnter hMarked)
      · exact hLow
    refine ⟨hLow, _, hBytes, ?_⟩
    rw [toNat_lowByte, Nat.mod_eq_of_lt (by omega)]
  · have hEmit : emit code.descriptor label.address.toNat none =
        { descriptor := code.descriptor, bytes := code.bytes, pending := none } := by
      have hField := emit_bytes (hAll _ hMem) label.address.toNat none
      rw [hMode, hOperand.size.1, operandField_low, ← hBytes] at hField
      rw [← hField]
      rfl
    rw [hAssembles.labels, encode_pointer hOperand hForm hBranch hLabel, hEmit]

/-- A pointer above its label. -/
theorem assemble_pointer_behind :
    ∃ program, assemble "*=$0080\nPTR: NOP\nLDA (PTR),Y".toList = .ok program ∧
      ∃ label code forms,
        (program.labels.filter fun other => other.name = "PTR".toList) = [label] ∧
        (program.lines.filter fun other => other.line = 3) = [code] ∧
        code.pending = none ∧
        code.bytes = [code.descriptor.opcode, lowByte label.address] ∧
        (code.PointsTo label.address ↔
          MarkedBy "*=$0080\nPTR: NOP\nLDA (PTR),Y".toList "PTR".toList 2 ∨
            label.address.toNat ≤ 0xFF) ∧
        Catalog.forMnemonic? "LDA".toList = some forms ∧
        encode "LDA".toList forms (.indirectY (.label "PTR".toList)) code.address
            { labels := program.labels } =
          if label.address.toNat ≤ 0xFF then
            .ok { descriptor := code.descriptor, bytes := code.bytes, pending := none }
          else .error (.outOfRange label.address.toNat) := by
  have hLine : (Text.lines "*=$0080\nPTR: NOP\nLDA (PTR),Y".toList)[2]? =
      some "LDA (PTR),Y".toList := by decide
  have hInstruction : instruction? "LDA (PTR),Y".toList =
      some ("LDA".toList, .indirectY (.label "PTR".toList)) := by rfl
  exact ⟨_, rfl, assemble_pointer rfl hLine hInstruction rfl⟩

/-- A pointer in front of its label is accepted where the zero page is not: the label is
at `$0202`, and the pointer at `$02`. -/
theorem assemble_pointer_ahead :
    ∃ program label code, assemble "LDA (PTR),Y\nPTR: NOP".toList = .ok program ∧
      program.labels = [label] ∧ label.name = "PTR".toList ∧ label.address = 0x0202 ∧
      code ∈ program.lines ∧ code.line = 1 ∧ code.bytes = [0xB1, 0x02] ∧
      ¬ code.PointsTo label.address := by
  refine ⟨_, _, _, rfl, rfl, rfl, rfl, List.mem_cons_self, rfl, rfl, ?_⟩
  intro hPoints
  exact absurd hPoints.1 (by decide)

end Micro6502.Assembly
