import Micro6502.Proofs.Assembly.Numeral
import Micro6502.Proofs.Assembly.Reference

/-! Numbers from the text of a source to the program. Reading caps a number that is too large,
and each place has a range check of its own; together they keep the exact value of a number
of any length, or the source is rejected. -/

namespace Micro6502.Assembly

open Text

/-- What a number on a line of source is for. -/
inductive Role where
  /-- The address at which code continues. -/
  | address
  /-- The distance between a label and the one that it is relative to. -/
  | distance (name dependency : Text) (offset : Int)
  | operand (operand : Operand)
  /-- An entry in the value list of a byte directive. -/
  | entry (index : Nat)

/-- The places of a line of source where numbers stand, or where one may stand instead of a
label. `A` alone is the accumulator, even if it follows a `$`. -/
inductive Literal (line : Text) : Numeral → Role → Prop
  | setAddress {address : Address} (hStatement : statement? line = some (.setAddress address)) :
      Literal line (marked (trim (behind '=' (normalize line)))) .address
  | addressLabel {address : Address} {rest : Text}
      (hStatement : statement? line = some (.addressLabel address rest)) :
      Literal line (marked (upTo ':' (normalize line))) .address
  | labelMath {name dependency : Text} {offset : Int}
      (hStatement : statement? line = some (.labelMath name dependency offset)) :
      Literal line
        { radix := .decimal, digits := trim (behindSign (behind '=' (normalize line))) }
        (.distance name dependency offset)
  | operand {statement : Statement} {mnemonic text : Text} {operand : Operand}
      (hStatement : statement? line = some statement)
      (hCode : statement.code? = .ok (some (mnemonic, text))) (hName : mnemonic ≠ directiveName)
      (hOperand : parseOperand text = .ok operand) (hValue : operand ≠ .accumulator) :
      Literal line (operandNumeral text) (.operand operand)
  | entry {statement : Statement} {text entry : Text} {index : Nat}
      (hStatement : statement? line = some statement)
      (hCode : statement.code? = .ok (some (directiveName, text)))
      (hEntry : (fields ',' text)[index]? = some entry) :
      Literal line (marked (trim entry)) (.entry index)

/-- A finished line of code carries a number, according to its operand: in its one operand
byte, in one or two operand bytes with the low one first, or as the distance to it from the end
of a branch. -/
inductive CodeLine.Carries (code : CodeLine) (number : Nat) : Operand → Prop
  | immediate {byte : Byte} (hRange : number ≤ 0xFF)
      (hBytes : code.bytes = [code.descriptor.opcode, byte]) (hByte : byte.toNat = number) :
      Carries code number (.immediate number)
  | pointer {operand : Operand} {byte : Byte}
      (hOperand : operand.Points (.number number) code.descriptor.mode) (hRange : number ≤ 0xFF)
      (hBytes : code.bytes = [code.descriptor.opcode, byte]) (hByte : byte.toNat = number) :
      Carries code number operand
  | address {operand : Operand} {mode : AddressingMode} {narrow? : Option AddressingMode}
      {field : List Byte} (hOperand : operand.Gives (.number number) mode narrow?)
      (hMode : code.descriptor.mode = mode ∨ narrow? = some code.descriptor.mode)
      (hRange : number ≤ 0xFFFF) (hBytes : code.bytes = code.descriptor.opcode :: field)
      (hLength : field.length = 1 ∨ field.length = 2)
      (hField : Nat.ofDigits 256 (field.map UInt8.toNat) = number) : Carries code number operand
  | branch {byte : Byte} (hMode : code.descriptor.mode = .relative) (hRange : number ≤ 0xFFFF)
      (hBytes : code.bytes = [code.descriptor.opcode, byte])
      (hByte : (byte.toNat : Int) = ((number : Int) - code.address.toNat - 2) % 256) :
      Carries code number (.direct (.number number))

/-- What a program keeps of a number on the source line of the given number, where the first
pass stands at `entered` in front of the code of the line. -/
def Role.Keeps (program : Program) (entered : Layout) (line number : Nat) : Role → Prop
  | .address => number ≤ 0xFFFF ∧ entered.counter.toNat = number ∧
    entered.origin = some entered.counter
  | .distance name dependency offset => offset.natAbs = number ∧
    ∃ label ∈ program.labels, ∃ base ∈ program.labels, label.name = name ∧
      base.name = dependency ∧ label.address = base.address + .ofInt offset
  | .operand parsed => ∃ code,
    (program.lines.filter fun other => other.line = line) = [code] ∧ code.Carries number parsed
  | .entry index => number ≤ 0xFF ∧ ∃ code,
    (program.lines.filter fun other => other.line = line) = [code] ∧
      (code.bytes[index]?).map UInt8.toNat = some number

section

variable {forms : List Descriptor} {address : Address} {seen final : SymbolTable}
  {operand : Operand} {encoding : Encoding} {line number : Nat} {code : CodeLine}

/-- The number in an operand field of one byte or two. -/
theorem ofDigits_operandField (h : number ≤ 0xFFFF) :
    Nat.ofDigits 256 ((operandField 3 number).map UInt8.toNat) = number := by
  simp only [operandField, List.map_cons, List.map_nil, Nat.ofDigits_cons, Nat.ofDigits_nil,
    UInt8.toNat_ofNat']
  omega

/-- However an operand with a number was encoded, the finished line carries the number. -/
theorem Encodes.carries (h : Encodes forms address seen operand encoding)
    (hForms : ∀ form ∈ forms, form ∈ Catalog.all) (hNumber : operand.number? = some number)
    (hFill : fillLine final (encoding.placed address line) = .ok code) :
    code.Carries number operand := by
  cases h with
  | branch hForm hValue hRange =>
      obtain rfl := Processor.number?_eq_some hNumber
      cases hValue
      obtain rfl := eq_of_fillLine_placed rfl hFill
      exact .branch (Catalog.inMode?_eq_some hForm).2 hRange rfl (toNat_branchOffset _ _)
  | implied hOperand => rcases hOperand with rfl | rfl <;> cases hNumber
  | half => cases hNumber
  | immediate hRange hForm =>
      cases hNumber
      obtain ⟨hMem, hMode⟩ := Catalog.inMode?_eq_some hForm
      have hBytes := emit_bytes (hForms _ hMem) number none
      rw [hMode] at hBytes
      obtain rfl := eq_of_fillLine_placed rfl hFill
      exact .immediate hRange hBytes (UInt8.toNat_ofNat_of_lt' (Nat.lt_succ_of_le hRange))
  | pointer hOperand hForm _ hValue hRange =>
      obtain rfl := Processor.number_eq_of_points hOperand hNumber
      cases hValue
      obtain ⟨hMem, rfl⟩ := Catalog.inMode?_eq_some hForm
      have hBytes := emit_bytes (hForms _ hMem) number none
      rw [hOperand.size.1] at hBytes
      obtain rfl := eq_of_fillLine_placed rfl hFill
      exact .pointer hOperand hRange hBytes (UInt8.toNat_ofNat_of_lt' (Nat.lt_succ_of_le hRange))
  | wide hOperand hForm _ hValue hRange =>
      obtain rfl := Processor.number_eq_of_gives hOperand hNumber
      cases hValue
      obtain ⟨hMem, rfl⟩ := Catalog.inMode?_eq_some hForm
      have hBytes := emit_bytes (hForms _ hMem) number none
      rw [hOperand.size_wide] at hBytes
      obtain rfl := eq_of_fillLine_placed rfl hFill
      exact .address hOperand (.inl rfl) hRange hBytes (.inr rfl) (ofDigits_operandField hRange)
  | narrow hOperand hForm _ hValue hRange =>
      obtain rfl := Processor.number_eq_of_gives hOperand hNumber
      cases hValue
      obtain ⟨hMem, rfl⟩ := Catalog.inMode?_eq_some hForm
      have hBytes := emit_bytes (hForms _ hMem) number none
      rw [hOperand.size_narrow.1] at hBytes
      obtain rfl := eq_of_fillLine_placed rfl hFill
      exact .address hOperand (.inr rfl) (hRange.trans (by decide)) hBytes (.inl rfl)
        (UInt8.toNat_ofNat_of_lt' (Nat.lt_succ_of_le hRange))

theorem CodeLine.Carries.le (h : code.Carries number operand) : number ≤ 0xFFFF := by
  cases h with
  | immediate hRange | pointer _ hRange => exact hRange.trans (by decide)
  | address _ _ hRange | branch _ hRange => exact hRange

end

/-- A relative label enters the table with its distance, exactly as the statement has it. -/
theorem mem_of_enter_labelMath {layout next : Layout} {line : Nat} {name dependency : Text}
    {offset : Int} (h : layout.enter line (.labelMath name dependency offset) = .ok next) :
    { name, address := layout.counter, dependency := some { label := dependency, offset }, line } ∈
      next.symbols.labels := by
  simp only [Layout.enter, Layout.defineRelative] at h
  split at h
  · cases h
  next symbols hDefine =>
    cases h
    rw [(SymbolTable.defineRelative_eq_ok hDefine).2]
    exact List.mem_append_right _ (List.mem_singleton.mpr rfl)

namespace Assembles

variable {source : Text} {layout : Layout} {program : Program}

/-- A statement of a source text is entered when the pass comes by its line. -/
theorem exists_entered (h : Assembles source layout program) {i : Nat} {line : Text}
    (hLine : (Text.lines source)[i]? = some line) {statement : Statement}
    (hStatement : statement? line = some statement) :
    ∃ before entered,
      Layout.addLines Catalog.forMnemonic? {} 1 ((Text.lines source).take i) = .ok before ∧
      before.enter (i + 1) statement = .ok entered ∧
      entered.symbols.labels <+: layout.symbols.labels := by
  obtain ⟨before, after, hBefore, hTakes, hAfter⟩ := Layout.addLines_getElem? h.laidOut hLine
  rw [Nat.add_comm] at hTakes
  cases hTakes with
  | blank hBlank => simp [statement?, hBlank] at hStatement
  | silent hOther hEnter _ =>
      cases hStatement.symm.trans hOther
      exact ⟨before, _, hBefore, hEnter, hAfter.symbols⟩
  | code hOther hEnter _ _ =>
      cases hStatement.symm.trans hOther
      exact ⟨before, _, hBefore, hEnter, hAfter.symbols⟩

/-- The distance of a relative label is kept in the table, and settling gives the label the
address at that distance from its base. -/
theorem keeps_distance (h : Assembles source layout program) {before entered : Layout}
    {line : Nat} {name dependency : Text} {offset : Int}
    (hEnter : before.enter line (.labelMath name dependency offset) = .ok entered)
    (hSeen : entered.symbols.labels <+: layout.symbols.labels) :
    (Role.distance name dependency offset).Keeps program entered line offset.natAbs := by
  have hMem := hSeen.subset (mem_of_enter_labelMath hEnter)
  obtain ⟨base, hBase, hName, hAddress⟩ := SymbolTable.exists_base h.settled hMem rfl
  refine ⟨rfl, layout.symbols.settled _, ?_, base, ?_, SymbolTable.name_settled _ _, hName,
    hAddress⟩
  · rw [h.labels]
    exact List.mem_map_of_mem hMem
  · rw [h.labels]
    exact hBase

/-- The number of an operand is carried by the one line of code that its line was encoded as. -/
theorem keeps_operand (h : Assembles source layout program) {i : Nat} {line mnemonic : Text}
    {operand : Operand} (hLine : (Text.lines source)[i]? = some line)
    (hInstruction : instruction? line = some (mnemonic, operand)) {number : Nat}
    (hNumber : operand.number? = some number) (entered : Layout) :
    number ≤ 0xFFFF ∧ (Role.operand operand).Keeps program entered (i + 1) number := by
  obtain ⟨before, statement, _, forms, encoding, code, -, -, -, -, -, hAll, hEncode, hFill,
    hOnly⟩ := h.exists_instruction hLine hInstruction
  have hCarries := (encodes_of_encode hEncode).carries hAll hNumber hFill
  exact ⟨hCarries.le, code, hOnly, hCarries⟩

/-- An entry of a value list is a number, and the byte at its index has that value. -/
theorem exists_entry (h : Assembles source layout program) {i : Nat} {line text : Text}
    (hLine : (Text.lines source)[i]? = some line) {statement : Statement}
    (hStatement : statement? line = some statement)
    (hCode : statement.code? = .ok (some (directiveName, text))) {index : Nat} {entry : Text}
    (hEntry : (fields ',' text)[index]? = some entry) (entered : Layout) :
    ∃ number, (marked (trim entry)).value? = some number ∧
      (Role.entry index).Keeps program entered (i + 1) number := by
  obtain ⟨before, _, encoding, code, -, -, -, hEncode, hFill, hOnly⟩ :=
    h.exists_encoding hLine hStatement hCode
  rcases encodeStatement_eq_ok hEncode with
    ⟨-, bytes, hBytes, -, rfl⟩ | ⟨forms, parsed, hForms, hAll, -, -⟩
  · obtain rfl := eq_of_fillLine_placed rfl hFill
    have hEntries := value?_of_parseByteList hBytes
    obtain ⟨hIndex, rfl⟩ := List.getElem?_eq_some_iff.mp hEntry
    have hByte : index < bytes.length := hEntries.length_eq ▸ hIndex
    have hFound : bytes[index]? = some bytes[index] := List.getElem?_eq_getElem hByte
    exact ⟨bytes[index].toNat, hEntries.get hIndex hByte,
      Nat.le_of_lt_succ bytes[index].toNat_lt, _, hOnly, congrArg (Option.map UInt8.toNat) hFound⟩
  · exact absurd rfl (ne_directiveName hForms hAll)

end Assembles

/-- A numeral stands for its value, however long it is, or it is rejected. In an accepted source
text each of them is found again with that value, as an address, a distance, an operand or a
byte; what is no number is a label or nothing. What is read of a numeral is its value up to the
limit of reading. -/
theorem assemble_literal {source : Text} {program : Program} (h : assemble source = .ok program)
    {i : Nat} {line : Text} (hLine : (Text.lines source)[i]? = some line) {numeral : Numeral}
    {role : Role} (hLiteral : Literal line numeral role) :
    (∃ before statement entered,
      Layout.addLines Catalog.forMnemonic? {} 1 ((Text.lines source).take i) = .ok before ∧
      statement? line = some statement ∧ before.enter (i + 1) statement = .ok entered ∧
      ((∃ number, numeral.value? = some number ∧ role.Keeps program entered (i + 1) number) ∨
        numeral.value? = none ∧ ∃ operand, role = .operand operand ∧ operand.number? = none)) ∧
    ∀ (radix : Radix) (digits : Text),
      radix.read? digits = (radix.value? digits).map (min · numeralLimit) := by
  obtain ⟨layout, hAssembles⟩ := exists_layout h
  refine ⟨?_, Radix.read?_eq_min⟩
  cases hLiteral with
  | @setAddress address hStatement =>
      obtain ⟨before, entered, hBefore, hEnter, -⟩ := hAssembles.exists_entered hLine hStatement
      have hValue := (reads_of_statement? hStatement).value?_setAddress
      refine ⟨before, _, entered, hBefore, hStatement, hEnter, .inl ⟨_, hValue, ?_⟩⟩
      cases hEnter
      exact ⟨Nat.le_of_lt_succ address.toNat_lt, rfl, rfl⟩
  | @addressLabel address rest hStatement =>
      obtain ⟨before, entered, hBefore, hEnter, -⟩ := hAssembles.exists_entered hLine hStatement
      have hValue := (reads_of_statement? hStatement).value?_addressLabel
      refine ⟨before, _, entered, hBefore, hStatement, hEnter, .inl ⟨_, hValue, ?_⟩⟩
      cases hEnter
      exact ⟨Nat.le_of_lt_succ address.toNat_lt, rfl, rfl⟩
  | labelMath hStatement =>
      obtain ⟨before, entered, hBefore, hEnter, hSeen⟩ :=
        hAssembles.exists_entered hLine hStatement
      have hValue := (reads_of_statement? hStatement).value?_labelMath
      exact ⟨before, _, entered, hBefore, hStatement, hEnter,
        .inl ⟨_, hValue, hAssembles.keeps_distance hEnter hSeen⟩⟩
  | @operand statement mnemonic text operand hStatement hCode hName hOperand hValue =>
      obtain ⟨before, entered, hBefore, hEnter, -⟩ := hAssembles.exists_entered hLine hStatement
      have hInstruction : instruction? line = some (mnemonic, operand) := by
        simp [instruction?, hStatement, hCode, hName, hOperand, Except.toOption]
      have hRead := number?_of_parseOperand hOperand hValue
      refine ⟨before, statement, entered, hBefore, hStatement, hEnter, ?_⟩
      cases hNumber : operand.number? with
      | none =>
          exact .inr ⟨Numeral.value?_eq_none (hRead.symm.trans hNumber), operand, rfl, hNumber⟩
      | some number =>
          obtain ⟨hRange, hKeeps⟩ := hAssembles.keeps_operand hLine hInstruction hNumber entered
          refine .inl ⟨number, Numeral.value?_of_read? (hRead.symm.trans hNumber) ?_, hKeeps⟩
          exact Nat.lt_of_le_of_lt hRange (by decide)
  | entry hStatement hCode hEntry =>
      obtain ⟨before, entered, hBefore, hEnter, -⟩ := hAssembles.exists_entered hLine hStatement
      exact ⟨before, _, entered, hBefore, hStatement, hEnter,
        .inl (hAssembles.exists_entry hLine hStatement hCode hEntry entered)⟩

/-- A number with more digits than the limit of reading has, and still a small one. -/
theorem assemble_literal_padded :
    let source := "*=768\nSTA $00000000000FFFE,X".toList
    let line := "STA $00000000000FFFE,X".toList
    let numeral := operandNumeral "$00000000000FFFE,X".toList
    let role := Role.operand (.indexedX (.number 0xFFFE))
    ∃ program, assemble source = .ok program ∧ (Text.lines source)[1]? = some line ∧
      Literal line numeral role ∧ numeral.value? = some 0xFFFE ∧
      (∃ before statement entered,
        Layout.addLines Catalog.forMnemonic? {} 1 ((Text.lines source).take 1) = .ok before ∧
        statement? line = some statement ∧ before.enter 2 statement = .ok entered ∧
        ((∃ number, numeral.value? = some number ∧ role.Keeps program entered 2 number) ∨
          numeral.value? = none ∧ ∃ operand, role = .operand operand ∧ operand.number? = none)) ∧
      ∀ (radix : Radix) (digits : Text),
        radix.read? digits = (radix.value? digits).map (min · numeralLimit) := by
  intro source line numeral role
  have hLine : (Text.lines source)[1]? = some line := by decide
  have hStatement : statement? line =
      some (.instruction "STA".toList "$00000000000FFFE,X".toList) := by rfl
  have hLiteral : Literal line numeral role :=
    .operand hStatement rfl (by decide) rfl (by decide)
  exact ⟨_, rfl, hLine, hLiteral, by decide, assemble_literal rfl hLine hLiteral⟩

end Micro6502.Assembly
