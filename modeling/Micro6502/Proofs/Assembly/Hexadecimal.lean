import Micro6502.Proofs.Assembly.Grammar
import Micro6502.Proofs.Assembly.Literal

/-! Operands of a `$` and hexadecimal digits. The `$` is taken away before the operand is looked
at, so the digits have to make sure by themselves that they are taken for a number. One string of
digits does not: `A` alone is the accumulator, `$` or no `$`. -/

namespace Micro6502.Assembly

open Text

/-- What comes of a line that has a `$` and digits for its operand: a byte, if that is the value
list of a directive, and otherwise an address, unless the digits are taken for the accumulator. -/
inductive CodeLine.HoldsDollar (code : CodeLine) (digits : Text) (value : Nat) : Prop
  | entry {byte : Byte} (hName : code.descriptor.mnemonic = directiveName)
      (hBytes : code.bytes = [byte]) (hByte : byte.toNat = value) : HoldsDollar code digits value
  | accumulator (hName : code.descriptor.mnemonic ≠ directiveName) (hDigits : digits = ['A'])
      (hMode : code.descriptor.mode = .implied) (hBytes : code.bytes = [code.descriptor.opcode]) :
      HoldsDollar code digits value
  | address (hName : code.descriptor.mnemonic ≠ directiveName) (hDigits : digits ≠ ['A'])
      (hMode : code.descriptor.mode = .zeroPage ∨ code.descriptor.mode = .absolute ∨
        code.descriptor.mode = .relative)
      (hCarries : code.Carries value (.direct (.number value))) : HoldsDollar code digits value

/-- A line that carries a direct number is in a mode of plain addresses, or it is a branch. -/
theorem CodeLine.Carries.mode_of_direct {code : CodeLine} {number : Nat} {value : Value}
    (h : code.Carries number (.direct value)) :
    code.descriptor.mode = .zeroPage ∨ code.descriptor.mode = .absolute ∨
      code.descriptor.mode = .relative := by
  cases h with
  | pointer hOperand => cases hOperand
  | address hOperand hMode =>
      cases hOperand
      rcases hMode with hWide | hNarrow
      · exact .inr (.inl hWide)
      · exact .inl (Option.some.inj hNarrow).symm
  | branch hMode => exact .inr (.inr hMode)

/-- The accumulator is an operand of implied instructions alone, and it takes no bytes. -/
theorem Encodes.implied_of_accumulator {forms : List Descriptor} {address : Address}
    {seen final : SymbolTable} {encoding : Encoding} {line : Nat} {code : CodeLine}
    (h : Encodes forms address seen .accumulator encoding)
    (hForms : ∀ form ∈ forms, form ∈ Catalog.all)
    (hFill : fillLine final (encoding.placed address line) = .ok code) :
    code.descriptor.mode = .implied ∧ code.bytes = [code.descriptor.opcode] := by
  cases h with
  | implied _ hForm =>
      obtain ⟨hMem, hMode⟩ := Catalog.inMode?_eq_some hForm
      have hBytes := emit_bytes (hForms _ hMem) 0 none
      rw [hMode] at hBytes
      obtain rfl := eq_of_fillLine_placed rfl hFill
      exact ⟨hMode, hBytes⟩
  | pointer hOperand => cases hOperand
  | wide hOperand | narrow hOperand => cases hOperand

/-- The three outcomes depend on the digits alone: only the single digit of the accumulator makes
it an operand without a number. -/
theorem Encodes.holdsDollar {forms : List Descriptor} {address : Address}
    {seen final : SymbolTable} {encoding : Encoding} {line value : Nat} {digits : Text}
    {code : CodeLine}
    (h : Encodes forms address seen
      (if digits = ['A'] then .accumulator else .direct (.number (min value numeralLimit)))
      encoding)
    (hForms : ∀ form ∈ forms, form ∈ Catalog.all) (hName : code.descriptor.mnemonic ≠ directiveName)
    (hFill : fillLine final (encoding.placed address line) = .ok code) :
    code.HoldsDollar digits value := by
  by_cases hA : digits = ['A']
  · rw [if_pos hA] at h
    obtain ⟨hMode, hBytes⟩ := h.implied_of_accumulator hForms hFill
    exact .accumulator hName hA hMode hBytes
  · rw [if_neg hA] at h
    have hCarries := h.carries hForms rfl hFill
    -- A number at the limit of reading is in no line, so nothing was cut off.
    have hExact : min value numeralLimit = value := by
      have hRange := hCarries.le
      have hLimit : 0xFFFF < numeralLimit := by decide
      omega
    rw [hExact] at hCarries
    exact .address hName hA hCarries.mode_of_direct hCarries

section

variable {digits : Text} {value : Nat} (hHex : digits ⊆ hexDigits)

include hHex

theorem solid_dollar : Solid ('$' :: digits) := by
  have hAll : Solid ('$' :: hexDigits) := by decide
  exact fun c hMem => hAll c (List.cons_subset_cons '$' hHex hMem)

/-- The dollar sign is gone when the digits are looked at, so one of them is taken for the
accumulator. -/
theorem parseOperand_digits (hValue : Radix.hex.value? digits = some value) :
    parseOperand ('$' :: digits) =
      .ok (if digits = ['A'] then .accumulator
        else .direct (.number (min value numeralLimit))) := by
  refine parseOperand_dollar [] digits List.not_mem_nil (solid_dollar hHex) ?_
  rw [List.nil_append]
  split
  next hA =>
    rw [hA]
    rfl
  next hA => exact operand?_of_derives hA (.direct (.number hValue))

/-- A byte list has no accumulator, and a single entry is its value. -/
theorem parseByteList_digits {bytes : List Byte} (hValue : Radix.hex.value? digits = some value)
    (h : parseByteList ('$' :: digits) = .ok bytes) :
    ∃ byte : Byte, bytes = [byte] ∧ byte.toNat = value := by
  have hComma : ',' ∉ '$' :: digits := fun hMem =>
    absurd (List.cons_subset_cons '$' hHex hMem) (by decide)
  have hEntries := value?_of_parseByteList h
  rw [fields_eq_singleton hComma] at hEntries
  cases hEntries with
  | @cons _ byte _ _ hByte hRest =>
      cases hRest
      rw [(solid_dollar hHex).trim_eq] at hByte
      exact ⟨byte, rfl, Option.some.inj (hByte.symm.trans hValue)⟩

/-- A mnemonic in front of the digits makes the line an instruction with just this operand. -/
theorem statement?_digits (hDigits : digits ≠ []) {mnemonic line : Text}
    (hName : mnemonic.length = 3 ∧ mnemonic ⊆ Catalog.letters)
    (hLine : normalize line = normalize (mnemonic ++ ' ' :: '$' :: digits)) :
    statement? line = some (.instruction mnemonic ('$' :: digits)) := by
  have hSolid := solid_dollar hHex
  have hMark : ∀ {c : Char}, c ∉ ' ' :: '$' :: hexDigits → c ∉ ' ' :: '$' :: digits :=
    fun hc hMem => hc (List.cons_subset_cons _ (List.cons_subset_cons _ hHex) hMem)
  have hPlain : ∀ c ∈ Catalog.letters ++ ' ' :: '$' :: hexDigits, c.toUpper = c ∧ c ≠ ';' :=
    List.all_iff_forall_prop.mp (by decide)
  have hNormal : normalize (mnemonic ++ ' ' :: '$' :: digits) =
      mnemonic ++ ' ' :: '$' :: digits := by
    obtain ⟨a, b, c, rfl⟩ := List.length_eq_three.mp hName.1
    refine normalize_eq_self (fun d hMem => hPlain d ?_) ?_
    · refine List.append_subset.mpr ⟨?_, ?_⟩ hMem
      · exact List.subset_append_of_subset_left _ hName.2
      · exact List.subset_append_of_subset_right _
          (List.cons_subset_cons _ (List.cons_subset_cons _ hHex))
    · have hLetter : isBlank a = false := by
        have hAll : Solid Catalog.letters := by decide
        exact hAll a (hName.2 List.mem_cons_self)
      exact trim_mark hLetter [b, c, ' ', '$'] hDigits fun d hd => hSolid d (.tail _ hd)
  have hNone : mnemonic ++ ' ' :: '$' :: digits ≠ [] := by simp
  rw [statement?, hLine, hNormal, if_neg hNone,
    classify_instruction hName (hMark (by decide)) (hMark (by decide)), trim_cons_blank rfl,
    hSolid.trim_eq]
  rfl

end

/-- A `$` and hexadecimal digits are a number, however many digits there are. An instruction with
such an operand leads to that address, if its line is accepted. The exception is `$A`, which is
the accumulator wherever a byte list would have it as ten. -/
theorem assemble_hexadecimal {digits : Text} (hDigits : digits ≠ []) (hHex : digits ⊆ hexDigits) :
    ∃ value, Radix.hex.value? digits = some value ∧
      parseOperand ('$' :: digits) =
        .ok (if digits = ['A'] then .accumulator
          else .direct (.number (min value numeralLimit))) ∧
      ∀ {d : Descriptor}, d ∈ Catalog.named → ∀ {source line : Text} {program : Program} {i : Nat},
        assemble source = .ok program → (Text.lines source)[i]? = some line →
        normalize line = normalize (d.mnemonic ++ ' ' :: '$' :: digits) →
        ∃ code, (program.lines.filter fun other => other.line = i + 1) = [code] ∧
          code.descriptor.mnemonic = d.mnemonic ∧ code.HoldsDollar digits value := by
  have hAlphabet : hexDigits ⊆ Radix.hex.alphabet := List.all_iff_forall_prop.mp (by decide)
  obtain ⟨value, hValue⟩ :=
    Radix.exists_value?.mpr ⟨hDigits, List.Subset.trans hHex hAlphabet⟩
  have hParse := parseOperand_digits hHex hValue
  refine ⟨value, hValue, hParse, ?_⟩
  intro d hNamed source line program i h hLine hText
  have hStatement :=
    statement?_digits hHex hDigits (Catalog.mnemonic_of_named hNamed) hText
  obtain ⟨layout, hAssembles⟩ := exists_layout h
  obtain ⟨_, entered, encoding, code, -, -, -, hEncode, hFill, hOnly⟩ :=
    hAssembles.exists_encoding hLine hStatement rfl
  rcases encodeStatement_eq_ok hEncode with
    ⟨hDirective, bytes, hBytes, -, rfl⟩ | ⟨forms, parsed, hForms, hAll, hRead, hEncode⟩
  · obtain ⟨byte, rfl, hByte⟩ := parseByteList_digits hHex hValue hBytes
    obtain rfl := eq_of_fillLine_placed rfl hFill
    exact ⟨_, hOnly, hDirective.symm, .entry rfl rfl hByte⟩
  · have hEncodes := encodes_of_encode hEncode
    have hForm := (hEncodes.shape hAll).1
    have hSame : code.descriptor.mnemonic = d.mnemonic := by
      rw [(finishes_of_fillLine hFill).descriptor]
      exact ((Catalog.mem_of_forMnemonic? hForms).mp hForm).2
    have hOther : code.descriptor.mnemonic ≠ directiveName :=
      hSame ▸ ne_directiveName hForms hAll
    cases hParse.symm.trans hRead
    exact ⟨code, hOnly, hSame, hEncodes.holdsDollar hAll hOther hFill⟩

/-- An address with more digits than it needs. -/
theorem assemble_hexadecimal_padded :
    let digits := "0000FFFE".toList
    digits ≠ [] ∧ digits ⊆ hexDigits ∧
      parseOperand ('$' :: digits) = .ok (.direct (.number 0xFFFE)) ∧
      ∃ program code, assemble "sta $0000FFFE ; a vector".toList = .ok program ∧
        (program.lines.filter fun other => other.line = 1) = [code] ∧
        code.descriptor.mnemonic = "STA".toList ∧ code.HoldsDollar digits 0xFFFE := by
  intro digits
  have hDigits : digits ≠ [] := by decide
  have hHex : digits ⊆ hexDigits := List.all_iff_forall_prop.mp (by decide)
  obtain ⟨value, hValue, hParse, hLines⟩ := assemble_hexadecimal hDigits hHex
  obtain rfl : 0xFFFE = value := Option.some.inj hValue
  have hStore : Descriptor.executable .sta .absolute 0x8D ∈ Catalog.named := by decide +kernel
  have hLine : (Text.lines "sta $0000FFFE ; a vector".toList)[0]? =
      some "sta $0000FFFE ; a vector".toList := by decide
  obtain ⟨code, hOnly, hName, hHolds⟩ := hLines hStore rfl hLine (by decide)
  exact ⟨hDigits, hHex, hParse, _, code, rfl, hOnly, hName, hHolds⟩

/-- Ten is not written as `$A` in an operand: the mark is gone when the digit is looked at, and
the accumulator is shifted in place of the byte at the address. -/
theorem assemble_hexadecimal_accumulator :
    let digits := "A".toList
    digits ≠ [] ∧ digits ⊆ hexDigits ∧ Radix.hex.value? digits = some 10 ∧
      parseOperand ('$' :: digits) = .ok .accumulator ∧
      parseOperand ('$' :: digits) ≠ .ok (.direct (.number 10)) ∧
      ∃ program code, assemble "ASL $A".toList = .ok program ∧ program.lines = [code] ∧
        code.descriptor.mode = .implied ∧ code.bytes = [0x0A] := by
  intro digits
  have hHex : digits ⊆ hexDigits := List.all_iff_forall_prop.mp (by decide)
  have hOther : parseOperand ('$' :: digits) ≠ .ok (.direct (.number 10)) := by
    intro hSame
    cases hSame
  exact ⟨by decide, hHex, rfl, rfl, hOther, _, _, rfl, rfl, rfl, rfl⟩

end Micro6502.Assembly
