import Mathlib.Data.List.Basic
import Micro6502.Listing.Walk
import Micro6502.Proofs.Assembly.Grammar

/-! The text of an instruction as a line of source. Case, comments and blanks are no concern
in it, since it is written in characters that reading leaves alone; it is therefore taken
for an instruction, and its operand is read as the number that was written. -/

namespace Micro6502.Listing

open Text Assembly

/-- The characters of instructions in listings, without the blank behind the mnemonic. -/
def alphabet : Text := "0123456789ABCDEFGHIJKLMNOPQRSTUVWXYZ$#(),".toList

theorem solid_of_subset {text : Text} (h : text ⊆ alphabet) : Solid text := by
  have hAll : Solid alphabet := by decide
  exact fun c hMem => hAll c (h hMem)

/-- Reading a line does not change these characters and does not stop at them. -/
theorem plain_of_mem {c : Char} (h : c ∈ ' ' :: alphabet) : c.toUpper = c ∧ c ≠ ';' := by
  have hAll : ∀ c ∈ ' ' :: alphabet, c.toUpper = c ∧ c ≠ ';' :=
    List.all_iff_forall_prop.mp (by decide)
  exact hAll c h

theorem hexDigits_subset : hexDigits ⊆ alphabet :=
  List.all_iff_forall_prop.mp (by decide)

theorem letters_subset : Catalog.letters ⊆ alphabet :=
  List.all_iff_forall_prop.mp (by decide)

theorem dollarByte_subset (byte : Byte) : dollarByte byte ⊆ alphabet :=
  List.cons_subset.mpr ⟨by decide, List.Subset.trans (hexByte_subset byte) hexDigits_subset⟩

theorem dollarWord_subset (address : Address) : dollarWord address ⊆ alphabet :=
  List.cons_subset.mpr ⟨by decide, List.Subset.trans (hexWord_subset address) hexDigits_subset⟩

/-- Operands of all modes are written in these characters. -/
theorem formatOperand_subset (mode : AddressingMode) (address : Address)
    (operand : OperandBytes) : formatOperand mode address operand ⊆ alphabet := by
  have hByte := dollarByte_subset operand.first
  have hWord := dollarWord_subset operand.word
  have hX : ",X".toList ⊆ alphabet := by decide
  have hY : ",Y".toList ⊆ alphabet := by decide
  cases mode with
  | implied => exact List.nil_subset _
  | immediate => exact List.cons_subset.mpr ⟨by decide, hByte⟩
  | zeroPage => exact hByte
  | zeroPageX => exact List.append_subset.mpr ⟨hByte, hX⟩
  | zeroPageY => exact List.append_subset.mpr ⟨hByte, hY⟩
  | relative => exact dollarWord_subset _
  | absolute => exact hWord
  | absoluteX => exact List.append_subset.mpr ⟨hWord, hX⟩
  | absoluteY => exact List.append_subset.mpr ⟨hWord, hY⟩
  | indirect =>
      exact List.cons_subset.mpr ⟨by decide, List.append_subset.mpr ⟨hWord, by decide⟩⟩
  | indirectX | indirectY =>
      exact List.cons_subset.mpr ⟨by decide, List.append_subset.mpr ⟨hByte, by decide⟩⟩

/-- What the operand of an instruction at `address` is read as. -/
def shownOperand (mode : AddressingMode) (address : Address) (operand : OperandBytes) :
    Operand :=
  match mode with
  | .implied => .absent
  | .immediate => .immediate operand.first.toNat
  | .zeroPage => .direct (.number operand.first.toNat)
  | .zeroPageX => .indexedX (.number operand.first.toNat)
  | .zeroPageY => .indexedY (.number operand.first.toNat)
  | .relative => .direct (.number (branchTarget (address + 2) operand.first).toNat)
  | .absolute => .direct (.number operand.word.toNat)
  | .absoluteX => .indexedX (.number operand.word.toNat)
  | .absoluteY => .indexedY (.number operand.word.toNat)
  | .indirect => .indirect (.number operand.word.toNat)
  | .indirectX => .indirectX (.number operand.first.toNat)
  | .indirectY => .indirectY (.number operand.first.toNat)

theorem derives_digits {digits : Text} {number : Nat} (h : HexNumeral digits number) :
    Value.Derives .hex digits (.number number) := by
  have hRead := h.read
  rw [Radix.read?_eq_min, Option.map_eq_some_iff] at hRead
  obtain ⟨value, hValue, rfl⟩ := hRead
  exact .number hValue

theorem derives_immediate {digits : Text} {number : Nat} (h : HexNumeral digits number) :
    Operand.Derives .hex (['#'] ++ digits) (.immediate number) := by
  have hRead := h.read
  rw [Radix.read?_eq_min, Option.map_eq_some_iff] at hRead
  obtain ⟨value, hValue, rfl⟩ := hRead
  exact .immediate (by decide : Blank []) hValue

/-- The operand of an instruction, without its mark, is what the grammar has for its mode. -/
theorem derives_formatOperand (mode : AddressingMode) (address : Address)
    (operand : OperandBytes) (hMode : mode ≠ .implied) :
    ∃ before behind, formatOperand mode address operand = before ++ '$' :: behind ∧
      '$' ∉ before ∧ 2 ≤ (before ++ behind).length ∧
      Operand.Derives .hex (before ++ behind) (shownOperand mode address operand) := by
  have hNil : Blank [] := by decide
  have hShort := hexNumeral_byte operand.first
  have hLong := hexNumeral_word operand.word
  have hTarget := hexNumeral_word (branchTarget (address + 2) operand.first)
  have hByte := derives_digits hShort
  have hWord := derives_digits hLong
  cases mode with
  | implied => exact absurd rfl hMode
  | immediate =>
      exact ⟨['#'], _, rfl, by decide, Nat.le_succ_of_le hShort.length, derives_immediate hShort⟩
  | zeroPage => exact ⟨[], _, rfl, by decide, hShort.length, .direct hByte⟩
  | zeroPageX => exact ⟨[], _, rfl, by decide, by simp, .indexedX hNil hNil hByte⟩
  | zeroPageY => exact ⟨[], _, rfl, by decide, by simp, .indexedY hNil hNil hByte⟩
  | relative => exact ⟨[], _, rfl, by decide, hTarget.length, .direct (derives_digits hTarget)⟩
  | absolute => exact ⟨[], _, rfl, by decide, hLong.length, .direct hWord⟩
  | absoluteX => exact ⟨[], _, rfl, by decide, by simp, .indexedX hNil hNil hWord⟩
  | absoluteY => exact ⟨[], _, rfl, by decide, by simp, .indexedY hNil hNil hWord⟩
  | indirect => exact ⟨['('], _, rfl, by decide, by simp, .indirect (x := []) hNil hNil hWord⟩
  | indirectX => exact ⟨['('], _, rfl, by decide, by simp, .indirectX hNil hNil hNil hNil hByte⟩
  | indirectY => exact ⟨['('], _, rfl, by decide, by simp, .indirectY hNil hNil hNil hNil hByte⟩

/-- The operand of an instruction is read as the number that was written. -/
theorem parseOperand_formatOperand (mode : AddressingMode) (address : Address)
    (operand : OperandBytes) :
    parseOperand (formatOperand mode address operand) =
      .ok (shownOperand mode address operand) := by
  have hSolid := solid_of_subset (formatOperand_subset mode address operand)
  by_cases hMode : mode = .implied
  · subst hMode
    rfl
  obtain ⟨before, behind, hText, hBefore, hLength, hDerives⟩ :=
    derives_formatOperand mode address operand hMode
  rw [hText] at hSolid ⊢
  refine parseOperand_dollar before behind hBefore hSolid (operand?_of_derives ?_ hDerives)
  intro hSame
  rw [hSame] at hLength
  exact absurd hLength (by decide)

section

variable {d : Descriptor} (h : d ∈ Catalog.all) (address : Address) (operand : OperandBytes)

/-- The line of an instruction is its mnemonic and something that is its operand but for
blanks in front. -/
theorem formatInstruction_eq (d : Descriptor) (address : Address) (operand : OperandBytes) :
    ∃ rest, formatInstruction d address operand = d.mnemonic ++ rest ∧
      trim rest = formatOperand d.mode address operand ∧ rest ⊆ ' ' :: alphabet ∧
      ∀ c ∈ rest.getLast?, isBlank c = false := by
  have hSubset := formatOperand_subset d.mode address operand
  have hSolid := solid_of_subset hSubset
  unfold formatInstruction
  split
  next hEmpty => exact ⟨[], (List.append_nil _).symm, hEmpty.symm, List.nil_subset _, by simp⟩
  next text hText =>
    refine ⟨' ' :: formatOperand d.mode address operand, rfl, ?_, ?_, ?_⟩
    · rw [trim_cons_blank rfl, hSolid.trim_eq]
    · exact List.cons_subset_cons _ hSubset
    · intro c hLast
      rw [List.getLast?_cons_of_ne_nil hText] at hLast
      exact hSolid c (List.mem_of_mem_getLast? hLast)

include h

omit address operand in
theorem mnemonic_subset : d.mnemonic ⊆ alphabet :=
  List.Subset.trans (Catalog.mnemonic_of_mem h).2 letters_subset

theorem formatInstruction_subset : formatInstruction d address operand ⊆ ' ' :: alphabet := by
  obtain ⟨rest, hText, -, hRest, -⟩ := formatInstruction_eq d address operand
  rw [hText]
  exact List.append_subset.mpr
    ⟨List.subset_cons_of_subset _ (mnemonic_subset h), hRest⟩

/-- Nothing in the line of an instruction makes it something else. -/
theorem notMem_formatInstruction {c : Char} (hc : c ∉ ' ' :: alphabet) :
    c ∉ formatInstruction d address operand :=
  fun hMem => hc (formatInstruction_subset h address operand hMem)

theorem exists_letters : ∃ a b c, d.mnemonic = [a, b, c] :=
  List.length_eq_three.mp (Catalog.mnemonic_of_mem h).1

theorem formatInstruction_ne_nil : formatInstruction d address operand ≠ [] := by
  obtain ⟨a, b, c, hName⟩ := exists_letters h
  obtain ⟨rest, hText, -⟩ := formatInstruction_eq d address operand
  rw [hText, hName]
  exact List.cons_ne_nil _ _

/-- The line is read as it stands: it has no comment, no small letters and no blanks at its ends. -/
theorem normalize_formatInstruction :
    normalize (formatInstruction d address operand) =
      formatInstruction d address operand := by
  refine normalize_eq_self
    (fun c hMem => plain_of_mem (formatInstruction_subset h address operand hMem)) ?_
  obtain ⟨rest, hText, -, -, hRest⟩ := formatInstruction_eq d address operand
  have hName : Solid d.mnemonic := solid_of_subset (mnemonic_subset h)
  rw [hText]
  refine trim_eq_self (fun c hFirst => ?_) (fun c hLast => ?_)
  · obtain ⟨first, second, third, hLetters⟩ := exists_letters h
    rw [hLetters] at hFirst hName
    exact hName c (List.mem_of_mem_head? hFirst)
  · rw [List.getLast?_append] at hLast
    rcases Option.or_eq_some_iff.mp hLast with hLast | ⟨-, hLast⟩
    · exact hRest c hLast
    · exact hName c (List.mem_of_mem_getLast? hLast)

/-- No mark of another form is in the line, so it is an instruction. -/
theorem classify_formatInstruction :
    classify (formatInstruction d address operand) =
      .ok (.instruction d.mnemonic (formatOperand d.mode address operand)) := by
  obtain ⟨rest, hText, hTrim, hRest, -⟩ := formatInstruction_eq d address operand
  have hMark : ∀ {c : Char}, c ∉ ' ' :: alphabet → c ∉ rest := fun hc hMem => hc (hRest hMem)
  rw [hText, classify_instruction (Catalog.mnemonic_of_mem h) (hMark (by decide))
    (hMark (by decide)), hTrim]

end

/-- The line of source that says where code goes. -/
def startLine (start : Address) : Text := "*=".toList ++ dollarWord start

section

variable (start : Address)

theorem startLine_ne_nil : startLine start ≠ [] := List.cons_ne_nil _ _

theorem notMem_startLine {c : Char} (hMark : c ∉ "*=".toList) (hWord : c ∉ alphabet) :
    c ∉ startLine start := by
  rw [startLine, List.mem_append, not_or]
  exact ⟨hMark, fun hMem => hWord (dollarWord_subset start hMem)⟩

theorem normalize_startLine : normalize (startLine start) = startLine start := by
  have hMark : ∀ c ∈ "*=".toList, c.toUpper = c ∧ c ≠ ';' :=
    List.all_iff_forall_prop.mp (by decide)
  have hSolid : Solid (startLine start) :=
    Solid.append (by decide) (solid_of_subset (dollarWord_subset start))
  refine normalize_eq_self ?_ hSolid.trim_eq
  exact List.forall_mem_append.mpr
    ⟨hMark, fun c hMem => plain_of_mem (.tail _ (dollarWord_subset start hMem))⟩

theorem parseAddress_dollarWord : parseAddress (dollarWord start) = .ok start := by
  have hRead : readMarked? (dollarWord start) = some start.toNat := (hexNumeral_word start).read
  rw [parseAddress, hRead]
  simp only [start.toNat_lt, if_true, UInt16.ofNat_toNat]

/-- The first line of the source sets the address. -/
theorem classify_startLine : classify (startLine start) = .ok (.setAddress start) := by
  have hStar : after? '*' (startLine start) = some ('=' :: dollarWord start) := rfl
  have hEquals : after? '=' (trimStart ('=' :: dollarWord start)) = some (dollarWord start) := rfl
  have hWord : Solid (dollarWord start) := solid_of_subset (dollarWord_subset start)
  rw [classify, hStar]
  simp only [parseSetAddress, hEquals, hWord.trim_eq, parseAddress_dollarWord]

end

end Micro6502.Listing
