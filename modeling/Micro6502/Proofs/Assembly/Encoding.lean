import Mathlib.Data.List.Forall2
import Micro6502.Assembly.Encoding
import Micro6502.Proofs.Instruction.Catalog

/-! What an accepted operand is encoded as. All ways of accepting one are listed
once, in `Encodes`; what follows about sizes, about labels and about the machine's
reading of an operand is taken from that list and not from the encoder. -/

namespace Micro6502.Assembly

/-- Two steps come through just if the first does and the second does with its outcome. -/
theorem except_bind_eq_ok {ε α β : Type} {x : Except ε α} {f : α → Except ε β} {b : β} :
    x >>= f = .ok b ↔ ∃ a, x = .ok a ∧ f a = .ok b := by
  cases x with
  | error e => simp [bind, Except.bind]
  | ok a => simp [bind, Except.bind]

/-- If all of a list comes through, each outcome stands where its argument stood. -/
theorem forall₂_of_mapM {ε α β : Type} {f : α → Except ε β} {xs : List α} {ys : List β}
    (h : xs.mapM f = .ok ys) : List.Forall₂ (fun x y => f x = .ok y) xs ys := by
  induction xs generalizing ys with
  | nil =>
      cases h
      exact .nil
  | cons x xs ih =>
      simp only [List.mapM_cons, except_bind_eq_ok] at h
      obtain ⟨y, hHead, rest, hTail, hPure⟩ := h
      cases hPure
      exact .cons hHead (ih hTail)

/-- The other way: it is enough that every single one comes through. -/
theorem mapM_of_forall₂ {ε α β : Type} {f : α → Except ε β} {xs : List α} {ys : List β}
    (h : List.Forall₂ (fun x y => f x = .ok y) xs ys) : xs.mapM f = .ok ys := by
  induction h with
  | nil => rfl
  | cons hHead _ ih =>
      rw [List.mapM_cons, hHead, ih]
      rfl

theorem checkRange_eq_ok {value limit : Nat} {u : Unit} :
    checkRange value limit = .ok u ↔ value ≤ limit := by
  unfold checkRange
  split <;> simp_all

/-- A form is found just if the mnemonic has one in the mode that is called for. -/
theorem require_eq_ok {mnemonic : Text} {forms : List Descriptor} {mode : AddressingMode}
    {form : Descriptor} :
    require mnemonic forms mode = .ok form ↔ Catalog.inMode? forms mode = some form := by
  unfold require
  cases Catalog.inMode? forms mode <;> simp

/-- The operands that give an address, each with the mode that holds a full address
and, where there is one, the mode that holds an address in the zero page. -/
inductive Operand.Gives : Operand → Value → AddressingMode → Option AddressingMode → Prop
  | direct (value : Value) : Gives (.direct value) value .absolute (some .zeroPage)
  | indexedX (value : Value) : Gives (.indexedX value) value .absoluteX (some .zeroPageX)
  | indexedY (value : Value) : Gives (.indexedY value) value .absoluteY (some .zeroPageY)
  | indirect (value : Value) : Gives (.indirect value) value .indirect none

/-- The operands that give a pointer in the zero page, each with its only mode. -/
inductive Operand.Points : Operand → Value → AddressingMode → Prop
  | indirectX (value : Value) : Points (.indirectX value) value .indirectX
  | indirectY (value : Value) : Points (.indirectY value) value .indirectY

theorem Operand.Gives.size_wide {operand : Operand} {value : Value} {mode : AddressingMode}
    {narrow? : Option AddressingMode} (h : operand.Gives value mode narrow?) :
    mode.instructionSize = 3 := by
  cases h <;> rfl

theorem Operand.Gives.size_narrow {operand : Operand} {value : Value}
    {mode narrow : AddressingMode} (h : operand.Gives value mode (some narrow)) :
    narrow.instructionSize = 2 ∧ narrow ≠ .relative := by
  cases h <;> exact ⟨rfl, by decide⟩

/-- A pointer takes one byte behind the opcode, and no branch has one. -/
theorem Operand.Points.size {operand : Operand} {value : Value} {mode : AddressingMode}
    (h : operand.Points value mode) : mode.instructionSize = 2 ∧ mode ≠ .relative := by
  cases h <;> exact ⟨rfl, by decide⟩

/-- The byte for one half of a label, or a placeholder and a reference to the label
if it is not known yet. -/
def resolveHalf (symbols : SymbolTable) (select : ByteSelect) (name : Text) :
    Nat × Option LabelRef :=
  match symbols.lookup? name with
  | some label => ((select.apply label.address).toNat, none)
  | none => (bytePlaceholder, some { name, select })

/-- The ways of accepting an operand, each with the encoding that comes of it. -/
inductive Encodes (forms : List Descriptor) (address : Address) (symbols : SymbolTable) :
    Operand → Encoding → Prop
  | branch {form : Descriptor} {value : Value} {target : Nat} {pending : Option LabelRef}
      (hForm : Catalog.inMode? forms .relative = some form)
      (hValue : resolveValue symbols addressPlaceholder value = (target, pending))
      (hRange : target ≤ 0xFFFF) :
      Encodes forms address symbols (.direct value)
        { descriptor := form, bytes := [form.opcode, branchOffset address target], pending }
  | implied {operand : Operand} {form : Descriptor}
      (hOperand : operand = .absent ∨ operand = .accumulator)
      (hForm : Catalog.inMode? forms .implied = some form) :
      Encodes forms address symbols operand (emit form 0 none)
  | immediate {value : Nat} {form : Descriptor} (hRange : value ≤ 0xFF)
      (hForm : Catalog.inMode? forms .immediate = some form) :
      Encodes forms address symbols (.immediate value) (emit form value none)
  | half {select : ByteSelect} {name : Text} {form : Descriptor} {value : Nat}
      {pending : Option LabelRef} (hForm : Catalog.inMode? forms .immediate = some form)
      (hValue : resolveHalf symbols select name = (value, pending)) :
      Encodes forms address symbols (.immediateLabel select name) (emit form value pending)
  | pointer {operand : Operand} {value : Value} {mode : AddressingMode} {form : Descriptor}
      {pointer : Nat} {pending : Option LabelRef} (hOperand : operand.Points value mode)
      (hForm : Catalog.inMode? forms mode = some form)
      (hBranch : Catalog.inMode? forms .relative = none)
      (hValue : resolveValue symbols bytePlaceholder value = (pointer, pending))
      (hRange : pointer ≤ 0xFF) :
      Encodes forms address symbols operand (emit form pointer pending)
  | wide {operand : Operand} {value : Value} {mode : AddressingMode}
      {narrow? : Option AddressingMode} {form : Descriptor} {target : Nat}
      {pending : Option LabelRef} (hOperand : operand.Gives value mode narrow?)
      (hForm : Catalog.inMode? forms mode = some form)
      (hBranch : Catalog.inMode? forms .relative = none)
      (hValue : resolveValue symbols addressPlaceholder value = (target, pending))
      (hRange : target ≤ 0xFFFF) :
      Encodes forms address symbols operand (emit form target pending)
  | narrow {operand : Operand} {value : Value} {mode narrow : AddressingMode}
      {form : Descriptor} {target : Nat} {pending : Option LabelRef}
      (hOperand : operand.Gives value mode (some narrow))
      (hForm : Catalog.inMode? forms narrow = some form)
      (hBranch : Catalog.inMode? forms .relative = none)
      (hValue : resolveValue symbols addressPlaceholder value = (target, pending))
      (hRange : target ≤ 0xFF) :
      Encodes forms address symbols operand (emit form target pending)

section

variable {mnemonic : Text} {forms : List Descriptor} {address : Address}
  {symbols : SymbolTable} {encoding : Encoding}

/-- A branch takes a value alone, and it is checked like an address. -/
theorem encodes_of_encodeBranch {form : Descriptor} {operand : Operand}
    (hForm : Catalog.inMode? forms .relative = some form)
    (h : encodeBranch mnemonic form operand address symbols = .ok encoding) :
    Encodes forms address symbols operand encoding := by
  cases operand with
  | direct value =>
      simp only [encodeBranch, except_bind_eq_ok, checkRange_eq_ok] at h
      obtain ⟨_, hRange, hPure⟩ := h
      cases hPure
      exact .branch hForm rfl hRange
  | _ => cases h

/-- A label half is encoded by the immediate form, whether its label is known or not. -/
theorem encodes_of_encodeHalf {select : ByteSelect} {name : Text}
    (h : encodeHalf mnemonic forms symbols select name = .ok encoding) :
    Encodes forms address symbols (.immediateLabel select name) encoding := by
  simp only [encodeHalf, except_bind_eq_ok, require_eq_ok] at h
  obtain ⟨form, hForm, h⟩ := h
  cases hLabel : symbols.lookup? name with
  | none =>
      rw [hLabel] at h
      cases h
      exact .half hForm (by simp only [resolveHalf, hLabel])
  | some label =>
      rw [hLabel] at h
      cases h
      exact .half hForm (by simp only [resolveHalf, hLabel])

/-- A pointer has one mode only, and no way out if it lies above the zero page. -/
theorem encodes_of_encodePointer {operand : Operand} {value : Value} {mode : AddressingMode}
    (hOperand : operand.Points value mode)
    (hBranch : Catalog.inMode? forms .relative = none)
    (h : encodePointer mnemonic forms symbols mode value = .ok encoding) :
    Encodes forms address symbols operand encoding := by
  simp only [encodePointer, except_bind_eq_ok, checkRange_eq_ok, require_eq_ok] at h
  obtain ⟨_, hRange, form, hForm, hPure⟩ := h
  cases hPure
  exact .pointer hOperand hForm hBranch rfl hRange

/-- An indexed operand takes the full address where the instruction has that form, whatever the
value is. The short form is left for the others. -/
theorem encodes_of_encodeIndexed {operand : Operand} {value : Value}
    {wide narrow : AddressingMode} (hOperand : operand.Gives value wide (some narrow))
    (hBranch : Catalog.inMode? forms .relative = none)
    (h : encodeIndexed mnemonic forms symbols wide narrow value = .ok encoding) :
    Encodes forms address symbols operand encoding := by
  simp only [encodeIndexed, indexedForm?, except_bind_eq_ok, checkRange_eq_ok] at h
  obtain ⟨_, hRange, h⟩ := h
  cases hWide : Catalog.inMode? forms wide with
  | some form =>
      rw [hWide] at h
      cases h
      exact .wide hOperand hWide hBranch rfl hRange
  | none =>
      simp only [hWide] at h
      split at h
      next form hNarrow =>
        split at hNarrow
        next hByte =>
          cases h
          exact .narrow hOperand hNarrow hBranch rfl hByte
        next => cases hNarrow
      next => cases h

/-- A value alone takes the short form where it fits, and the full address where it does not or
where there is no short form. -/
theorem encodes_of_encodeDirect {value : Value}
    (hBranch : Catalog.inMode? forms .relative = none)
    (h : encodeDirect mnemonic forms symbols value = .ok encoding) :
    Encodes forms address symbols (.direct value) encoding := by
  simp only [encodeDirect, except_bind_eq_ok, checkRange_eq_ok] at h
  obtain ⟨_, hRange, h⟩ := h
  split at h
  next form hForm =>
    cases h
    unfold directForm? at hForm
    split at hForm
    next zeroPage hNarrow =>
      split at hForm
      next hByte =>
        cases hForm
        exact .narrow (.direct value) hNarrow hBranch rfl hByte
      next => exact .wide (.direct value) hForm hBranch rfl hRange
    next => exact .wide (.direct value) hForm hBranch rfl hRange
  next => cases h

theorem encodes_of_encodeIndirect {value : Value}
    (hBranch : Catalog.inMode? forms .relative = none)
    (h : encodeIndirect mnemonic forms symbols value = .ok encoding) :
    Encodes forms address symbols (.indirect value) encoding := by
  simp only [encodeIndirect, except_bind_eq_ok, checkRange_eq_ok, require_eq_ok] at h
  obtain ⟨_, hRange, form, hForm, hPure⟩ := h
  cases hPure
  exact .wide (.indirect value) hForm hBranch rfl hRange

/-- Nothing is encoded in a way that is not listed. -/
theorem encodes_of_encode {operand : Operand}
    (h : encode mnemonic forms operand address symbols = .ok encoding) :
    Encodes forms address symbols operand encoding := by
  unfold encode at h
  cases hBranch : Catalog.inMode? forms .relative with
  | some branch =>
      rw [hBranch] at h
      exact encodes_of_encodeBranch hBranch h
  | none =>
      rw [hBranch] at h
      cases operand with
      | absent | accumulator =>
          simp only [encodeImplied, except_bind_eq_ok, require_eq_ok] at h
          obtain ⟨form, hForm, hPure⟩ := h
          cases hPure
          exact .implied (by simp) hForm
      | immediate value =>
          simp only [encodeImmediate, except_bind_eq_ok, checkRange_eq_ok, require_eq_ok] at h
          obtain ⟨_, hRange, form, hForm, hPure⟩ := h
          cases hPure
          exact .immediate hRange hForm
      | immediateLabel select name => exact encodes_of_encodeHalf h
      | indirectX value => exact encodes_of_encodePointer (.indirectX value) hBranch h
      | indirectY value => exact encodes_of_encodePointer (.indirectY value) hBranch h
      | indexedX value => exact encodes_of_encodeIndexed (.indexedX value) hBranch h
      | indexedY value => exact encodes_of_encodeIndexed (.indexedY value) hBranch h
      | indirect value => exact encodes_of_encodeIndirect hBranch h
      | direct value => exact encodes_of_encodeDirect hBranch h

end

theorem length_operandField (mode : AddressingMode) (value : Nat) :
    (operandField mode.instructionSize value).length = mode.operandBytes := by
  cases mode <;> rfl

theorem ofNat_toNat_address (target : Address) :
    UInt8.ofNat target.toNat = lowByte target := by
  apply UInt8.toNat_inj.mp
  rw [UInt8.toNat_ofNat', toNat_lowByte]

/-- The bytes of a full address, whether they were emitted or filled in. -/
theorem operandField_address (target : Address) :
    operandField 3 target.toNat = [lowByte target, highByte target] := by
  have hHigh : UInt8.ofNat (target.toNat / 0x100) = highByte target := by
    have hTarget := target.toNat_lt
    apply UInt8.toNat_inj.mp
    rw [UInt8.toNat_ofNat', toNat_highByte]
    omega
  simp only [operandField, ofNat_toNat_address, hHigh]

/-- For executable instructions, the size that is emitted follows the mode. -/
theorem emit_bytes {form : Descriptor} (h : form ∈ Catalog.all) (value : Nat)
    (pending : Option LabelRef) :
    (emit form value pending).bytes =
      form.opcode :: operandField form.mode.instructionSize value := by
  rw [emit, Catalog.size_of_mem h]

theorem length_emit {form : Descriptor} (h : form ∈ Catalog.all) (value : Nat)
    (pending : Option LabelRef) : (emit form value pending).bytes.length = form.size := by
  rw [emit_bytes h, List.length_cons, length_operandField, Catalog.size_of_mem h,
    AddressingMode.instructionSize, Nat.add_comm]

/-- An encoding is the opcode of one of the forms, and it has the size of that form
whether a label is still missing or not. -/
theorem Encodes.shape {forms : List Descriptor} {address : Address} {symbols : SymbolTable}
    {operand : Operand} {encoding : Encoding}
    (h : Encodes forms address symbols operand encoding)
    (hForms : ∀ form ∈ forms, form ∈ Catalog.all) :
    encoding.descriptor ∈ forms ∧
      encoding.bytes.head? = some encoding.descriptor.opcode ∧
      encoding.bytes.length = encoding.descriptor.size := by
  cases h with
  | branch hForm =>
      obtain ⟨hMem, hMode⟩ := Catalog.inMode?_eq_some hForm
      refine ⟨hMem, rfl, ?_⟩
      rw [Catalog.size_of_mem (hForms _ hMem), hMode]
      rfl
  | implied _ hForm | immediate _ hForm | half hForm | pointer _ hForm | wide _ hForm
  | narrow _ hForm =>
      have hMem := (Catalog.inMode?_eq_some hForm).1
      exact ⟨hMem, rfl, length_emit (hForms _ hMem) _ _⟩

section

/-! Operands that are numbers are encoded whatever labels are known. -/

variable {mnemonic : Text} {forms : List Descriptor} {symbols : SymbolTable}
  {form : Descriptor} {number : Nat}

theorem checkRange_of_le {value limit : Nat} (h : value ≤ limit) :
    checkRange value limit = .ok () :=
  if_pos h

theorem encodeImplied_eq (hForm : Catalog.inMode? forms .implied = some form) :
    encodeImplied mnemonic forms = .ok (emit form 0 none) := by
  rw [encodeImplied, require_eq_ok.mpr hForm]
  rfl

theorem encodeImmediate_number (hForm : Catalog.inMode? forms .immediate = some form)
    (hRange : number ≤ 0xFF) :
    encodeImmediate mnemonic forms number = .ok (emit form number none) := by
  rw [encodeImmediate, checkRange_of_le hRange, require_eq_ok.mpr hForm]
  rfl

theorem encodePointer_number {mode : AddressingMode}
    (hForm : Catalog.inMode? forms mode = some form) (hRange : number ≤ 0xFF) :
    encodePointer mnemonic forms symbols mode (.number number) =
      .ok (emit form number none) := by
  simp only [encodePointer, resolveValue, checkRange_of_le hRange, require_eq_ok.mpr hForm]
  rfl

theorem encodeIndirect_number (hForm : Catalog.inMode? forms .indirect = some form)
    (hRange : number ≤ 0xFFFF) :
    encodeIndirect mnemonic forms symbols (.number number) = .ok (emit form number none) := by
  simp only [encodeIndirect, resolveValue, checkRange_of_le hRange, require_eq_ok.mpr hForm]
  rfl

/-- The form with a full address comes first. -/
theorem indexedForm?_wide {wide narrow : AddressingMode}
    (hForm : Catalog.inMode? forms wide = some form) :
    indexedForm? forms wide narrow number = some form := by
  rw [indexedForm?, hForm]

/-- The short form serves an instruction that has no other, as long as the value fits. -/
theorem indexedForm?_narrow {wide narrow : AddressingMode}
    (hWide : Catalog.inMode? forms wide = none)
    (hForm : Catalog.inMode? forms narrow = some form) (hRange : number ≤ 0xFF) :
    indexedForm? forms wide narrow number = some form := by
  rw [indexedForm?, hWide, if_pos hRange, hForm]

theorem encodeIndexed_number {wide narrow : AddressingMode}
    (hForm : indexedForm? forms wide narrow number = some form) (hRange : number ≤ 0xFFFF) :
    encodeIndexed mnemonic forms symbols wide narrow (.number number) =
      .ok (emit form number none) := by
  simp only [encodeIndexed, resolveValue, checkRange_of_le hRange, hForm]
  rfl

/-- The short form comes first where the value fits. -/
theorem directForm?_zeroPage (hForm : Catalog.inMode? forms .zeroPage = some form)
    (hRange : number ≤ 0xFF) : directForm? forms number = some form := by
  rw [directForm?, hForm]
  exact if_pos hRange

/-- The full address serves a value that does not fit in a byte, and every value of an instruction
without a short form. -/
theorem directForm?_absolute (hForm : Catalog.inMode? forms .absolute = some form)
    (hRange : number ≤ 0xFF → Catalog.inMode? forms .zeroPage = none) :
    directForm? forms number = some form := by
  unfold directForm?
  split
  next zeroPage hZeroPage =>
    rw [if_neg fun hSmall => ?_, hForm]
    rw [hRange hSmall] at hZeroPage
    cases hZeroPage
  next => exact hForm

theorem encodeDirect_number (hForm : directForm? forms number = some form)
    (hRange : number ≤ 0xFFFF) :
    encodeDirect mnemonic forms symbols (.number number) = .ok (emit form number none) := by
  simp only [encodeDirect, resolveValue, checkRange_of_le hRange, hForm]
  rfl

/-- A branch to a number takes the distance to it, near or far. -/
theorem encodeBranch_number {address : Address} (hRange : number ≤ 0xFFFF) :
    encodeBranch mnemonic form (.direct (.number number)) address symbols =
      .ok { descriptor := form, bytes := [form.opcode, branchOffset address number],
            pending := none } := by
  simp only [encodeBranch, resolveValue, checkRange_of_le hRange]
  rfl

end

end Micro6502.Assembly
