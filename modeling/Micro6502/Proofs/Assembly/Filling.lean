import Micro6502.Proofs.Assembly.Pointer
import Micro6502.Proofs.Assembly.Provenance

/-! Lines that wait for a label. An operand leaves a reference behind only where there is room
for the label, so that filling it in can fail for one reason only: that no line of the source
defines the label. -/

namespace Micro6502.Assembly

/-- The name for which a line of code waits, if it waits for one. -/
def CodeLine.awaits? (code : CodeLine) : Option Text := code.pending.map LabelRef.name

/-- There is room for a label in two bytes or in three. -/
def CodeLine.HasRoom (code : CodeLine) : Prop := code.bytes.length = 2 ∨ code.bytes.length = 3

section

variable {forms : List Descriptor} {address : Address} {seen : SymbolTable} {operand : Operand}
  {encoding : Encoding} {reference : LabelRef}

theorem label_of_resolveValue {symbols : SymbolTable} {placeholder target : Nat} {value : Value}
    (h : resolveValue symbols placeholder value = (target, some reference)) :
    value.label? = some reference.name := by
  cases value with
  | number value => cases h
  | label name =>
      rcases resolved_cases h with ⟨_, -, -, hNone⟩ | ⟨-, -, hSome⟩
      · cases hNone
      · cases hSome
        rfl

theorem Operand.Points.pointer?_eq {operand : Operand} {value : Value} {mode : AddressingMode}
    (h : operand.Points value mode) : operand.pointer? = value.label? := by
  cases h <;> rfl

theorem Operand.Gives.label?_eq {operand : Operand} {value : Value} {mode : AddressingMode}
    {narrow? : Option AddressingMode} (h : operand.Gives value mode narrow?) :
    operand.label? = value.label? := by
  cases h <;> rfl

theorem length_emit_mode {form : Descriptor} (hForm : form ∈ Catalog.all) (value : Nat)
    (pending : Option LabelRef) : (emit form value pending).bytes.length =
      form.mode.instructionSize := by
  rw [length_emit hForm, Catalog.size_of_mem hForm]

/-- An operand leaves a reference behind only to a label that it names, and only in an encoding
with a field for it. -/
theorem Encodes.awaits (h : Encodes forms address seen operand encoding)
    (hForms : ∀ form ∈ forms, form ∈ Catalog.all) (hPending : encoding.pending = some reference) :
    (encoding.bytes.length = 2 ∨ encoding.bytes.length = 3) ∧
      (operand.label? = some reference.name ∨ operand.pointer? = some reference.name) := by
  cases h with
  | branch _ hValue =>
      cases hPending
      exact ⟨.inl rfl, .inl (label_of_resolveValue hValue)⟩
  | implied => cases hPending
  | immediate => cases hPending
  | half hForm hValue =>
      obtain ⟨hMem, hMode⟩ := Catalog.inMode?_eq_some hForm
      rw [length_emit_mode (hForms _ hMem), hMode]
      cases hPending
      rcases resolved_cases hValue with ⟨_, -, -, hNone⟩ | ⟨-, -, hSome⟩
      · cases hNone
      · cases hSome
        exact ⟨.inl rfl, .inl rfl⟩
  | pointer hOperand hForm _ hValue =>
      obtain ⟨hMem, rfl⟩ := Catalog.inMode?_eq_some hForm
      rw [length_emit_mode (hForms _ hMem), hOperand.size.1]
      cases hPending
      exact ⟨.inl rfl, .inr (hOperand.pointer?_eq.trans (label_of_resolveValue hValue))⟩
  | wide hOperand hForm _ hValue =>
      obtain ⟨hMem, rfl⟩ := Catalog.inMode?_eq_some hForm
      rw [length_emit_mode (hForms _ hMem), hOperand.size_wide]
      cases hPending
      exact ⟨.inr rfl, .inl (hOperand.label?_eq.trans (label_of_resolveValue hValue))⟩
  | narrow hOperand hForm _ hValue =>
      obtain ⟨hMem, rfl⟩ := Catalog.inMode?_eq_some hForm
      rw [length_emit_mode (hForms _ hMem), hOperand.size_narrow.1]
      cases hPending
      exact ⟨.inl rfl, .inl (hOperand.label?_eq.trans (label_of_resolveValue hValue))⟩

end

/-- The line of source behind a line of code that waits for a label names the label. -/
theorem Stems.awaits {line : Nat} {source name : Text} {code : CodeLine}
    (h : Stems Catalog.forMnemonic? line source code) (hName : code.awaits? = some name) :
    code.HasRoom ∧ ∃ mnemonic operand, instruction? source = some (mnemonic, operand) ∧
      (operand.label? = some name ∨ operand.pointer? = some name) := by
  obtain @⟨statement, mnemonic, operand, _, _, _, hStatement, hCode, hEncode⟩ := h
  obtain ⟨reference, hPending, rfl⟩ := Option.map_eq_some_iff.mp hName
  rcases encodeStatement_eq_ok hEncode with
    ⟨-, _, -, -, rfl⟩ | ⟨forms, parsed, hForms, hAll, hParse, hEncoded⟩
  · cases hPending
  · obtain ⟨hRoom, hNames⟩ := (encodes_of_encode hEncoded).awaits hAll hPending
    refine ⟨hRoom, mnemonic, parsed, ?_, hNames⟩
    simp only [instruction?, hStatement, Option.map_some, hCode,
      if_neg (ne_directiveName hForms hAll), hParse]
    rfl

/-- Where there is room, any address can be filled in. -/
theorem CodeLine.HasRoom.exists_fill {code : CodeLine} (h : code.HasRoom) (target : Address) :
    ∃ filled, code.fill target = .ok filled := by
  unfold fill
  split
  next => split <;> exact ⟨_, rfl⟩
  next => exact ⟨_, rfl⟩
  next bytes hTwo hThree =>
    rcases h with hLength | hLength
    · obtain ⟨opcode, byte, hBytes⟩ := List.length_eq_two.mp hLength
      exact absurd hBytes (hTwo opcode byte)
    · obtain ⟨opcode, low, high, hBytes⟩ := List.length_eq_three.mp hLength
      exact absurd hBytes (hThree opcode low high)

/-- Filling fails in one way only, if there is room: the label is not there. -/
theorem fillLine_eq_error {symbols : SymbolTable} {code : CodeLine} {diagnostic : Diagnostic}
    (hRoom : code.awaits? ≠ none → code.HasRoom)
    (h : fillLine symbols code = .error diagnostic) :
    ∃ name, code.awaits? = some name ∧ symbols.lookup? name = none ∧
      diagnostic = ⟨code.line, .undefinedLabel name⟩ := by
  unfold fillLine at h
  split at h
  · cases h
  next reference hPending =>
    have hName : code.awaits? = some reference.name := by rw [CodeLine.awaits?, hPending]; rfl
    split at h
    next hNone =>
      cases h
      exact ⟨reference.name, hName, hNone, rfl⟩
    next label _ =>
      obtain ⟨filled, hFill⟩ := (hRoom (by simp [hName])).exists_fill label.address
      rw [hFill] at h
      cases h

theorem lookup?_of_fillLine {symbols : SymbolTable} {code filled : CodeLine} {name : Text}
    (h : fillLine symbols code = .ok filled) (hName : code.awaits? = some name) :
    symbols.lookup? name ≠ none := by
  obtain ⟨reference, hPending, rfl⟩ := Option.map_eq_some_iff.mp hName
  rcases fillLine_eq_ok h with ⟨hNone, -⟩ | ⟨other, label, hSome, hLabel, -⟩
  · cases hPending.symm.trans hNone
  · cases hPending.symm.trans hSome
    simp [hLabel]

/-- The first element for which a function fails decides how a traversal fails. -/
theorem exists_of_mapM_eq_error {ε α β : Type} {f : α → Except ε β} {xs : List α} {e : ε}
    (h : xs.mapM f = .error e) : ∃ before x after, xs = before ++ x :: after ∧
      (∀ other ∈ before, ∃ y, f other = .ok y) ∧ f x = .error e := by
  induction xs with
  | nil => cases h
  | cons x xs ih =>
      rw [List.mapM_cons] at h
      cases hHead : f x with
      | error fault =>
          rw [hHead] at h
          cases h
          exact ⟨[], x, xs, rfl, by simp, hHead⟩
      | ok y =>
          cases hTail : xs.mapM f with
          | ok ys =>
              rw [hHead, hTail] at h
              cases h
          | error fault =>
              rw [hHead, hTail] at h
              cases h
              obtain ⟨before, other, after, rfl, hBefore, hFault⟩ := ih hTail
              refine ⟨x :: before, other, after, rfl, ?_, hFault⟩
              exact List.forall_mem_cons.mpr ⟨⟨y, hHead⟩, hBefore⟩

/-- A traversal fails at an element if all in front of it come through. -/
theorem mapM_eq_error {ε α β : Type} {f : α → Except ε β} {before after : List α} {x : α} {e : ε}
    (hBefore : ∀ other ∈ before, ∃ y, f other = .ok y) (hFault : f x = .error e) :
    (before ++ x :: after).mapM f = .error e := by
  induction before with
  | nil =>
      rw [List.nil_append, List.mapM_cons, hFault]
      rfl
  | cons other before ih =>
      obtain ⟨⟨y, hHead⟩, hRest⟩ := List.forall_mem_cons.mp hBefore
      rw [List.cons_append, List.mapM_cons, hHead, ih hRest]
      rfl

/-- Once there is no complaint, every label is found that is defined at all. -/
theorem SymbolTable.lookup?_settle_eq_none {table : SymbolTable}
    (h : table.settle.complaint? = none) {name : Text} :
    table.settle.lookup? name = none ↔ name ∉ table.labels.map Label.name := by
  rw [SymbolTable.lookup?, List.find?_eq_none, SymbolTable.settle, List.forall_mem_map]
  constructor
  · intro hNone hName
    obtain ⟨label, hLabel, rfl⟩ := List.mem_map.mp hName
    have hPlain := dependency_eq_none h (List.mem_map_of_mem hLabel)
    exact hNone label hLabel (by simp [hPlain])
  · intro hName label hLabel hFound
    rw [name_settled, Bool.and_eq_true, decide_eq_true_eq] at hFound
    exact hName (hFound.1 ▸ List.mem_map_of_mem hLabel)

/-- The line of code waits for a label that no line of the source defines. -/
def CodeLine.Lacks (code : CodeLine) (source name : Text) : Prop :=
  code.awaits? = some name ∧ ∀ line ∈ Text.lines source, definedName? line ≠ some name

section

variable {source : Text} {layout : Layout}

/-- A source text whose lines have been laid down and whose relative labels are settled. -/
structure LaidOut (source : Text) (layout : Layout) : Prop where
  lines : Layout.addLines Catalog.forMnemonic? {} 1 (Text.lines source) = .ok layout
  settled : layout.symbols.settle.complaint? = none

/-- A first pass that comes through has laid down all lines, and its labels were settled without
complaint. -/
theorem exists_laidOut {closed : Layout}
    (h : layOut Catalog.forMnemonic? source = .ok closed) :
    ∃ layout, LaidOut source layout ∧
      closed = { layout with symbols := layout.symbols.settle } := by
  unfold layOut at h
  split at h
  · cases h
  next layout hLines =>
    simp only [Layout.close] at h
    split at h
    · cases h
    next hSettled =>
      cases h
      exact ⟨layout, ⟨hLines, hSettled⟩, rfl⟩

namespace LaidOut

variable (h : LaidOut source layout)

include h

theorem assemble_eq :
    assemble source = Layout.fill { layout with symbols := layout.symbols.settle } := by
  simp only [assemble, assembleWith, layOut, h.lines, Layout.close, h.settled]

/-- Each line of code of the layout has a line of the source behind it, of the same number. -/
theorem stems {code : CodeLine} (hCode : code ∈ layout.code.toList) :
    ∃ i line, (Text.lines source)[i]? = some line ∧
      Stems Catalog.forMnemonic? (i + 1) line code := by
  rcases Layout.exists_stem h.lines hCode with hNone | ⟨i, line, hLine, hStems⟩
  · cases hNone
  · rw [Nat.add_comm] at hStems
    exact ⟨i, line, hLine, hStems⟩

/-- A line that waits for a label has room for one, since its operand left the reference there. -/
theorem hasRoom {code : CodeLine} (hCode : code ∈ layout.code.toList)
    (hAwaits : code.awaits? ≠ none) : code.HasRoom := by
  obtain ⟨i, line, -, hStems⟩ := h.stems hCode
  obtain ⟨name, hName⟩ := Option.ne_none_iff_exists'.mp hAwaits
  exact (hStems.awaits hName).1

/-- A name that no line of the source defines is one that the settled table does not have. -/
theorem lacks_iff {code : CodeLine} {name : Text} : code.Lacks source name ↔
    code.awaits? = some name ∧ layout.symbols.settle.lookup? name = none := by
  have hNames := (Layout.leaves_addLines h.lines).names
  rw [SymbolTable.lookup?_settle_eq_none h.settled, hNames]
  simp [CodeLine.Lacks]

end LaidOut
end

end Micro6502.Assembly
