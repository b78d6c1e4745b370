import Mathlib.Data.List.Forall2
import Micro6502.Assembly.Program
import Micro6502.Proofs.Assembly.Layout

/-! The second pass, and both passes seen from one line of source. Filling a label
into a line leaves its place, its form and its size alone, so the lines of a program
are the lines of its layout, one for one. -/

namespace Micro6502.Assembly

/-- Filling in a label changes the operand bytes and nothing else. -/
theorem CodeLine.fill_eq_ok {code filled : CodeLine} {target : Address}
    (h : code.fill target = .ok filled) :
    ∃ opcode operand bytes, code.bytes = opcode :: operand ∧
      filled = { code with bytes := opcode :: bytes, pending := none } ∧
      bytes.length = operand.length := by
  unfold fill at h
  split at h
  next opcode byte hBytes =>
    split at h
    all_goals
      cases h
      exact ⟨opcode, [byte], _, hBytes, rfl, rfl⟩
  next opcode low high hBytes =>
    cases h
    exact ⟨opcode, [low, high], _, hBytes, rfl, rfl⟩
  next => cases h

/-- A finished line stands where the line of the layout stood and waits for nothing. -/
structure Finishes (code finished : CodeLine) : Prop where
  address : finished.address = code.address
  line : finished.line = code.line
  descriptor : finished.descriptor = code.descriptor
  size : finished.bytes.length = code.bytes.length
  opcode : finished.bytes.head? = code.bytes.head?
  settled : finished.pending = none

/-- A line that waits for no label is left alone. One that waits gets the address of its label,
which has to be settled. -/
theorem fillLine_eq_ok {symbols : SymbolTable} {code finished : CodeLine}
    (h : fillLine symbols code = .ok finished) :
    (code.pending = none ∧ finished = code) ∨
      ∃ reference label, code.pending = some reference ∧
        symbols.lookup? reference.name = some label ∧
        code.fill label.address = .ok finished := by
  unfold fillLine at h
  split at h
  next hPending =>
    cases h
    exact .inl ⟨hPending, rfl⟩
  next reference hPending =>
    split at h
    · cases h
    next label hLabel =>
      split at h
      · cases h
      next filled hFill =>
        cases h
        exact .inr ⟨reference, label, hPending, hLabel, hFill⟩

/-- Both cases leave the line where it is, and nothing is pending afterwards. -/
theorem finishes_of_fillLine {symbols : SymbolTable} {code finished : CodeLine}
    (h : fillLine symbols code = .ok finished) : Finishes code finished := by
  rcases fillLine_eq_ok h with ⟨hPending, rfl⟩ | ⟨_, _, -, -, hFill⟩
  · exact ⟨rfl, rfl, rfl, rfl, rfl, hPending⟩
  · obtain ⟨opcode, operand, bytes, hBytes, rfl, hLength⟩ := CodeLine.fill_eq_ok hFill
    exact ⟨rfl, rfl, rfl, by simp [hBytes, hLength], by simp [hBytes], rfl⟩

/-- An assembly reads the lines, settles the labels and fills them in, as far as it comes. -/
theorem assemble_eq_bind (source : Text) : assemble source =
    (Layout.addLines Catalog.forMnemonic? {} 1 (Text.lines source) >>= Layout.close) >>=
      Layout.fill := by
  rw [assemble, assembleWith, layOut]
  cases Layout.addLines Catalog.forMnemonic? {} 1 (Text.lines source) with
  | error diagnostic => rfl
  | ok layout =>
      simp only [bind, Except.bind]
      cases layout.close <;> rfl

/-- A program as the outcome of both passes over a source text. The layout is the one
at the end of the lines, before its relative labels are settled. -/
structure Assembles (source : Text) (layout : Layout) (program : Program) : Prop where
  laidOut : Layout.addLines Catalog.forMnemonic? {} 1 (Text.lines source) = .ok layout
  settled : layout.symbols.settle.complaint? = none
  labels : program.labels = layout.symbols.settle.labels
  lines : List.Forall₂ (fun code finished => fillLine layout.symbols.settle code = .ok finished)
    layout.code.toList program.lines
  origin : program.origin = layout.origin
  addressLabels : program.addressLabels = layout.addressLabels

/-- A program has a layout behind it, whose labels were settled without complaint and whose lines
were all filled in. -/
theorem exists_layout {source : Text} {program : Program}
    (h : assemble source = .ok program) : ∃ layout, Assembles source layout program := by
  unfold assemble assembleWith layOut at h
  split at h
  · cases h
  next closed hClosed =>
    split at hClosed
    · cases hClosed
    next layout hLines =>
      simp only [Layout.close] at hClosed
      split at hClosed
      · cases hClosed
      next hComplaint =>
        cases hClosed
        unfold Layout.fill at h
        split at h
        · cases h
        next finished hFinished =>
          cases h
          exact ⟨layout, hLines, hComplaint, rfl, forall₂_of_mapM hFinished, rfl, rfl⟩

/-- Code without pending labels is finished as it stands. -/
theorem mapM_fillLine_settled {symbols : SymbolTable} {code : List CodeLine}
    (h : ∀ line ∈ code, line.pending = none) : code.mapM (fillLine symbols) = .ok code := by
  induction code with
  | nil => rfl
  | cons line rest ih =>
      have hLine : fillLine symbols line = .ok line := by
        rw [fillLine, h line List.mem_cons_self]
      rw [List.mapM_cons, hLine, ih fun other hOther => h other (List.mem_cons_of_mem _ hOther)]
      rfl

/-- Two passes without a fault make a program. -/
theorem assemble_of_addLines {source : Text} {layout : Layout} {finished : List CodeLine}
    (hLines : Layout.addLines Catalog.forMnemonic? {} 1 (Text.lines source) = .ok layout)
    (hSettled : layout.symbols.settle.complaint? = none)
    (hFinished : layout.code.toList.mapM (fillLine layout.symbols.settle) = .ok finished) :
    assemble source = .ok {
      labels := layout.symbols.settle.labels
      lines := finished
      origin := layout.origin
      addressLabels := layout.addressLabels } := by
  simp only [assemble, assembleWith, layOut, hLines, Layout.close, hSettled, Layout.fill,
    hFinished]

namespace Assembles

variable {source : Text} {layout : Layout} {program : Program}

theorem layOut_eq (h : Assembles source layout program) :
    layOut Catalog.forMnemonic? source =
      .ok { layout with symbols := layout.symbols.settle } := by
  simp only [layOut, h.laidOut, Layout.close, h.settled]

/-- The invariant of the pass holds at its end. -/
theorem orderly (h : Assembles source layout program) :
    layout.Orderly (1 + (Text.lines source).length) :=
  (Layout.orderly_empty 1).addLines h.laidOut

theorem distinct (h : Assembles source layout program) : layout.symbols.settle.Distinct :=
  h.orderly.distinct.settle

/-- A label that the settled table yields is the only one of its name. -/
theorem filter_label (h : Assembles source layout program) {name : Text} {label : Label}
    (hLabel : layout.symbols.settle.lookup? name = some label) :
    (program.labels.filter fun other => other.name = name) = [label] := by
  obtain ⟨hMem, rfl, -⟩ := SymbolTable.lookup?_eq_some hLabel
  rw [h.labels]
  exact filter_eq_singleton h.distinct hMem

/-- What was seen while a line was laid down is what the program says in the end. -/
theorem lookup?_settle (h : Assembles source layout program) {seen : SymbolTable}
    (hSeen : seen.labels <+: layout.symbols.labels) {name : Text} {label : Label}
    (hLabel : seen.lookup? name = some label) :
    layout.symbols.settle.lookup? name = some label :=
  h.orderly.distinct.lookup?_settle (SymbolTable.lookup?_of_prefix hSeen hLabel)

/-- A line of the layout is finished as the only line of the program of its number. -/
theorem exists_line (h : Assembles source layout program) {code : CodeLine}
    (hCode : code ∈ layout.code.toList) :
    ∃ finished, fillLine layout.symbols.settle code = .ok finished ∧
      (program.lines.filter fun other => other.line = code.line) = [finished] := by
  have hKeep := List.rel_filter (R := fun code finished =>
      fillLine layout.symbols.settle code = .ok finished)
    (p := fun other => other.line = code.line) (q := fun other => other.line = code.line)
    (fun _ _ hFill => by simp only [(finishes_of_fillLine hFill).line]) h.lines
  rw [filter_eq_singleton h.orderly.numbered hCode] at hKeep
  generalize (program.lines.filter fun other => other.line = code.line) = kept at hKeep ⊢
  cases hKeep with
  | @cons _ finished _ _ hFill hRest =>
      cases hRest
      exact ⟨finished, hFill, rfl⟩

/-- A line of source with code, through both passes: it is encoded where the counter
stands and with the labels known by then, and the result is finished in the end. -/
theorem exists_encoding (h : Assembles source layout program) {i : Nat} {line : Text}
    (hLine : (Text.lines source)[i]? = some line) {statement : Statement}
    (hStatement : statement? line = some statement) {mnemonic operand : Text}
    (hCode : statement.code? = .ok (some (mnemonic, operand))) :
    ∃ before entered encoding finished,
      Layout.addLines Catalog.forMnemonic? {} 1 ((Text.lines source).take i) = .ok before ∧
      before.enter (i + 1) statement = .ok entered ∧
      entered.symbols.labels <+: layout.symbols.labels ∧
      encodeStatement Catalog.forMnemonic? mnemonic operand entered.counter entered.symbols =
        .ok encoding ∧
      fillLine layout.symbols.settle (encoding.placed entered.counter (i + 1)) = .ok finished ∧
      (program.lines.filter fun other => other.line = i + 1) = [finished] := by
  obtain ⟨before, after, hBefore, hTakes, hAfter⟩ := Layout.addLines_getElem? h.laidOut hLine
  rw [Nat.add_comm] at hTakes
  cases hTakes with
  | blank hBlank => simp [statement?, hBlank] at hStatement
  | silent hOther hEnter hNone =>
      cases hStatement.symm.trans hOther
      cases hCode.symm.trans hNone
  | @code _ entered _ _ encoding hOther hEnter hSome hEncode =>
      cases hStatement.symm.trans hOther
      cases hCode.symm.trans hSome
      have hMem : encoding.placed entered.counter (i + 1) ∈ layout.code.toList := by
        apply hAfter.code.subset
        simp [Layout.append, Encoding.placed]
      obtain ⟨finished, hFill, hOnly⟩ := h.exists_line hMem
      exact ⟨before, entered, encoding, finished, hBefore, hEnter,
        hAfter.symbols, hEncode, hFill, hOnly⟩

end Assembles

end Micro6502.Assembly
