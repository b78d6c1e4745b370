import Micro6502.Proofs.Assembly.Reordering

/-! Where the labels and the code of a layout come from. Behind each of them is the line of
source of its number, and the numbers of the lines of code increase as the lines do. -/

namespace Micro6502.Assembly

/-- A line of code as it was encoded for a line of source, with some labels known by then. -/
inductive Stems (forms? : FormLookup) (line : Nat) (source : Text) : CodeLine → Prop
  | encoded {statement : Statement} {mnemonic operand : Text} {address : Address}
      {seen : SymbolTable} {encoding : Encoding} (hStatement : statement? source = some statement)
      (hCode : statement.code? = .ok (some (mnemonic, operand)))
      (hEncode : encodeStatement forms? mnemonic operand address seen = .ok encoding) :
      Stems forms? line source (encoding.placed address line)

theorem Stems.line_eq {forms? : FormLookup} {line : Nat} {source : Text} {code : CodeLine}
    (h : Stems forms? line source code) : code.line = line := by
  cases h
  rfl

namespace Layout

variable {forms? : FormLookup} {layout next final : Layout} {line : Nat} {source : Text}
  {sources : List Text}

/-- The label of a statement has the number of its line and the name that the statement defines. -/
theorem entry?_eq_some {statement : Statement} {label : Label}
    (h : layout.entry? line statement = some label) :
    label.line = line ∧ statement.name? = some label.name := by
  cases statement with
  | labelMath | label =>
      cases h
      exact ⟨rfl, rfl⟩
  | _ => cases h

/-- Behind a statement there are the labels that were there before it, and its own. -/
theorem mem_label_of_enter {statement : Statement} {label : Label}
    (hStatement : statement? source = some statement)
    (hEnter : layout.enter line statement = .ok next) (hLabel : label ∈ next.symbols.labels) :
    label ∈ layout.symbols.labels ∨
      (label.line = line ∧ definedName? source = some label.name) := by
  obtain rfl := eq_of_enter hEnter
  rcases List.mem_append.mp hLabel with hOld | hNew
  · exact .inl hOld
  · obtain ⟨hLine, hName⟩ := entry?_eq_some (Option.mem_toList.mp hNew)
    exact .inr ⟨hLine, by rw [definedName?, hStatement, Option.bind_some, hName]⟩

theorem Takes.mem_label (h : Takes forms? layout line source next) {label : Label}
    (hLabel : label ∈ next.symbols.labels) :
    label ∈ layout.symbols.labels ∨
      (label.line = line ∧ definedName? source = some label.name) := by
  cases h with
  | blank => exact .inl hLabel
  | silent hStatement hEnter _ => exact mem_label_of_enter hStatement hEnter hLabel
  | code hStatement hEnter _ _ => exact mem_label_of_enter hStatement hEnter hLabel

/-- Behind every label of a pass is the line of source of its number. -/
theorem exists_definition (h : layout.addLines forms? line sources = .ok final) {label : Label}
    (hLabel : label ∈ final.symbols.labels) : label ∈ layout.symbols.labels ∨
      ∃ i source, sources[i]? = some source ∧ label.line = line + i ∧
        definedName? source = some label.name := by
  induction sources generalizing layout line with
  | nil =>
      cases h
      exact .inl hLabel
  | cons source rest ih =>
      obtain ⟨next, hAdd, hRest⟩ := addLines_cons h
      rcases ih hRest with hNext | ⟨i, found, hFound, hLine, hName⟩
      · rcases (takes_of_addLine hAdd).mem_label hNext with hLayout | hHere
        · exact .inl hLayout
        · exact .inr ⟨0, source, rfl, hHere⟩
      · rw [Nat.add_right_comm] at hLine
        exact .inr ⟨i + 1, found, hFound, hLine, hName⟩

/-- Behind a line there is the code that was there before it, and its own. -/
theorem Takes.mem_code (h : Takes forms? layout line source next) {code : CodeLine}
    (hCode : code ∈ next.code.toList) :
    code ∈ layout.code.toList ∨ Stems forms? line source code := by
  cases h with
  | blank => exact .inl hCode
  | silent _ hEnter _ =>
      rw [(enter_eq_ok hEnter).1] at hCode
      exact .inl hCode
  | code hStatement hEnter hSome hEncode =>
      simp only [append, Array.toList_push, List.mem_append, List.mem_singleton,
        (enter_eq_ok hEnter).1] at hCode
      rcases hCode with hCode | rfl
      · exact .inl hCode
      · exact .inr (.encoded hStatement hSome hEncode)

/-- Behind every line of code of a pass is the line of source of its number. -/
theorem exists_stem (h : layout.addLines forms? line sources = .ok final) {code : CodeLine}
    (hCode : code ∈ final.code.toList) : code ∈ layout.code.toList ∨
      ∃ i source, sources[i]? = some source ∧ Stems forms? (line + i) source code := by
  induction sources generalizing layout line with
  | nil =>
      cases h
      exact .inl hCode
  | cons source rest ih =>
      obtain ⟨next, hAdd, hRest⟩ := addLines_cons h
      rcases ih hRest with hNext | ⟨i, found, hFound, hStems⟩
      · rcases (takes_of_addLine hAdd).mem_code hNext with hLayout | hStems
        · exact .inl hLayout
        · exact .inr ⟨0, source, rfl, hStems⟩
      · rw [Nat.add_right_comm] at hStems
        exact .inr ⟨i + 1, found, hFound, hStems⟩

/-- Code is laid down in the order of the source. -/
theorem increasing_addLines (hOrderly : layout.Orderly line)
    (hIncreasing : layout.code.toList.Pairwise fun first second => first.line < second.line)
    (h : layout.addLines forms? line sources = .ok final) :
    final.code.toList.Pairwise fun first second => first.line < second.line := by
  induction sources generalizing layout line with
  | nil =>
      cases h
      exact hIncreasing
  | cons source rest ih =>
      obtain ⟨next, hAdd, hRest⟩ := addLines_cons h
      have hTakes := takes_of_addLine hAdd
      refine ih (hOrderly.takes hTakes) ?_ hRest
      cases hTakes with
      | blank => exact hIncreasing
      | silent _ hEnter _ =>
          rw [(enter_eq_ok hEnter).1]
          exact hIncreasing
      | code _ hEnter _ _ =>
          simp only [append, Array.toList_push, (enter_eq_ok hEnter).1]
          refine List.pairwise_append.mpr ⟨hIncreasing, List.pairwise_singleton _ _, ?_⟩
          intro first hFirst second hSecond
          rw [List.mem_singleton] at hSecond
          subst hSecond
          exact hOrderly.passed first hFirst

end Layout
end Micro6502.Assembly
