import Micro6502.Proofs.Assembly.Entry
import Micro6502.Proofs.Assembly.Visibility

/-! Other numbers for the lines of source. Labels and code keep the number of their line, but
nothing is decided by it: a pass over lines with other numbers gives the same labels and the
same code with the other numbers in them, or the same fault on a line with the other number. -/

namespace Micro6502.Assembly

variable (number : Nat → Nat)

def Label.renumber (label : Label) : Label := { label with line := number label.line }

def SymbolTable.renumber (table : SymbolTable) : SymbolTable :=
  { labels := table.labels.map (Label.renumber number) }

def Layout.renumber (layout : Layout) : Layout :=
  { layout with
    symbols := layout.symbols.renumber number
    code := layout.code.map (CodeLine.renumber number) }

def Program.renumber (program : Program) : Program :=
  { program with
    labels := program.labels.map (Label.renumber number)
    lines := program.lines.map (CodeLine.renumber number) }

def Diagnostic.renumber (diagnostic : Diagnostic) : Diagnostic :=
  { diagnostic with line := number diagnostic.line }

/-- A result with other numbers for the lines of source, be it good or bad. -/
def renumbered {α : Type} (renumber : α → α) : Except Diagnostic α → Except Diagnostic α
  | .error diagnostic => .error (diagnostic.renumber number)
  | .ok value => .ok (renumber value)

/-- Steps that go along with other numbers may follow each other. -/
theorem renumbered_bind {α β : Type} {first : α → α} {second : β → β}
    {step other : α → Except Diagnostic β}
    (h : ∀ value, other (first value) = renumbered number second (step value))
    (result : Except Diagnostic α) :
    renumbered number first result >>= other = renumbered number second (result >>= step) := by
  cases result with
  | error diagnostic => rfl
  | ok value => exact h value

namespace SymbolTable

theorem find?_renumber (table : SymbolTable) (name : Text) :
    (table.renumber number).find? name = (table.find? name).map (Label.renumber number) :=
  List.find?_map

theorem lookup?_renumber (table : SymbolTable) (name : Text) :
    (table.renumber number).lookup? name = (table.lookup? name).map (Label.renumber number) :=
  List.find?_map

theorem address?_renumber (table : SymbolTable) (name : Text) :
    (table.renumber number).address? name = table.address? name := by
  rw [address?, lookup?_renumber, Option.map_map]
  rfl

theorem defines_renumber (table : SymbolTable) (name : Text) :
    (table.renumber number).defines name = table.defines name :=
  List.any_map

theorem push_renumber (table : SymbolTable) (label : Label) :
    (table.renumber number).push (label.renumber number) = (table.push label).renumber number := by
  simp only [push, renumber, List.map_append, List.map_singleton]

/-- A definition on another line is accepted, or refused for the same reason. -/
theorem define_renumber (table : SymbolTable) (name : Text) (address : Address) (line : Nat) :
    (table.renumber number).define name address (number line) =
      (table.define name address line).map (renumber number) := by
  unfold define
  rw [defines_renumber]
  cases table.defines name with
  | true => rfl
  | false =>
      exact congrArg Except.ok
        (push_renumber number table { name, address, dependency := none, line })

theorem defineRelative_renumber (table : SymbolTable) (name : Text) (dependency : Dependency)
    (address : Address) (line : Nat) :
    (table.renumber number).defineRelative name dependency address (number line) =
      (table.defineRelative name dependency address line).map (renumber number) := by
  unfold defineRelative
  rw [defines_renumber]
  cases table.defines name with
  | true => rfl
  | false =>
      by_cases hSelf : name = dependency.label
      · rw [if_neg Bool.false_ne_true, if_neg Bool.false_ne_true, if_pos hSelf, if_pos hSelf]
        rfl
      · rw [if_neg Bool.false_ne_true, if_neg Bool.false_ne_true, if_neg hSelf, if_neg hSelf]
        exact congrArg Except.ok
          (push_renumber number table { name, address, dependency := some dependency, line })

/-- Following a chain goes by names and distances alone. -/
theorem reach?_renumber (table : SymbolTable) (steps : Nat) (name : Text) :
    (table.renumber number).reach? steps name = table.reach? steps name := by
  induction steps generalizing name with
  | zero => rfl
  | succ steps ih =>
      rw [reach?, reach?, find?_renumber]
      cases table.find? name with
      | none => rfl
      | some label =>
          simp only [Option.map_some, Label.renumber]
          cases label.dependency with
          | none => rfl
          | some dependency => simp only [ih]

/-- A label is settled at the same address and keeps the number of its line. -/
theorem settled_renumber (table : SymbolTable) (label : Label) :
    (table.renumber number).settled (label.renumber number) =
      (table.settled label).renumber number := by
  have hLength : (table.renumber number).labels.length = table.labels.length := List.length_map _
  obtain ⟨name, address, dependency, line⟩ := label
  cases dependency with
  | none => rfl
  | some dependency =>
      simp only [settled, Label.renumber, reach?_renumber, hLength]
      cases table.reach? table.labels.length dependency.label <;> rfl

theorem settle_renumber (table : SymbolTable) :
    (table.renumber number).settle = table.settle.renumber number := by
  have hSettled : (table.renumber number).settled ∘ Label.renumber number =
      Label.renumber number ∘ table.settled :=
    funext fun label => settled_renumber number table label
  simp only [settle, renumber, List.map_map] at hSettled ⊢
  rw [hSettled]

theorem missing?_renumber (table : SymbolTable) (label : Label) :
    (table.renumber number).missing? (label.renumber number) =
      (table.missing? label).map (Diagnostic.renumber number) := by
  obtain ⟨name, address, dependency, line⟩ := label
  cases dependency with
  | none => rfl
  | some dependency =>
      simp only [missing?, Label.renumber, defines_renumber]
      cases table.defines dependency.label <;> rfl

theorem circular?_renumber (label : Label) :
    circular? (label.renumber number) = (circular? label).map (Diagnostic.renumber number) := by
  simp only [circular?, Label.renumber]
  cases label.dependency <;> rfl

/-- The same label is complained about, for neither look-out goes by the numbers of lines. -/
theorem complaint?_renumber (table : SymbolTable) :
    (table.renumber number).complaint? =
      table.complaint?.map (Diagnostic.renumber number) := by
  have hLabels : (table.renumber number).labels = table.labels.map (Label.renumber number) := rfl
  have hMissing : (table.renumber number).missing? ∘ Label.renumber number =
      Option.map (Diagnostic.renumber number) ∘ table.missing? :=
    funext (missing?_renumber number table)
  have hCircular : circular? ∘ Label.renumber number =
      Option.map (Diagnostic.renumber number) ∘ circular? :=
    funext (circular?_renumber number)
  rw [complaint?, hLabels, List.findSome?_map, List.findSome?_map, hMissing, hCircular,
    ← List.map_findSome?, ← List.map_findSome?, complaint?]
  cases table.labels.findSome? table.missing? <;> rfl

end SymbolTable

namespace Layout

theorem renumber_empty : ({} : Layout).renumber number = {} := by
  simp only [renumber, Array.map_empty]
  rfl

/-- A label is entered with the number of its line, and nothing else of it depends on the number. -/
theorem enter_renumber (layout : Layout) (line : Nat) (statement : Statement) :
    (layout.renumber number).enter (number line) statement =
      (layout.enter line statement).map (renumber number) := by
  cases statement with
  | setAddress | addressLabel | instruction => rfl
  | label name rest =>
      simp only [enter, define, renumber, SymbolTable.define_renumber]
      cases layout.symbols.define name layout.counter line <;> rfl
  | labelMath name dependency offset =>
      simp only [enter, defineRelative, renumber, SymbolTable.defineRelative_renumber]
      cases layout.symbols.defineRelative name ⟨dependency, offset⟩ layout.counter line <;> rfl

theorem append_renumber (layout : Layout) (line : Nat) (encoding : Encoding) :
    (layout.renumber number).append (number line) encoding =
      (layout.append line encoding).renumber number := by
  simp only [append, renumber, Array.map_push]
  rfl

/-- Encoding looks at the addresses of labels and never at lines. -/
theorem addStatement_renumber (forms? : FormLookup) (layout : Layout) (line : Nat)
    (mnemonic operand : Text) :
    (layout.renumber number).addStatement forms? (number line) mnemonic operand =
      (layout.addStatement forms? line mnemonic operand).map (renumber number) := by
  have hEncode : encodeStatement forms? mnemonic operand (layout.renumber number).counter
      (layout.renumber number).symbols =
        encodeStatement forms? mnemonic operand layout.counter layout.symbols :=
    encodeStatement_congr (layout.symbols.address?_renumber number) forms? mnemonic operand _
  rw [addStatement, addStatement, hEncode]
  cases encodeStatement forms? mnemonic operand layout.counter layout.symbols with
  | error cause => rfl
  | ok encoding => exact congrArg Except.ok (append_renumber number layout line encoding)

theorem add_renumber (forms? : FormLookup) (layout : Layout) (line : Nat)
    (statement : Statement) : (layout.renumber number).add forms? (number line) statement =
      (layout.add forms? line statement).map (renumber number) := by
  rw [add_eq_enter, add_eq_enter, enter_renumber]
  cases layout.enter line statement with
  | error cause => rfl
  | ok entered =>
      cases hCode : statement.code? with
      | error cause => rfl
      | ok code =>
          cases code with
          | none => rfl
          | some code => exact addStatement_renumber number forms? entered line code.1 code.2

/-- A line of source is read without a look at its number. -/
theorem addLine_renumber (forms? : FormLookup) (layout : Layout) (line : Nat) (source : Text) :
    (layout.renumber number).addLine forms? (number line) source =
      (layout.addLine forms? line source).map (renumber number) := by
  unfold addLine
  by_cases hBlank : normalize source = []
  · simp only [hBlank, if_true]
    rfl
  · simp only [if_neg hBlank]
    cases classify (normalize source) with
    | error cause => rfl
    | ok statement => exact add_renumber number forms? layout line statement

/-- Settling at the end of the pass gives the same labels or the same complaint. -/
theorem close_renumber (layout : Layout) :
    (layout.renumber number).close = renumbered number (renumber number) layout.close := by
  have hSettle : (layout.renumber number).symbols.settle = layout.symbols.settle.renumber number :=
    layout.symbols.settle_renumber number
  simp only [close, hSettle, SymbolTable.complaint?_renumber]
  cases layout.symbols.settle.complaint? <;> rfl

end Layout

/-- A line of code is filled with the same address, or lacks the same label on a line with the
other number. -/
theorem fillLine_renumber (symbols : SymbolTable) (code : CodeLine) :
    fillLine (symbols.renumber number) (code.renumber number) =
      renumbered number (CodeLine.renumber number) (fillLine symbols code) := by
  have hPending : (code.renumber number).pending = code.pending := rfl
  unfold fillLine
  rw [hPending]
  cases code.pending with
  | none => rfl
  | some reference =>
      simp only [SymbolTable.lookup?_renumber]
      cases symbols.lookup? reference.name with
      | none => rfl
      | some label =>
          simp only [Option.map_some, Label.renumber, CodeLine.fill_renumber]
          cases code.fill label.address <;> rfl

/-- The first line that cannot be filled in is the same one. -/
theorem mapM_fillLine_renumber (symbols : SymbolTable) (code : List CodeLine) :
    (code.map (CodeLine.renumber number)).mapM (fillLine (symbols.renumber number)) =
      renumbered number (List.map (CodeLine.renumber number)) (code.mapM (fillLine symbols)) := by
  induction code with
  | nil => rfl
  | cons first rest ih =>
      rw [List.map_cons, List.mapM_cons, List.mapM_cons, fillLine_renumber, ih]
      cases fillLine symbols first with
      | error diagnostic => rfl
      | ok done => cases rest.mapM (fillLine symbols) <;> rfl

theorem Layout.fill_renumber (layout : Layout) :
    (layout.renumber number).fill =
      renumbered number (Program.renumber number) layout.fill := by
  have hCode : (layout.renumber number).code.toList =
      layout.code.toList.map (CodeLine.renumber number) := Array.toList_map
  have hSymbols : (layout.renumber number).symbols = layout.symbols.renumber number := rfl
  rw [fill, fill, hCode, hSymbols, mapM_fillLine_renumber]
  cases layout.code.toList.mapM (fillLine layout.symbols) <;> rfl

end Micro6502.Assembly
