import Micro6502.Proofs.Assembly.Layout

/-! When a line of source is taken in. `Takes` lists what comes of a line that is; here is the
other direction, from a line to the layout behind it. -/

namespace Micro6502.Assembly

namespace Statement

/-- Whether the statement defines a label relative to another one. -/
def isRelative : Statement → Bool
  | labelMath _ _ _ => true
  | _ => false

/-- The name that the statement defines, if it defines one. -/
def name? : Statement → Option Text
  | labelMath name _ _ | label name _ => some name
  | _ => none

/-- Whether the statement defines a label relative to itself. -/
def isSelfRelative : Statement → Bool
  | labelMath name dependency _ => name = dependency
  | _ => false

/-- The relative label that the statement defines, wherever it stands. -/
def relative? : Statement → Option Label
  | labelMath name dependency offset =>
    some { name, address := 0, dependency := some ⟨dependency, offset⟩, line := 0 }
  | _ => none

theorem not_isSelfRelative {statement : Statement} (h : statement.isRelative = false) :
    statement.isSelfRelative = false := by
  cases statement with
  | labelMath => cases h
  | _ => rfl

/-- A relative definition has its line for itself. -/
theorem code?_of_isRelative {statement : Statement} (h : statement.isRelative = true) :
    statement.code? = .ok none := by
  cases statement with
  | labelMath => rfl
  | _ => cases h

end Statement

namespace Layout

/-- The label that a statement defines, if it defines one. -/
def entry? (layout : Layout) (line : Nat) : Statement → Option Label
  | .labelMath name label offset =>
    some { name, address := layout.counter, dependency := some { label, offset }, line }
  | .label name _ => some { name, address := layout.counter, dependency := none, line }
  | _ => none

/-- The layout at the place that a statement sets, if it sets one. -/
def placed (layout : Layout) : Statement → Layout
  | .setAddress address => layout.moveTo address
  | .addressLabel address _ =>
    { layout.moveTo address with addressLabels := layout.addressLabels + 1 }
  | _ => layout

/-- The layout with the label or the place of a statement. -/
def entered (layout : Layout) (line : Nat) (statement : Statement) : Layout :=
  { layout.placed statement with
    symbols := { labels := layout.symbols.labels ++ (layout.entry? line statement).toList } }

/-- Nothing stands against the label that a statement defines. -/
structure Admits (layout : Layout) (statement : Statement) : Prop where
  fresh : ∀ name ∈ statement.name?, layout.symbols.defines name = false
  grounded : statement.isSelfRelative = false

variable {forms? : FormLookup} {layout next final : Layout} {line : Nat} {source : Text}
  {statement : Statement}

/-- A statement without a label does no more than to set a place, if it does that. -/
theorem entered_eq_self (hEntry : layout.entry? line statement = none) :
    layout.entered line statement = layout.placed statement := by
  cases statement with
  | labelMath | label => cases hEntry
  | _ => simp [entered, entry?, placed, moveTo]

theorem enter_of_admits (h : layout.Admits statement) (line : Nat) :
    layout.enter line statement = .ok (layout.entered line statement) := by
  cases statement with
  | setAddress | addressLabel | instruction =>
      rw [entered_eq_self rfl]
      rfl
  | label name rest =>
      have hFresh := h.fresh name rfl
      simp only [enter, define, SymbolTable.define, hFresh]
      rfl
  | labelMath name dependency offset =>
      have hFresh := h.fresh name rfl
      have hOther : name ≠ dependency := of_decide_eq_false h.grounded
      simp only [enter, defineRelative, SymbolTable.defineRelative, hFresh, if_neg hOther]
      rfl

/-- What has been entered was admitted, so a name is new and no label is relative to itself. -/
theorem admits_of_enter (h : layout.enter line statement = .ok next) :
    layout.Admits statement := by
  cases statement with
  | setAddress | addressLabel | instruction => exact ⟨fun _ => nofun, rfl⟩
  | label name rest =>
      simp only [enter, define, SymbolTable.define] at h
      cases hFresh : layout.symbols.defines name with
      | true => simp [hFresh] at h
      | false => exact ⟨by rintro _ ⟨⟩; exact hFresh, rfl⟩
  | labelMath name dependency offset =>
      simp only [enter, defineRelative, SymbolTable.defineRelative] at h
      cases hFresh : layout.symbols.defines name with
      | true => simp [hFresh] at h
      | false =>
          refine ⟨by rintro _ ⟨⟩; exact hFresh, decide_eq_false ?_⟩
          rintro rfl
          simp [hFresh] at h

/-- There is only one way to enter a statement. -/
theorem eq_of_enter (h : layout.enter line statement = .ok next) :
    next = layout.entered line statement := by
  rw [enter_of_admits (admits_of_enter h)] at h
  exact (Except.ok.inj h).symm

/-- A line with a statement on it is taken in by its statement alone. -/
theorem addLine_eq_add (h : statement? source = some statement) :
    layout.addLine forms? line source = layout.add forms? line statement := by
  unfold statement? at h
  split at h
  next => cases h
  next hBlank =>
    simp only [addLine, if_neg hBlank, except_toOption_eq_some.mp h]

/-- A statement is taken in by its label or its place first, and then by its code. -/
theorem add_eq_enter (forms? : FormLookup) (layout : Layout) (line : Nat)
    (statement : Statement) : layout.add forms? line statement = (do
      let entered ← layout.enter line statement
      match ← statement.code? with
      | none => .ok entered
      | some (mnemonic, operand) => entered.addStatement forms? line mnemonic operand) := by
  have hRest : ∀ (entered : Layout) (rest : Text), entered.addRest forms? line rest = (do
      match ← (if rest = [] then .ok none else (parseInstruction rest).map some) with
      | none => .ok entered
      | some (mnemonic, operand) => entered.addStatement forms? line mnemonic operand) := by
    intro entered rest
    unfold addRest
    by_cases hEmpty : rest = []
    · rw [if_pos hEmpty, if_pos hEmpty]
      rfl
    · rw [if_neg hEmpty, if_neg hEmpty]
      cases parseInstruction rest with
      | error cause => rfl
      | ok code => rfl
  cases statement with
  | setAddress | instruction => rfl
  | addressLabel address rest => exact hRest _ rest
  | labelMath name dependency offset =>
      simp only [add, enter]
      cases layout.defineRelative line name ⟨dependency, offset⟩ with
      | error cause => rfl
      | ok entered => rfl
  | label name rest =>
      simp only [add, enter]
      cases layout.define line name with
      | error cause => rfl
      | ok entered => exact hRest entered rest

/-- The converse: each way that is listed is one in which a line is taken in. -/
theorem addLine_of_takes (h : Takes forms? layout line source next) :
    layout.addLine forms? line source = .ok next := by
  cases h with
  | blank hBlank => simp only [addLine, hBlank, if_true]
  | silent hStatement hEnter hCode =>
      rw [addLine_eq_add hStatement, add_eq_enter, hEnter, hCode]
      rfl
  | code hStatement hEnter hCode hEncode =>
      rw [addLine_eq_add hStatement, add_eq_enter, hEnter, hCode]
      simp only [bind, Except.bind, addStatement, hEncode]

theorem addLines_of_takes {rest : List Text} (h : Takes forms? layout line source next)
    (hRest : next.addLines forms? (line + 1) rest = .ok final) :
    layout.addLines forms? line (source :: rest) = .ok final := by
  rw [addLines, addLine_of_takes h]
  exact hRest

end Layout

end Micro6502.Assembly
