import Micro6502.Proofs.Assembly.Entry
import Micro6502.Proofs.Assembly.Program

/-! Faults that a line of source shows by itself. Whatever is wrong with a line when it is taken
in, it is never a label that is missing: such a label may still come. -/

namespace Micro6502.Assembly

/-- Causes that come out when a line is read. The others show only when all lines are known. -/
def Cause.isImmediate : Cause → Bool
  | missingDependentLabel _ _ | circularLabel _ | undefinedLabel _ | unimplementedPatch _ => false
  | _ => true

/-- Whatever goes wrong, if anything does, has an immediate cause. -/
inductive Immediate {α : Type} : Except Cause α → Prop
  | ok (a : α) : Immediate (.ok a)
  | fault {cause : Cause} (h : cause.isImmediate = true) : Immediate (.error cause)

theorem Immediate.cause {α : Type} {result : Except Cause α} (h : Immediate result)
    {cause : Cause} (hFault : result = .error cause) : cause.isImmediate = true := by
  cases h with
  | ok a => cases hFault
  | fault h =>
      cases hFault
      exact h

/-- Two attempts one after the other, of which the second may depend on the first. -/
theorem Immediate.bind {α β : Type} {result : Except Cause α} {f : α → Except Cause β}
    (h : Immediate result) (hNext : ∀ a, Immediate (f a)) : Immediate (result >>= f) := by
  cases h with
  | ok a => exact hNext a
  | fault h => exact .fault h

theorem immediate_mapM {α β : Type} {f : α → Except Cause β} (h : ∀ a, Immediate (f a))
    (xs : List α) : Immediate (xs.mapM f) := by
  induction xs with
  | nil => exact .ok []
  | cons x xs ih =>
      rw [List.mapM_cons]
      exact (h x).bind fun y => ih.bind fun ys => .ok (y :: ys)

theorem immediate_parseAddress (text : Text) : Immediate (parseAddress text) := by
  unfold parseAddress
  split
  · exact .fault rfl
  · split
    · exact .ok _
    · exact .fault rfl

theorem immediate_parseInstruction (line : Text) : Immediate (parseInstruction line) := by
  unfold parseInstruction
  split
  · split
    · exact .ok _
    · exact .fault rfl
  · exact .fault rfl

theorem immediate_classifyInstruction (line : Text) : Immediate (classifyInstruction line) := by
  unfold classifyInstruction
  split
  next cause hFault => exact .fault ((immediate_parseInstruction line).cause hFault)
  next => exact .ok _

/-- A line with a colon fails by its address or by the instruction that it is read as instead. -/
theorem immediate_classifyLabelled (line : Text) : Immediate (classifyLabelled line) := by
  unfold classifyLabelled
  split
  · exact immediate_classifyInstruction line
  next front rest _ =>
    split
    · split
      next cause hFault => exact .fault ((immediate_parseAddress front).cause hFault)
      next => exact .ok _
    · split
      · exact .ok _
      · exact immediate_classifyInstruction line

/-- Reading the form of a line looks at the line and at nothing else. -/
theorem immediate_classify (line : Text) : Immediate (classify line) := by
  have hSet : ∀ rest, Immediate (parseSetAddress rest) := by
    intro rest
    unfold parseSetAddress
    split
    · exact .fault rfl
    · exact immediate_parseAddress _
  unfold classify
  split
  next rest _ =>
    split
    next cause hFault => exact .fault ((hSet rest).cause hFault)
    next => exact .ok _
  · split
    · exact .ok _
    · exact immediate_classifyLabelled line

/-- A list of bytes fails by one of its entries, or by being too long. -/
theorem immediate_encodeDirective (operand : Text) : Immediate (encodeDirective operand) := by
  have hByte : ∀ entry, Immediate (parseByte operand entry) := by
    intro entry
    unfold parseByte
    split
    · exact .fault rfl
    · split
      · exact .ok _
      · exact .fault rfl
  unfold encodeDirective
  split
  next cause hFault => exact .fault ((immediate_mapM hByte _).cause hFault)
  next =>
    split
    · exact .ok _
    · exact .fault rfl

theorem immediate_parseOperand (text : Text) : Immediate (parseOperand text) := by
  unfold parseOperand
  split
  · exact .ok _
  · exact .fault rfl

theorem immediate_checkRange (value limit : Nat) : Immediate (checkRange value limit) := by
  unfold checkRange
  split
  · exact .ok _
  · exact .fault rfl

/-- A mode that the instruction lacks shows when the line is read. -/
theorem immediate_require (mnemonic : Text) (forms : List Descriptor) (mode : AddressingMode) :
    Immediate (require mnemonic forms mode) := by
  unfold require
  split
  · exact .ok _
  · exact .fault rfl

/-- Encoding never asks that a label be known: where it is not, a placeholder goes in. So it fails
by the shape of the operand, by a range or by the mode. -/
theorem immediate_encode (mnemonic : Text) (forms : List Descriptor) (operand : Operand)
    (address : Address) (symbols : SymbolTable) :
    Immediate (encode mnemonic forms operand address symbols) := by
  have hPointer : ∀ mode value,
      Immediate (encodePointer mnemonic forms symbols mode value) := fun _ _ =>
    (immediate_checkRange _ _).bind fun _ => (immediate_require _ _ _).bind fun _ => .ok _
  have hIndexed : ∀ wide narrow value,
      Immediate (encodeIndexed mnemonic forms symbols wide narrow value) := by
    intro wide narrow value
    refine (immediate_checkRange _ _).bind fun _ => ?_
    split
    · exact .ok _
    · exact .fault rfl
  unfold encode
  split
  · cases operand with
    | direct value => exact (immediate_checkRange _ _).bind fun _ => .ok _
    | _ => exact .fault rfl
  · cases operand with
    | absent | accumulator => exact (immediate_require _ _ _).bind fun _ => .ok _
    | immediate value =>
        exact (immediate_checkRange _ _).bind fun _ => (immediate_require _ _ _).bind fun _ => .ok _
    | immediateLabel select name =>
        refine (immediate_require _ _ _).bind fun _ => ?_
        split
        · exact .ok _
        · exact .ok _
    | indirectX value | indirectY value => exact hPointer _ _
    | indexedX value | indexedY value => exact hIndexed _ _ _
    | indirect value =>
        exact (immediate_checkRange _ _).bind fun _ => (immediate_require _ _ _).bind fun _ => .ok _
    | direct value =>
        refine (immediate_checkRange _ _).bind fun _ => ?_
        split
        · exact .ok _
        · exact .fault rfl

/-- A statement fails by its mnemonic, by the text of its operand, or in the encoding. -/
theorem immediate_encodeStatement (forms? : FormLookup) (mnemonic operand : Text)
    (address : Address) (symbols : SymbolTable) :
    Immediate (encodeStatement forms? mnemonic operand address symbols) := by
  unfold encodeStatement
  split
  · exact .fault rfl
  · split
    · exact immediate_encodeDirective operand
    · split
      next cause hFault => exact .fault ((immediate_parseOperand operand).cause hFault)
      next => exact immediate_encode _ _ _ _ _

namespace Layout

variable {forms? : FormLookup} {layout next final : Layout} {line : Nat} {source : Text}

/-- A definition fails because its name is taken or because it is relative to itself. Whether the
other label exists is not asked here. -/
theorem immediate_enter (layout : Layout) (line : Nat) (statement : Statement) :
    Immediate (layout.enter line statement) := by
  cases statement with
  | setAddress | addressLabel | instruction => exact .ok _
  | label name rest =>
      simp only [enter, define, SymbolTable.define]
      cases layout.symbols.defines name with
      | true => exact .fault rfl
      | false => exact .ok _
  | labelMath name dependency offset =>
      simp only [enter, defineRelative, SymbolTable.defineRelative]
      cases layout.symbols.defines name with
      | true => exact .fault rfl
      | false =>
          by_cases hSelf : name = dependency
          · simp only [hSelf]
            exact .fault rfl
          · simp only [if_neg hSelf]
            exact .ok _

/-- Every fault of a line that is taken in shows on the line. -/
theorem immediate_addLine (forms? : FormLookup) (layout : Layout) (line : Nat) (source : Text) :
    Immediate (layout.addLine forms? line source) := by
  have hCode : ∀ statement : Statement, Immediate statement.code? := by
    intro statement
    have hRest : ∀ rest : Text, Immediate
        (if rest = [] then .ok none else (parseInstruction rest).map some) := by
      intro rest
      split
      · exact .ok none
      · exact (immediate_parseInstruction rest).bind fun code => .ok (some code)
    cases statement with
    | addressLabel address rest | label name rest => exact hRest rest
    | _ => exact .ok _
  simp only [addLine]
  split
  · exact .ok layout
  · split
    next cause hFault => exact .fault ((immediate_classify _).cause hFault)
    next statement _ =>
      rw [add_eq_enter]
      refine (immediate_enter layout line statement).bind fun entered => (hCode statement).bind ?_
      rintro (_ | ⟨mnemonic, operand⟩)
      · exact .ok entered
      · dsimp only [addStatement]
        split
        next cause hFault => exact .fault ((immediate_encodeStatement _ _ _ _ _).cause hFault)
        next => exact .ok _

end Layout
end Micro6502.Assembly
