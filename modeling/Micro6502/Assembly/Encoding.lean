import Micro6502.Instruction.Catalog
import Micro6502.Assembly.CodeLine
import Micro6502.Assembly.SymbolTable

/-! From an operand to bytes. The shape of the operand and the size of its value
choose among the forms in which the instruction exists. -/

namespace Micro6502.Assembly

/-- An encoded instruction, possibly waiting for a label. -/
structure Encoding where
  descriptor : Descriptor
  bytes : List Byte
  pending : Option LabelRef
  deriving DecidableEq

/-- The operand bytes of an instruction of the given size, low byte first. -/
def operandField (size value : Nat) : List Byte :=
  match size with
  | 2 => [.ofNat value]
  | 3 => [.ofNat value, .ofNat (value / 0x100)]
  | _ => []

/-- The opcode of a form and as many operand bytes as it calls for. -/
def emit (form : Descriptor) (value : Nat) (pending : Option LabelRef) : Encoding :=
  { descriptor := form, bytes := form.opcode :: operandField form.size value, pending }

/-- What stands in for the address of a label that is not known yet. It does not
fit in one byte, so the line gets room for a full address. -/
def addressPlaceholder : Nat := 0xFFFF

/-- What stands in for an unknown label in a field of one byte. -/
def bytePlaceholder : Nat := 0x00

/-- The number that a value stands for. A label that is not known stands for the
placeholder and is reported as pending. -/
def resolveValue (symbols : SymbolTable) (placeholder : Nat) :
    Value → Nat × Option LabelRef
  | .number value => (value, none)
  | .label name => match symbols.lookup? name with
    | some label => (label.address.toNat, none)
    | none => (placeholder, some { name, select := .low })

def checkRange (value limit : Nat) : Except Cause Unit :=
  if value ≤ limit then .ok () else .error (.outOfRange value)

/-- The form in the given mode, which the operand leaves no alternative to. -/
def require (mnemonic : Text) (forms : List Descriptor) (mode : AddressingMode) :
    Except Cause Descriptor :=
  match Catalog.inMode? forms mode with
  | some form => .ok form
  | none => .error (.unsupportedMode mnemonic mode)

/-- Encode a branch, whose operand is a target and nothing else. -/
def encodeBranch (mnemonic : Text) (form : Descriptor) (operand : Operand)
    (address : Address) (symbols : SymbolTable) : Except Cause Encoding :=
  match operand with
  | .direct value => do
    let (target, pending) := resolveValue symbols addressPlaceholder value
    checkRange target 0xFFFF
    return { descriptor := form, bytes := [form.opcode, branchOffset address target], pending }
  | _ => .error (.invalidSyntax ("Invalid branch for ".toList ++ mnemonic))

/-- Encode `#<LABEL` or `#>LABEL`. -/
def encodeHalf (mnemonic : Text) (forms : List Descriptor) (symbols : SymbolTable)
    (select : ByteSelect) (name : Text) : Except Cause Encoding := do
  let form ← require mnemonic forms .immediate
  match symbols.lookup? name with
  | some label => return emit form (select.apply label.address).toNat none
  | none => return emit form bytePlaceholder (some { name, select })

/-- Encode an operand in parentheses whose pointer lies in the zero page. -/
def encodePointer (mnemonic : Text) (forms : List Descriptor) (symbols : SymbolTable)
    (mode : AddressingMode) (value : Value) : Except Cause Encoding := do
  let (pointer, pending) := resolveValue symbols bytePlaceholder value
  checkRange pointer 0xFF
  let form ← require mnemonic forms mode
  return emit form pointer pending

/-- The form for an indexed operand: absolute, or zero-page if the instruction
has no absolute form and the value fits. -/
def indexedForm? (forms : List Descriptor) (wide narrow : AddressingMode)
    (target : Nat) : Option Descriptor :=
  match Catalog.inMode? forms wide with
  | some form => some form
  | none => if target ≤ 0xFF then Catalog.inMode? forms narrow else none

/-- Encode `value,X` or `value,Y`. -/
def encodeIndexed (mnemonic : Text) (forms : List Descriptor) (symbols : SymbolTable)
    (wide narrow : AddressingMode) (value : Value) : Except Cause Encoding := do
  let (target, pending) := resolveValue symbols addressPlaceholder value
  checkRange target 0xFFFF
  match indexedForm? forms wide narrow target with
  | some form => return emit form target pending
  | none => .error (.unsupportedMode mnemonic wide)

/-- The form for a value alone: zero-page if the instruction has that form and
the value fits, else absolute. -/
def directForm? (forms : List Descriptor) (target : Nat) : Option Descriptor :=
  match Catalog.inMode? forms .zeroPage with
  | some form => if target ≤ 0xFF then some form else Catalog.inMode? forms .absolute
  | none => Catalog.inMode? forms .absolute

def encodeDirect (mnemonic : Text) (forms : List Descriptor) (symbols : SymbolTable)
    (value : Value) : Except Cause Encoding := do
  let (target, pending) := resolveValue symbols addressPlaceholder value
  checkRange target 0xFFFF
  match directForm? forms target with
  | some form => return emit form target pending
  | none => .error (.unsupportedMode mnemonic .absolute)

def encodeIndirect (mnemonic : Text) (forms : List Descriptor) (symbols : SymbolTable)
    (value : Value) : Except Cause Encoding := do
  let (target, pending) := resolveValue symbols addressPlaceholder value
  checkRange target 0xFFFF
  let form ← require mnemonic forms .indirect
  return emit form target pending

def encodeImmediate (mnemonic : Text) (forms : List Descriptor) (value : Nat) :
    Except Cause Encoding := do
  checkRange value 0xFF
  let form ← require mnemonic forms .immediate
  return emit form value none

def encodeImplied (mnemonic : Text) (forms : List Descriptor) : Except Cause Encoding := do
  let form ← require mnemonic forms .implied
  return emit form 0 none

/-- Encode an instruction at `address`. The `forms` are all descriptors of its
mnemonic; if one of them is a branch, the instruction is a branch. -/
def encode (mnemonic : Text) (forms : List Descriptor) (operand : Operand)
    (address : Address) (symbols : SymbolTable) : Except Cause Encoding :=
  match Catalog.inMode? forms .relative with
  | some branch => encodeBranch mnemonic branch operand address symbols
  | none => match operand with
    | .absent | .accumulator => encodeImplied mnemonic forms
    | .immediate value => encodeImmediate mnemonic forms value
    | .immediateLabel select name => encodeHalf mnemonic forms symbols select name
    | .indirectX value => encodePointer mnemonic forms symbols .indirectX value
    | .indirectY value => encodePointer mnemonic forms symbols .indirectY value
    | .indexedX value => encodeIndexed mnemonic forms symbols .absoluteX .zeroPageX value
    | .indexedY value => encodeIndexed mnemonic forms symbols .absoluteY .zeroPageY value
    | .indirect value => encodeIndirect mnemonic forms symbols value
    | .direct value => encodeDirect mnemonic forms symbols value

end Micro6502.Assembly
