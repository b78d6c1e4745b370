import Micro6502.Assembly.Statement

/-! Operands. Their shape names a family of addressing modes; which member of
the family is meant is left to the encoding. -/

namespace Micro6502.Assembly

open Text

/-- The half of an address that a one-byte field takes. -/
inductive ByteSelect where
  | low
  | high
  deriving DecidableEq

def ByteSelect.apply : ByteSelect → Address → Byte
  | low, address => lowByte address
  | high, address => highByte address

/-- A number, or the name of a label that stands for one. -/
inductive Value where
  | number (value : Nat)
  | label (name : Text)
  deriving DecidableEq

/-- An operand by its shape. -/
inductive Operand where
  /-- No operand at all. -/
  | absent
  /-- `A`, which means the same as no operand. -/
  | accumulator
  /-- `#$7F` -/
  | immediate (value : Nat)
  /-- `#<LABEL` for the low byte, `#>LABEL` for the high one. -/
  | immediateLabel (select : ByteSelect) (label : Text)
  /-- `(value,X)` -/
  | indirectX (value : Value)
  /-- `(value),Y` -/
  | indirectY (value : Value)
  /-- `value,X` -/
  | indexedX (value : Value)
  /-- `value,Y` -/
  | indexedY (value : Value)
  /-- `(value)` -/
  | indirect (value : Value)
  /-- A value alone. -/
  | direct (value : Value)
  deriving DecidableEq

/-- Read a number in the given radix, or failing that the name of a label. -/
def value? (radix : Radix) (text : Text) : Option Value :=
  let text := trim text
  match radix.read? text with
  | some number => some (.number number)
  | none => if isLabelName text then some (.label text) else none

/-- Read what follows `#<` or `#>`. -/
def immediateLabel? (select : ByteSelect) (text : Text) : Option Operand :=
  let label := trim text
  if isLabelName label then some (.immediateLabel select label) else none

def immediate? (radix : Radix) (text : Text) : Option Operand :=
  let text := trim text
  match after? '<' text with
  | some label => immediateLabel? .low label
  | none => match after? '>' text with
    | some label => immediateLabel? .high label
    | none => (radix.read? text).map .immediate

/-- Read what stands between parentheses, `inside`, and behind them, `behind`. -/
def indirect? (radix : Radix) (inside behind : Text) : Option Operand :=
  let behind := trim behind
  match cut? ',' inside with
  | some (value, index) =>
    if trim index = ['X'] ∧ behind = [] then (value? radix value).map .indirectX else none
  | none =>
    if behind = [] then (value? radix inside).map .indirect
    else match after? ',' behind with
      | none => none
      | some index => if trim index = ['Y'] then (value? radix inside).map .indirectY else none

def direct? (radix : Radix) (text : Text) : Option Operand :=
  match cut? ',' text with
  | none => (value? radix text).map .direct
  | some (value, index) =>
    if trim index = ['X'] then (value? radix value).map .indexedX
    else if trim index = ['Y'] then (value? radix value).map .indexedY
    else none

/-- Read an operand in the given radix whose `$` is already taken away. -/
def operand? (radix : Radix) (text : Text) : Option Operand :=
  if text = [] then some .absent
  else if text = ['A'] then some .accumulator
  else match after? '#' text with
    | some inner => immediate? radix inner
    | none => match after? '(' text with
      | some inner => match cut? ')' inner with
        | none => none
        | some (inside, behind) => indirect? radix inside behind
      | none => direct? radix text

/-- The radix of an operand: a `$` anywhere makes it hexadecimal. -/
def operandRadix (text : Text) : Radix := if '$' ∈ text then .hex else .decimal

/-- The text of an operand without the blanks around it and without its first
`$`, which only marks the radix. -/
def operandText (text : Text) : Text := trim ((trim text).erase '$')

def parseOperand (text : Text) : Except Cause Operand :=
  match operand? (operandRadix text) (operandText text) with
  | some operand => .ok operand
  | none => .error (.invalidSyntax (operandText text))

end Micro6502.Assembly
