import Micro6502.Word
import Micro6502.Instruction.Mode
import Micro6502.Instruction.Operation

/-! One encoding of one operation. -/

namespace Micro6502

/-- An operation in one addressing mode, with the opcode that stands for the
pair and the number of bytes that it takes in memory. -/
structure Descriptor where
  operation : Operation
  mode : AddressingMode
  opcode : Byte
  size : Nat
  deriving DecidableEq

namespace Descriptor

/-- The descriptor of an executable instruction. Its size follows its mode. -/
def executable (operation : Operation) (mode : AddressingMode) (opcode : Byte) :
    Descriptor :=
  { operation, mode, opcode, size := mode.instructionSize }

/-- What an opcode without an instruction decodes to: one byte, no operand. -/
def unassigned (opcode : Byte) : Descriptor :=
  { operation := .invalid, mode := .implied, opcode, size := 1 }

/-- The directive that lays down literal bytes. It has no opcode, and its size
is that of its list. -/
def byteDirective (size : Nat) : Descriptor :=
  { operation := .dcb, mode := .implied, opcode := 0, size }

/-- The name of the instruction in source text and in listings. -/
def mnemonic (d : Descriptor) : Text := d.operation.mnemonic

def isInvalid (d : Descriptor) : Bool := d.operation = .invalid

def isBranch (d : Descriptor) : Bool := d.mode = .relative

end Descriptor
end Micro6502
