import Micro6502.Text.Basic

/-! Addressing modes: how the operand bytes of an instruction select a value or
an address. -/

namespace Micro6502

/-- The twelve ways of giving an operand. The shifts of the accumulator count
as implied. -/
inductive AddressingMode where
  | implied
  | immediate
  | zeroPage
  | zeroPageX
  | zeroPageY
  | absolute
  | absoluteX
  | absoluteY
  | indirect
  | indirectX
  | indirectY
  | relative
  deriving DecidableEq

namespace AddressingMode

/-- The number of operand bytes that follow the opcode. -/
def operandBytes : AddressingMode → Nat
  | implied => 0
  | immediate | zeroPage | zeroPageX | zeroPageY | indirectX | indirectY | relative => 1
  | absolute | absoluteX | absoluteY | indirect => 2

/-- The size of a whole instruction, its opcode included. -/
def instructionSize (mode : AddressingMode) : Nat := 1 + mode.operandBytes

/-- The name of the mode in messages. -/
def name : AddressingMode → Text
  | implied => "implied".toList
  | immediate => "immediate".toList
  | zeroPage => "zero-page".toList
  | zeroPageX => "zero-page X-indexed".toList
  | zeroPageY => "zero-page Y-indexed".toList
  | absolute => "absolute".toList
  | absoluteX => "absolute X-indexed".toList
  | absoluteY => "absolute Y-indexed".toList
  | indirect => "indirect".toList
  | indirectX => "indexed-indirect X".toList
  | indirectY => "indirect-indexed Y".toList
  | relative => "relative".toList

end AddressingMode
end Micro6502
