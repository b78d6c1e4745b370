import Micro6502.Instruction.Branch
import Micro6502.Instruction.Descriptor
import Micro6502.Text.Numeral

/-! Instructions as text, in the form in which the assembler reads them. -/

namespace Micro6502.Listing

open Text

/-- The two bytes that follow an opcode, whether the instruction uses them or not. -/
structure OperandBytes where
  first : Byte
  second : Byte
  deriving DecidableEq

def OperandBytes.word (operand : OperandBytes) : Address :=
  Micro6502.word operand.first operand.second

/-- A byte as a number of the source language. -/
def dollarByte (byte : Byte) : Text := '$' :: hexByte byte

def dollarWord (address : Address) : Text := '$' :: hexWord address

/-- The operand of an instruction at `address`. A branch shows its target and not
its distance. -/
def formatOperand (mode : AddressingMode) (address : Address) (operand : OperandBytes) : Text :=
  match mode with
  | .implied => []
  | .immediate => '#' :: dollarByte operand.first
  | .zeroPage => dollarByte operand.first
  | .zeroPageX => dollarByte operand.first ++ ",X".toList
  | .zeroPageY => dollarByte operand.first ++ ",Y".toList
  | .relative => dollarWord (branchTarget (address + 2) operand.first)
  | .absolute => dollarWord operand.word
  | .absoluteX => dollarWord operand.word ++ ",X".toList
  | .absoluteY => dollarWord operand.word ++ ",Y".toList
  | .indirect => '(' :: dollarWord operand.word ++ ")".toList
  | .indirectX => '(' :: dollarByte operand.first ++ ",X)".toList
  | .indirectY => '(' :: dollarByte operand.first ++ "),Y".toList

/-- An instruction as source text: its mnemonic and, if it has one, its operand. -/
def formatInstruction (d : Descriptor) (address : Address) (operand : OperandBytes) : Text :=
  match formatOperand d.mode address operand with
  | [] => d.mnemonic
  | text => d.mnemonic ++ ' ' :: text

/-- An instruction behind its address. -/
def formatLine (address : Address) (d : Descriptor) (operand : OperandBytes) : Text :=
  dollarWord address ++ ": ".toList ++ formatInstruction d address operand

/-- Some bytes of memory behind the address of the first. -/
def formatRow (address : Address) (bytes : List Byte) : Text :=
  dollarWord address ++ ": ".toList ++ joinWith " ".toList (bytes.map hexByte)

end Micro6502.Listing
