import Micro6502.Instruction.Descriptor

/-! The instruction set: every encoding that the processor executes, and the two
ways into it. Decoding goes from an opcode to its descriptor; the assembler goes
from a mnemonic to the descriptors that share it. -/

namespace Micro6502
namespace Catalog

/-- Every executable operation with its modes and opcodes. -/
def families : List (Operation × List (AddressingMode × Byte)) := [
  (.adc, [(.immediate, 0x69), (.zeroPage, 0x65), (.zeroPageX, 0x75), (.absolute, 0x6D),
    (.absoluteX, 0x7D), (.absoluteY, 0x79), (.indirectX, 0x61), (.indirectY, 0x71)]),
  (.sbc, [(.immediate, 0xE9), (.zeroPage, 0xE5), (.zeroPageX, 0xF5), (.absolute, 0xED),
    (.absoluteX, 0xFD), (.absoluteY, 0xF9), (.indirectX, 0xE1), (.indirectY, 0xF1)]),
  (.and, [(.immediate, 0x29), (.zeroPage, 0x25), (.zeroPageX, 0x35), (.absolute, 0x2D),
    (.absoluteX, 0x3D), (.absoluteY, 0x39), (.indirectX, 0x21), (.indirectY, 0x31)]),
  (.ora, [(.immediate, 0x09), (.zeroPage, 0x05), (.zeroPageX, 0x15), (.absolute, 0x0D),
    (.absoluteX, 0x1D), (.absoluteY, 0x19), (.indirectX, 0x01), (.indirectY, 0x11)]),
  (.eor, [(.immediate, 0x49), (.zeroPage, 0x45), (.zeroPageX, 0x55), (.absolute, 0x4D),
    (.absoluteX, 0x5D), (.absoluteY, 0x59), (.indirectX, 0x41), (.indirectY, 0x51)]),
  (.bit, [(.zeroPage, 0x24), (.absolute, 0x2C)]),
  (.cmp, [(.immediate, 0xC9), (.zeroPage, 0xC5), (.zeroPageX, 0xD5), (.absolute, 0xCD),
    (.absoluteX, 0xDD), (.absoluteY, 0xD9), (.indirectX, 0xC1), (.indirectY, 0xD1)]),
  (.cpx, [(.immediate, 0xE0), (.zeroPage, 0xE4), (.absolute, 0xEC)]),
  (.cpy, [(.immediate, 0xC0), (.zeroPage, 0xC4), (.absolute, 0xCC)]),
  (.bpl, [(.relative, 0x10)]),
  (.bmi, [(.relative, 0x30)]),
  (.bvc, [(.relative, 0x50)]),
  (.bvs, [(.relative, 0x70)]),
  (.bcc, [(.relative, 0x90)]),
  (.bcs, [(.relative, 0xB0)]),
  (.bne, [(.relative, 0xD0)]),
  (.beq, [(.relative, 0xF0)]),
  (.clc, [(.implied, 0x18)]),
  (.sec, [(.implied, 0x38)]),
  (.clv, [(.implied, 0xB8)]),
  (.cld, [(.implied, 0xD8)]),
  (.sed, [(.implied, 0xF8)]),
  (.inc, [(.zeroPage, 0xE6), (.zeroPageX, 0xF6), (.absolute, 0xEE), (.absoluteX, 0xFE)]),
  (.dec, [(.zeroPage, 0xC6), (.zeroPageX, 0xD6), (.absolute, 0xCE), (.absoluteX, 0xDE)]),
  (.inx, [(.implied, 0xE8)]),
  (.iny, [(.implied, 0xC8)]),
  (.dex, [(.implied, 0xCA)]),
  (.dey, [(.implied, 0x88)]),
  (.jmp, [(.absolute, 0x4C), (.indirect, 0x6C)]),
  (.jsr, [(.absolute, 0x20)]),
  (.rts, [(.implied, 0x60)]),
  (.nop, [(.implied, 0xEA)]),
  (.lda, [(.immediate, 0xA9), (.zeroPage, 0xA5), (.zeroPageX, 0xB5), (.absolute, 0xAD),
    (.absoluteX, 0xBD), (.absoluteY, 0xB9), (.indirectX, 0xA1), (.indirectY, 0xB1)]),
  (.ldx, [(.immediate, 0xA2), (.zeroPage, 0xA6), (.zeroPageY, 0xB6), (.absolute, 0xAE),
    (.absoluteY, 0xBE)]),
  (.ldy, [(.immediate, 0xA0), (.zeroPage, 0xA4), (.zeroPageX, 0xB4), (.absolute, 0xAC),
    (.absoluteX, 0xBC)]),
  (.sta, [(.zeroPage, 0x85), (.zeroPageX, 0x95), (.absolute, 0x8D), (.absoluteX, 0x9D),
    (.absoluteY, 0x99), (.indirectX, 0x81), (.indirectY, 0x91)]),
  (.stx, [(.zeroPage, 0x86), (.zeroPageY, 0x96), (.absolute, 0x8E)]),
  (.sty, [(.zeroPage, 0x84), (.zeroPageX, 0x94), (.absolute, 0x8C)]),
  (.asl, [(.implied, 0x0A), (.zeroPage, 0x06), (.zeroPageX, 0x16), (.absolute, 0x0E),
    (.absoluteX, 0x1E)]),
  (.lsr, [(.implied, 0x4A), (.zeroPage, 0x46), (.zeroPageX, 0x56), (.absolute, 0x4E),
    (.absoluteX, 0x5E)]),
  (.rol, [(.implied, 0x2A), (.zeroPage, 0x26), (.zeroPageX, 0x36), (.absolute, 0x2E),
    (.absoluteX, 0x3E)]),
  (.ror, [(.implied, 0x6A), (.zeroPage, 0x66), (.zeroPageX, 0x76), (.absolute, 0x6E),
    (.absoluteX, 0x7E)]),
  (.pha, [(.implied, 0x48)]),
  (.pla, [(.implied, 0x68)]),
  (.php, [(.implied, 0x08)]),
  (.plp, [(.implied, 0x28)]),
  (.tax, [(.implied, 0xAA)]),
  (.tay, [(.implied, 0xA8)]),
  (.txa, [(.implied, 0x8A)]),
  (.tya, [(.implied, 0x98)]),
  (.tsx, [(.implied, 0xBA)]),
  (.txs, [(.implied, 0x9A)])]

/-- Every executable instruction, one entry per encoding. -/
def all : List Descriptor :=
  families.flatMap fun family => family.2.map fun form =>
    Descriptor.executable family.1 form.1 form.2

/-- The instruction with the given opcode, or the one-byte invalid instruction
if there is none. -/
def find (opcode : Byte) : Descriptor :=
  (all.find? fun d => d.opcode = opcode).getD (.unassigned opcode)

/-- The decoding of all 256 opcodes, laid out once. -/
def table : Vector Descriptor 256 := Vector.ofFn fun i => find (.ofNat i.val)

/-- The descriptor of an opcode. Every opcode has one. -/
def decode (opcode : Byte) : Descriptor :=
  have hOpcode : opcode.toNat < 256 := opcode.toNat_lt
  table[opcode.toNat]

/-- The decoding table has for each opcode what a search through the catalog finds. -/
theorem decode_eq_find (opcode : Byte) : decode opcode = find opcode := by
  simp [decode, table]

/-- What the assembler knows by name: the executable instructions and the byte
directive. -/
def named : List Descriptor := all ++ [.byteDirective 0]

/-- All descriptors that share a mnemonic, in catalog order. Mnemonics are in
upper case, and one that names nothing has no descriptors. -/
def forMnemonic? (mnemonic : Text) : Option (List Descriptor) :=
  match named.filter fun d => d.mnemonic = mnemonic with
  | [] => none
  | descriptors => some descriptors

def inMode? (descriptors : List Descriptor) (mode : AddressingMode) : Option Descriptor :=
  descriptors.find? fun d => d.mode = mode

end Catalog
end Micro6502
