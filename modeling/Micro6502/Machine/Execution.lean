import Micro6502.Instruction.Branch
import Micro6502.Instruction.Descriptor
import Micro6502.Machine.Arithmetic
import Micro6502.Machine.Processor

/-! What each instruction does. The opcode has been fetched when an instruction
is executed; its operand bytes have not. -/

namespace Micro6502.Processor

variable {ρ δ : Type} [ByteSource ρ] [Screen δ]

/-- Give the operand value to a change of the registers. -/
def withOperand (cpu : Processor ρ δ) (mode : AddressingMode)
    (change : Byte → Registers → Registers) : Processor ρ δ :=
  let (byte, cpu) := cpu.operandValue mode
  cpu.withRegisters (change byte)

def store (cpu : Processor ρ δ) (mode : AddressingMode) (byte : Byte) : Processor ρ δ :=
  let (address, cpu) := cpu.effectiveAddress mode
  cpu.write address byte

/-- Replace the byte at the effective address. The status register describes the
new byte. -/
def replace (cpu : Processor ρ δ) (mode : AddressingMode) (change : Byte → Byte) :
    Processor ρ δ :=
  let (address, cpu) := cpu.effectiveAddress mode
  let (byte, cpu) := cpu.read address
  let byte := change byte
  (cpu.write address byte).withRegisters fun r => { r with p := r.p.describe byte }

/-- Shift the accumulator, in implied mode, or the byte at the effective address. -/
def shift (cpu : Processor ρ δ) (mode : AddressingMode) (operation : Arithmetic.Shift) :
    Processor ρ δ :=
  if mode = .implied then
    let (byte, carry) := operation cpu.a cpu.p.carry
    cpu.withRegisters fun r =>
      { r with a := byte, p := { r.p with carry }.describe byte }
  else
    let (address, cpu) := cpu.effectiveAddress mode
    let (byte, cpu) := cpu.read address
    let (byte, carry) := operation byte cpu.p.carry
    (cpu.write address byte).withRegisters fun r =>
      { r with p := { r.p with carry }.describe byte }

/-- Branch if a test of the status register succeeds. The operand byte is
consumed either way. -/
def branchIf (cpu : Processor ρ δ) (test : Status → Bool) : Processor ρ δ :=
  let (offset, cpu) := cpu.fetchByte
  if test cpu.p then cpu.jump (branchTarget cpu.pc offset) else cpu

def withStatus (cpu : Processor ρ δ) (change : Status → Status) : Processor ρ δ :=
  cpu.withRegisters fun r => { r with p := change r.p }

/-- Call a subroutine. The address of the last byte of the call goes onto the
stack, high byte first; if only one byte has room there, it stays. -/
def call (cpu : Processor ρ δ) : Outcome (Processor ρ δ) Unit :=
  let (target, cpu) := cpu.fetchWord
  let back := cpu.pc - 1
  (cpu.push (highByte back)).andThen fun _ cpu =>
    (cpu.push (lowByte back)).andThen fun _ cpu =>
      .done () (cpu.jump target)

/-- Return from a subroutine, to the byte after the address on the stack. -/
def ret (cpu : Processor ρ δ) : Outcome (Processor ρ δ) Unit :=
  cpu.pop.andThen fun low cpu =>
    cpu.pop.andThen fun high cpu =>
      .done () (cpu.jump (word low high + 1))

/-- Pop a byte and give it to a change of the registers. -/
def pull (cpu : Processor ρ δ) (change : Byte → Registers → Registers) :
    Outcome (Processor ρ δ) Unit :=
  cpu.pop.andThen fun byte cpu => .done () (cpu.withRegisters (change byte))

def execute (cpu : Processor ρ δ) (d : Descriptor) : Outcome (Processor ρ δ) Unit :=
  match d.operation with
  | .adc => .done () (cpu.withOperand d.mode .addWithCarry)
  | .sbc => .done () (cpu.withOperand d.mode .subtractWithCarry)
  | .and => .done () (cpu.withOperand d.mode fun byte r => r.loadA (r.a &&& byte))
  | .ora => .done () (cpu.withOperand d.mode fun byte r => r.loadA (r.a ||| byte))
  | .eor => .done () (cpu.withOperand d.mode fun byte r => r.loadA (r.a ^^^ byte))
  | .cmp => .done () (cpu.withOperand d.mode fun byte r => r.compare r.a byte)
  | .cpx => .done () (cpu.withOperand d.mode fun byte r => r.compare r.x byte)
  | .cpy => .done () (cpu.withOperand d.mode fun byte r => r.compare r.y byte)
  | .bit => .done () (cpu.withOperand d.mode .testBits)
  | .bcc => .done () (cpu.branchIf fun p => !p.carry)
  | .bcs => .done () (cpu.branchIf fun p => p.carry)
  | .bne => .done () (cpu.branchIf fun p => !p.zero)
  | .beq => .done () (cpu.branchIf fun p => p.zero)
  | .bpl => .done () (cpu.branchIf fun p => !p.negative)
  | .bmi => .done () (cpu.branchIf fun p => p.negative)
  | .bvc => .done () (cpu.branchIf fun p => !p.overflow)
  | .bvs => .done () (cpu.branchIf fun p => p.overflow)
  | .clc => .done () (cpu.withStatus fun p => { p with carry := false })
  | .sec => .done () (cpu.withStatus fun p => { p with carry := true })
  | .cld => .done () (cpu.withStatus fun p => { p with decimal := false })
  | .sed => .done () (cpu.withStatus fun p => { p with decimal := true })
  | .clv => .done () (cpu.withStatus fun p => { p with overflow := false })
  | .inc => .done () (cpu.replace d.mode (· + 1))
  | .dec => .done () (cpu.replace d.mode (· - 1))
  | .inx => .done () (cpu.withRegisters fun r => r.loadX (r.x + 1))
  | .iny => .done () (cpu.withRegisters fun r => r.loadY (r.y + 1))
  | .dex => .done () (cpu.withRegisters fun r => r.loadX (r.x - 1))
  | .dey => .done () (cpu.withRegisters fun r => r.loadY (r.y - 1))
  | .jmp =>
    let (target, cpu) := cpu.effectiveAddress d.mode
    .done () (cpu.jump target)
  | .jsr => cpu.call
  | .rts => cpu.ret
  | .nop => .done () cpu
  | .lda => .done () (cpu.withOperand d.mode .loadA)
  | .ldx => .done () (cpu.withOperand d.mode .loadX)
  | .ldy => .done () (cpu.withOperand d.mode .loadY)
  | .sta => .done () (cpu.store d.mode cpu.a)
  | .stx => .done () (cpu.store d.mode cpu.x)
  | .sty => .done () (cpu.store d.mode cpu.y)
  | .asl => .done () (cpu.shift d.mode Arithmetic.shiftLeft)
  | .lsr => .done () (cpu.shift d.mode Arithmetic.shiftRight)
  | .rol => .done () (cpu.shift d.mode Arithmetic.rotateLeft)
  | .ror => .done () (cpu.shift d.mode Arithmetic.rotateRight)
  | .pha => cpu.push cpu.a
  | .php => cpu.push cpu.p.toByte
  | .pla => cpu.pull .loadA
  | .plp => cpu.pull fun byte r => { r with p := .ofByte byte }
  | .tax => .done () (cpu.withRegisters fun r => r.loadX r.a)
  | .tay => .done () (cpu.withRegisters fun r => r.loadY r.a)
  | .txa => .done () (cpu.withRegisters fun r => r.loadA r.x)
  | .tya => .done () (cpu.withRegisters fun r => r.loadA r.y)
  | .tsx => .done () (cpu.withRegisters fun r => { r with x := lowByte r.sp })
  | .txs => .done () (cpu.withRegisters fun r => { r with sp := r.x.toUInt16 })
  | .dcb | .invalid => .faulted (.invalidOpcode d.opcode (cpu.pc - 1)) cpu

end Micro6502.Processor
