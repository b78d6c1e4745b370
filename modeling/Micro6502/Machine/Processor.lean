import Micro6502.Instruction.Mode
import Micro6502.Machine.Fault
import Micro6502.Machine.Memory
import Micro6502.Machine.Registers

/-! The processor: registers and the memory that they work on. Fetching consumes
the bytes of an instruction, addressing finds its operand, and the stack grows
downwards through its page until it is full. -/

namespace Micro6502

/-- Registers and memory. -/
structure Processor (ρ δ : Type) extends Registers where
  memory : Memory ρ δ

def stackBase : Address := 0x0100

namespace Processor

variable {ρ δ : Type} [ByteSource ρ] [Screen δ]

def read (cpu : Processor ρ δ) (address : Address) : Byte × Processor ρ δ :=
  (cpu.memory.value address, { cpu with memory := cpu.memory.afterRead address })

def write (cpu : Processor ρ δ) (address : Address) (byte : Byte) : Processor ρ δ :=
  { cpu with memory := cpu.memory.write address byte }

instance : Bus (Processor ρ δ) where
  read := read
  write := write

def withRegisters (cpu : Processor ρ δ) (change : Registers → Registers) : Processor ρ δ :=
  { cpu with toRegisters := change cpu.toRegisters }

def jump (cpu : Processor ρ δ) (target : Address) : Processor ρ δ := { cpu with pc := target }

/-- Read the byte at the program counter and move on by one. -/
def fetchByte (cpu : Processor ρ δ) : Byte × Processor ρ δ :=
  let (byte, cpu) := cpu.read cpu.pc
  (byte, cpu.jump (cpu.pc + 1))

/-- Read the little-endian word at the program counter and move on by two. -/
def fetchWord (cpu : Processor ρ δ) : Address × Processor ρ δ :=
  let (low, cpu) := cpu.fetchByte
  let (high, cpu) := cpu.fetchByte
  (word low high, cpu)

/-- Consume the operand bytes of a mode and find the effective address. For an
immediate operand that is the place of the operand byte itself. Implied and
relative instructions have no operand in memory; nothing is consumed for them.
Indexing a zero-page address stays in the zero page. A pointer is read as any
other word, so its high byte may lie in the page after. -/
def effectiveAddress (cpu : Processor ρ δ) : AddressingMode → Address × Processor ρ δ
  | .implied | .relative => (cpu.pc, cpu)
  | .immediate => (cpu.pc, cpu.jump (cpu.pc + 1))
  | .zeroPage =>
    let (place, cpu) := cpu.fetchByte
    (place.toUInt16, cpu)
  | .zeroPageX =>
    let (place, cpu) := cpu.fetchByte
    ((place + cpu.x).toUInt16, cpu)
  | .zeroPageY =>
    let (place, cpu) := cpu.fetchByte
    ((place + cpu.y).toUInt16, cpu)
  | .absolute => cpu.fetchWord
  | .absoluteX =>
    let (base, cpu) := cpu.fetchWord
    (base + cpu.x.toUInt16, cpu)
  | .absoluteY =>
    let (base, cpu) := cpu.fetchWord
    (base + cpu.y.toUInt16, cpu)
  | .indirect =>
    let (pointer, cpu) := cpu.fetchWord
    Bus.readWord cpu pointer
  | .indirectX =>
    let (place, cpu) := cpu.fetchByte
    Bus.readWord cpu (place + cpu.x).toUInt16
  | .indirectY =>
    let (place, cpu) := cpu.fetchByte
    let (base, cpu) := Bus.readWord cpu place.toUInt16
    (base + cpu.y.toUInt16, cpu)

/-- Consume the operand bytes of a mode and read the value that they select. -/
def operandValue (cpu : Processor ρ δ) (mode : AddressingMode) : Byte × Processor ρ δ :=
  let (address, cpu) := cpu.effectiveAddress mode
  cpu.read address

/-- Push a byte onto the stack, unless the stack is full. -/
def push (cpu : Processor ρ δ) (byte : Byte) : Outcome (Processor ρ δ) Unit :=
  if cpu.sp = 0 then .faulted .stackOverflow cpu
  else
    let sp := cpu.sp - 1
    .done () ({ cpu with sp }.write (stackBase + sp) byte)

/-- Pop a byte from the stack, unless the stack is empty. -/
def pop (cpu : Processor ρ δ) : Outcome (Processor ρ δ) Byte :=
  if stackEmpty ≤ cpu.sp then .faulted .stackUnderflow cpu
  else
    let (byte, cpu) := cpu.read (stackBase + cpu.sp)
    .done byte { cpu with sp := cpu.sp + 1 }

end Processor
end Micro6502
