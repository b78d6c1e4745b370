import Micro6502.Machine.Execution
import Micro6502.Proofs.Instruction.Catalog
import Micro6502.Proofs.Machine.Fetch

/-! Instructions by family. Fifty-odd operations do a dozen kinds of things, each with its
own test, register or change of the registers; a fact about what instructions do is proved
of the kinds. -/

namespace Micro6502

/-- What an operation does with its operand, with the registers, or with the stack. -/
inductive Action where
  | operand (change : Byte → Registers → Registers)
  | store (source : Registers → Byte)
  | replace (change : Byte → Byte)
  | shift (operation : Arithmetic.Shift)
  | registers (change : Registers → Registers)
  | branch (test : Status → Bool)
  | jump
  | call
  | ret
  | push (source : Registers → Byte)
  | pull (change : Byte → Registers → Registers)
  /-- There is no such instruction. -/
  | refuse

def Operation.action : Operation → Action
  | adc => .operand .addWithCarry
  | sbc => .operand .subtractWithCarry
  | and => .operand fun byte r => r.loadA (r.a &&& byte)
  | ora => .operand fun byte r => r.loadA (r.a ||| byte)
  | eor => .operand fun byte r => r.loadA (r.a ^^^ byte)
  | cmp => .operand fun byte r => r.compare r.a byte
  | cpx => .operand fun byte r => r.compare r.x byte
  | cpy => .operand fun byte r => r.compare r.y byte
  | bit => .operand .testBits
  | lda => .operand .loadA
  | ldx => .operand .loadX
  | ldy => .operand .loadY
  | sta => .store fun r => r.a
  | stx => .store fun r => r.x
  | sty => .store fun r => r.y
  | inc => .replace (· + 1)
  | dec => .replace (· - 1)
  | asl => .shift Arithmetic.shiftLeft
  | lsr => .shift Arithmetic.shiftRight
  | rol => .shift Arithmetic.rotateLeft
  | ror => .shift Arithmetic.rotateRight
  | inx => .registers fun r => r.loadX (r.x + 1)
  | iny => .registers fun r => r.loadY (r.y + 1)
  | dex => .registers fun r => r.loadX (r.x - 1)
  | dey => .registers fun r => r.loadY (r.y - 1)
  | tax => .registers fun r => r.loadX r.a
  | tay => .registers fun r => r.loadY r.a
  | txa => .registers fun r => r.loadA r.x
  | tya => .registers fun r => r.loadA r.y
  | tsx => .registers fun r => { r with x := lowByte r.sp }
  | txs => .registers fun r => { r with sp := r.x.toUInt16 }
  | clc => .registers fun r => { r with p := { r.p with carry := false } }
  | sec => .registers fun r => { r with p := { r.p with carry := true } }
  | cld => .registers fun r => { r with p := { r.p with decimal := false } }
  | sed => .registers fun r => { r with p := { r.p with decimal := true } }
  | clv => .registers fun r => { r with p := { r.p with overflow := false } }
  | nop => .registers fun r => r
  | bcc => .branch fun p => !p.carry
  | bcs => .branch fun p => p.carry
  | bne => .branch fun p => !p.zero
  | beq => .branch fun p => p.zero
  | bpl => .branch fun p => !p.negative
  | bmi => .branch fun p => p.negative
  | bvc => .branch fun p => !p.overflow
  | bvs => .branch fun p => p.overflow
  | jmp => .jump
  | jsr => .call
  | rts => .ret
  | pha => .push fun r => r.a
  | php => .push fun r => r.p.toByte
  | pla => .pull .loadA
  | plp => .pull fun byte r => { r with p := .ofByte byte }
  | dcb | invalid => .refuse

namespace Action

variable {ρ δ : Type} [ByteSource ρ] [Screen δ]

def perform (cpu : Processor ρ δ) (d : Descriptor) : Action → Outcome (Processor ρ δ) Unit
  | operand change => .done () (cpu.withOperand d.mode change)
  | store source => .done () (cpu.store d.mode (source cpu.toRegisters))
  | replace change => .done () (cpu.replace d.mode change)
  | shift operation => .done () (cpu.shift d.mode operation)
  | registers change => .done () (cpu.withRegisters change)
  | branch test => .done () (cpu.branchIf test)
  | jump =>
    let (target, cpu) := cpu.effectiveAddress d.mode
    .done () (cpu.jump target)
  | call => cpu.call
  | ret => cpu.ret
  | push source => cpu.push (source cpu.toRegisters)
  | pull change => cpu.pull change
  | refuse => .faulted (.invalidOpcode d.opcode (cpu.pc - 1)) cpu

/-- Instructions do what their families do. -/
theorem execute_eq_perform (cpu : Processor ρ δ) (d : Descriptor) :
    cpu.execute d = d.operation.action.perform cpu d := by
  obtain ⟨operation, mode, opcode, size⟩ := d
  cases operation <;> rfl

/-- The modes in which an instruction of the family can be given. -/
def admits : Action → AddressingMode → Bool
  | operand _, mode | store _, mode | replace _, mode | shift _, mode => mode ≠ .relative
  | registers _, mode | ret, mode | push _, mode | pull _, mode => mode = .implied
  | branch _, mode => mode = .relative
  | jump, mode => mode = .absolute || mode = .indirect
  | call, mode => mode = .absolute
  | refuse, _ => false

/-- The instruction set has each operation in modes that its family admits. -/
theorem admits_of_mem {d : Descriptor} (h : d ∈ Catalog.all) :
    d.operation.action.admits d.mode = true := by
  have hAll : ∀ e ∈ Catalog.all, e.operation.action.admits e.mode = true := by decide +kernel
  exact hAll d h

/-- The families that set the program counter themselves. -/
def transfers : Action → Bool
  | branch _ | jump | call | ret => true
  | _ => false

/-- What a family does to the registers leaves the program counter to the fetches. -/
def KeepsCounter : Action → Prop
  | operand change | pull change => ∀ byte r, (change byte r).pc = r.pc
  | registers change => ∀ r, (change r).pc = r.pc
  | _ => True

/-- No operation moves the program counter by its change of the registers. -/
theorem keepsCounter (operation : Operation) : operation.action.KeepsCounter := by
  cases operation <;> first | trivial | exact fun _ => rfl | exact fun _ _ => rfl

end Action
end Micro6502
