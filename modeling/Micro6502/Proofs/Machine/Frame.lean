import Micro6502.Proofs.Machine.Footprint

/-! What an instruction leaves alone. Each part of the registers is changed by a few operations
only; and where the status register describes a byte afterwards, it is the byte that the
instruction came out with. -/

namespace Micro6502

-- Nothing here depends on what the decoding table holds.
attribute [local irreducible] Catalog.decode

/-- A part of the registers other than the program counter: a register, or a bit of the status
register. -/
inductive Part where
  | a | x | y | sp
  | carry | zero | bit2 | decimal | bit4 | bit5 | overflow | negative

namespace Part

/-- Registers that agree in a part. -/
def Same (part : Part) (r other : Registers) : Prop :=
  match part with
  | a => r.a = other.a
  | x => r.x = other.x
  | y => r.y = other.y
  | sp => r.sp = other.sp
  | carry => r.p.carry = other.p.carry
  | zero => r.p.zero = other.p.zero
  | bit2 => r.p.bit2 = other.p.bit2
  | decimal => r.p.decimal = other.p.decimal
  | bit4 => r.p.bit4 = other.p.bit4
  | bit5 => r.p.bit5 = other.p.bit5
  | overflow => r.p.overflow = other.p.overflow
  | negative => r.p.negative = other.p.negative

end Part

namespace Operation

def shifts : List Operation := [asl, lsr, rol, ror]

/-- The operations after which the status register describes the same byte as before. -/
def silent : List Operation := [sta, stx, sty, bcc, bcs, bne, beq, bpl, bmi, bvc, bvs, jmp, jsr,
  rts, nop, pha, php, txs, tsx, clc, sec, cld, sed, clv]

end Operation

/-- Whether a part may change under an instruction. -/
def Part.writtenBy (d : Descriptor) : Part → Bool
  | a => d.operation ∈ [.adc, .sbc, .and, .ora, .eor, .lda, .pla, .txa, .tya] ||
      d.operation ∈ Operation.shifts && d.mode = .implied
  | x => d.operation ∈ [.ldx, .inx, .dex, .tax, .tsx]
  | y => d.operation ∈ [.ldy, .iny, .dey, .tay]
  | sp => d.operation ∈ [.pha, .php, .pla, .plp, .jsr, .rts, .txs]
  | carry => d.operation ∈ [.adc, .sbc, .cmp, .cpx, .cpy, .clc, .sec, .plp] ||
      d.operation ∈ Operation.shifts
  | overflow => d.operation ∈ [.adc, .sbc, .bit, .clv, .plp]
  | decimal => d.operation ∈ [.cld, .sed, .plp]
  | bit2 | bit4 | bit5 => d.operation = .plp
  | zero | negative => d.operation ∉ Operation.silent

/-- A part that an operation may not change is as it was, also if there is a fault. -/
theorem same_effect {ρ δ : Type} [ByteSource ρ] [Screen δ] (cpu : Processor ρ δ) (d : Descriptor)
    {part : Part} (h : part.writtenBy d = false) :
    part.Same (d.operation.action.effect cpu d).registers cpu.toRegisters := by
  -- Operation by operation, a part is what it was, or it is one that may change, against `h`.
  obtain ⟨operation, mode, opcode, size⟩ := d
  cases operation with
  | asl | lsr | rol | ror =>
      simp only [Operation.action, Action.effect]
      split
      next hMode =>
        subst hMode
        cases part <;> first | rfl | cases h
      next => cases part <;> first | rfl | cases h
  | pha | php =>
      simp only [Operation.action, Action.effect, Effect.ofPushes_singleton]
      split <;> cases part <;> first | rfl | cases h
  | pla | plp =>
      simp only [Operation.action, Action.effect]
      split <;> cases part <;> first | rfl | cases h
  | jsr =>
      simp only [Operation.action, Action.effect, Effect.ofPushes_pair]
      split_ifs <;> cases part <;> first | rfl | cases h
  | rts =>
      simp only [Operation.action, Action.effect, Effect.ofPops_two]
      split_ifs <;> cases part <;> first | rfl | cases h
  | _ => cases part <;> first | rfl | cases h

namespace Status

/-- Negative is the top bit of a byte, and zero says that the byte is zero. -/
def Describes (p : Status) (byte : Byte) : Prop :=
  p.negative = byte.toNat.testBit 7 ∧ p.zero = decide (byte = 0)

/-- The status register describes the byte that it is given. -/
theorem describes_describe (p : Status) (byte : Byte) : (p.describe byte).Describes byte := by
  have hTop : ∀ i : Fin 256, decide (0x80 ≤ UInt8.ofNat i.val) =
      (UInt8.ofNat i.val).toNat.testBit 7 := by decide +kernel
  have hByte := hTop ⟨byte.toNat, byte.toNat_lt⟩
  rw [UInt8.ofNat_toNat] at hByte
  exact ⟨hByte, rfl⟩

end Status

/-- The byte that an instruction comes out with: what it leaves in its register, or at its
effective address, or the difference between what it compares. -/
def Descriptor.result? (d : Descriptor) (before after : Registers) (operand stored : Byte) :
    Option Byte :=
  match d.operation with
  | .adc | .sbc | .and | .ora | .eor | .lda | .pla | .txa | .tya => some after.a
  | .ldx | .inx | .dex | .tax => some after.x
  | .ldy | .iny | .dey | .tay => some after.y
  | .asl | .lsr | .rol | .ror => some (if d.mode = .implied then after.a else stored)
  | .inc | .dec => some stored
  | .cmp => some (before.a - operand)
  | .cpx => some (before.x - operand)
  | .cpy => some (before.y - operand)
  | _ => none

/-- An instruction that sets the two flags does so for the byte that it comes out with, wherever
that is left. The two that take them from elsewhere are left out. -/
theorem describes_effect {ρ δ : Type} [ByteSource ρ] [Screen δ] (cpu : Processor ρ δ)
    (d : Descriptor) {stored : Byte} (hFault : (d.operation.action.effect cpu d).fault? = none)
    (hStored : ∀ byte, ((cpu.effectiveAddress d.mode).1, byte) ∈
      (d.operation.action.effect cpu d).writes → stored = byte)
    (hSpeaks : d.operation ∉ Operation.silent) (hBit : d.operation ≠ .bit)
    (hPlp : d.operation ≠ .plp) :
    ∃ byte, d.result? cpu.toRegisters (d.operation.action.effect cpu d).registers
        (cpu.operandValue d.mode).1 stored = some byte ∧
      (d.operation.action.effect cpu d).registers.p.Describes byte := by
  obtain ⟨operation, mode, opcode, size⟩ := d
  cases operation with
  | bit => exact absurd rfl hBit
  | plp => exact absurd rfl hPlp
  | dcb | invalid => cases hFault
  | inc | dec =>
      rw [hStored _ (List.mem_singleton.mpr rfl)]
      exact ⟨_, rfl, Status.describes_describe _ _⟩
  | asl | lsr | rol | ror =>
      simp only [Operation.action, Action.effect, Descriptor.result?] at hStored ⊢
      split at hStored
      next hMode =>
        rw [if_pos hMode, if_pos hMode]
        exact ⟨_, rfl, Status.describes_describe _ _⟩
      next hMode =>
        rw [if_neg hMode, if_neg hMode, hStored _ (List.mem_singleton.mpr rfl)]
        exact ⟨_, rfl, Status.describes_describe _ _⟩
  | pla =>
      simp only [Operation.action, Action.effect] at hFault ⊢
      split at hFault
      · cases hFault
      next hItem =>
        rw [if_neg hItem]
        exact ⟨_, rfl, Status.describes_describe _ _⟩
  | adc | sbc | and | ora | eor | lda | txa | tya | ldx | inx | dex | tax | ldy | iny | dey | tay
  | cmp | cpx | cpy => exact ⟨_, rfl, Status.describes_describe _ _⟩
  | _ => simp [Operation.silent] at hSpeaks

namespace Machine

variable {ρ δ κ : Type} [ByteSource ρ] [Screen δ] [Journal κ] {m next : Machine ρ δ κ}

/-- Of the registers, a step changes no part but those that its instruction may change. If that
goes for the negative and zero flags, they describe the byte that the instruction comes out with;
a test of bits and a pull from the stack take them from elsewhere. -/
theorem stepInstruction_frame (h : m.stepInstruction = .done () next) :
    (∀ part : Part, part.writtenBy m.cpu.instruction = false →
      part.Same next.cpu.toRegisters m.cpu.toRegisters) ∧
    (Part.negative.writtenBy m.cpu.instruction = true →
      m.cpu.instruction.operation ≠ .bit → m.cpu.instruction.operation ≠ .plp →
      ∃ byte, m.cpu.instruction.result? m.cpu.toRegisters next.cpu.toRegisters m.cpu.operand
          (next.cpu.memory.stored m.cpu.operandAddress) = some byte ∧
        next.cpu.p.Describes byte) := by
  obtain ⟨hFault, hRegisters, source, hMemory⟩ := effect_of_done h
  constructor
  · intro part hPart
    have hSame : part.Same m.cpu.effect.registers m.cpu.fetchByte.2.toRegisters :=
      same_effect _ _ hPart
    rw [hRegisters]
    cases part <;> exact hSame
  · intro hWritten hBit hPlp
    have hSpeaks : m.cpu.instruction.operation ∉ Operation.silent := of_decide_eq_true hWritten
    have hStored : ∀ byte, (m.cpu.operandAddress, byte) ∈ m.cpu.effect.writes →
        next.cpu.memory.stored m.cpu.operandAddress = byte := by
      intro byte hWrite
      rw [hMemory]
      exact Memory.stored_writeAll_of_mem (Processor.nodup_writes_effect hFault) hWrite
    obtain ⟨byte, hResult, hDescribes⟩ := describes_effect m.cpu.fetchByte.2 m.cpu.instruction
      hFault hStored hSpeaks hBit hPlp
    refine ⟨byte, ?_, ?_⟩
    · rw [hRegisters]
      exact hResult
    · rw [hRegisters]
      exact hDescribes

/-- A rotation of the byte in front of the program, with the carry set. Only the status register
changes, and it describes the byte there. -/
theorem stepInstruction_frame_rotate :
    ∃ m next : Machine Congruential (Array (Address × Byte)) Unit,
      m.stepInstruction = .done () next ∧ m.cpu.instruction.operation = .rol ∧
      next.cpu.memory.stored m.cpu.operandAddress = 0x81 ∧
      (∀ part : Part, part.writtenBy m.cpu.instruction = false →
        part.Same next.cpu.toRegisters m.cpu.toRegisters) ∧
      ∃ byte, m.cpu.instruction.result? m.cpu.toRegisters next.cpu.toRegisters m.cpu.operand
          (next.cpu.memory.stored m.cpu.operandAddress) = some byte ∧
        next.cpu.p.Describes byte := by
  obtain ⟨m, hDone, hRol, hStored, hWritten⟩ :
      ∃ m : Machine Congruential (Array (Address × Byte)) Unit,
        m.stepInstruction.fault? = none ∧ m.cpu.instruction.operation = .rol ∧
        m.stepInstruction.state.cpu.memory.stored m.cpu.operandAddress = 0x81 ∧
        Part.negative.writtenBy m.cpu.instruction = true := by
    let idle : Machine Congruential (Array (Address × Byte)) Unit :=
      around { p := { carry := true }, memory := .zero (.seeded 1) #[] } ()
    refine ⟨Bus.writeBytes idle 0x01FF [0x40, 0x2E, 0xFF, 0x01], ?_⟩
    decide +kernel
  have hStep := Outcome.eq_done_of_fault? hDone
  obtain ⟨hSame, hDescribes⟩ := stepInstruction_frame hStep
  refine ⟨m, _, hStep, hRol, hStored, hSame, hDescribes hWritten ?_ ?_⟩
  · rw [hRol]
    decide
  · rw [hRol]
    decide

end Machine
end Micro6502
