import Micro6502.Proofs.Bus
import Micro6502.Proofs.Machine.Action
import Micro6502.Proofs.Machine.Step

/-! Two processors with equal registers, over memories that no access tells apart. Whatever
the instruction is, both carry it out in the same way: everything that an instruction learns
about memory it learns by an access. -/

namespace Micro6502

-- Both sides decode the same opcode; nothing here looks into the table.
attribute [local irreducible] Catalog.decode

namespace Outcome

/-- The same end of an attempt, with related states behind it. -/
inductive Agree {σ α : Type} (R : σ → σ → Prop) : Outcome σ α → Outcome σ α → Prop
  | done {value : α} {state other : σ} (h : R state other) :
      Agree R (.done value state) (.done value other)
  | faulted {fault : Fault} {state other : σ} (h : R state other) :
      Agree R (.faulted fault state) (.faulted fault other)

/-- Two attempts in a row end in the same way if each of them does. -/
theorem Agree.andThen {σ α β : Type} {R : σ → σ → Prop} {first second : Outcome σ α}
    {next following : α → σ → Outcome σ β} (h : Agree R first second)
    (hNext : ∀ value state other, R state other →
      Agree R (next value state) (following value other)) :
    Agree R (first.andThen next) (second.andThen following) := by
  cases h with
  | done h => exact hNext _ _ _ h
  | faulted h => exact .faulted h

end Outcome

namespace Processor

variable {ρ δ : Type} [ByteSource ρ] [Screen δ]

/-- Equal registers over related memories. -/
structure Alike (R : Memory ρ δ → Memory ρ δ → Prop) (cpu other : Processor ρ δ) : Prop where
  registers : cpu.toRegisters = other.toRegisters
  memory : R cpu.memory other.memory

namespace Alike

variable {R : Memory ρ δ → Memory ρ δ → Prop} {cpu other : Processor ρ δ}

section

variable (h : Alike R cpu other)

include h

omit [ByteSource ρ] [Screen δ] in
theorem withRegisters (change : Registers → Registers) :
    Alike R (cpu.withRegisters change) (other.withRegisters change) :=
  ⟨congrArg change h.registers, h.memory⟩

omit [ByteSource ρ] [Screen δ] in
theorem pc : cpu.pc = other.pc := congrArg Registers.pc h.registers

omit [ByteSource ρ] [Screen δ] in
theorem p : cpu.p = other.p := congrArg Registers.p h.registers

omit [ByteSource ρ] [Screen δ] in
theorem jump (target : Address) : Alike R (cpu.jump target) (other.jump target) :=
  h.withRegisters fun r => { r with pc := target }

end

/-- An access of a processor is an access of its memory. -/
theorem simulation (hR : Bus.Simulation R) : Bus.Simulation (Alike R) where
  read := fun h address =>
    have hRead := hR.read h.memory address
    ⟨hRead.answer, h.registers, hRead.state⟩
  write := fun h address byte => ⟨h.registers, hR.write h.memory address byte⟩

section

variable (hR : Bus.Simulation R) (h : Alike R cpu other)

include hR h

theorem read (address : Address) : Agree (Alike R) (cpu.read address) (other.read address) :=
  (simulation hR).read h address

theorem write (address : Address) (byte : Byte) :
    Alike R (cpu.write address byte) (other.write address byte) :=
  (simulation hR).write h address byte

/-- The program counters are equal, so both fetch at the same address and find the same byte. -/
theorem fetchByte : Agree (Alike R) cpu.fetchByte other.fetchByte := by
  have hRead := read hR h cpu.pc
  unfold Processor.fetchByte
  rw [← h.pc]
  refine ⟨hRead.answer, ?_⟩
  simp only [hRead.state.pc]
  exact hRead.state.jump _

theorem fetchWord : Agree (Alike R) cpu.fetchWord other.fetchWord := by
  have hLow := fetchByte hR h
  have hHigh := fetchByte hR hLow.state
  exact ⟨congrArg₂ word hLow.answer hHigh.answer, hHigh.state⟩

/-- Both processors find the same address, mode by mode. The pointers on the way are read with the
same accesses. -/
theorem effectiveAddress (mode : AddressingMode) :
    Agree (Alike R) (cpu.effectiveAddress mode) (other.effectiveAddress mode) := by
  have hByte := fetchByte hR h
  have hWord := fetchWord hR h
  have hPlace : cpu.fetchByte.1.toUInt16 = other.fetchByte.1.toUInt16 :=
    congrArg UInt8.toUInt16 hByte.answer
  have hX := congrArg Registers.x hByte.state.registers
  have hY := congrArg Registers.y hByte.state.registers
  cases mode with
  | implied | relative => exact ⟨h.pc, h⟩
  | immediate =>
      refine ⟨h.pc, ?_⟩
      simp only [Processor.effectiveAddress, h.pc]
      exact h.jump _
  | zeroPage => exact ⟨hPlace, hByte.state⟩
  | zeroPageX =>
      exact ⟨congrArg₂ (fun place x => (place + x).toUInt16) hByte.answer hX, hByte.state⟩
  | zeroPageY =>
      exact ⟨congrArg₂ (fun place y => (place + y).toUInt16) hByte.answer hY, hByte.state⟩
  | absolute => exact hWord
  | absoluteX =>
      have hIndex := congrArg (fun r => r.x.toUInt16) hWord.state.registers
      exact ⟨congrArg₂ (· + ·) hWord.answer hIndex, hWord.state⟩
  | absoluteY =>
      have hIndex := congrArg (fun r => r.y.toUInt16) hWord.state.registers
      exact ⟨congrArg₂ (· + ·) hWord.answer hIndex, hWord.state⟩
  | indirect =>
      simp only [Processor.effectiveAddress, hWord.answer]
      exact (simulation hR).readWord hWord.state _
  | indirectX =>
      simp only [Processor.effectiveAddress, hByte.answer, hX]
      exact (simulation hR).readWord hByte.state _
  | indirectY =>
      simp only [Processor.effectiveAddress, hByte.answer]
      have hBase := (simulation hR).readWord hByte.state other.fetchByte.1.toUInt16
      have hIndex := congrArg (fun r => r.y.toUInt16) hBase.state.registers
      exact ⟨congrArg₂ (· + ·) hBase.answer hIndex, hBase.state⟩

theorem operandValue (mode : AddressingMode) :
    Agree (Alike R) (cpu.operandValue mode) (other.operandValue mode) := by
  have hPlace := effectiveAddress hR h mode
  simp only [Processor.operandValue, hPlace.answer]
  exact read hR hPlace.state _

theorem withOperand (mode : AddressingMode) (change : Byte → Registers → Registers) :
    Alike R (cpu.withOperand mode change) (other.withOperand mode change) := by
  have hByte := operandValue hR h mode
  simp only [Processor.withOperand, hByte.answer]
  exact hByte.state.withRegisters _

theorem store (mode : AddressingMode) (byte : Byte) :
    Alike R (cpu.store mode byte) (other.store mode byte) := by
  have hPlace := effectiveAddress hR h mode
  simp only [Processor.store, hPlace.answer]
  exact write hR hPlace.state _ _

theorem replace (mode : AddressingMode) (change : Byte → Byte) :
    Alike R (cpu.replace mode change) (other.replace mode change) := by
  have hPlace := effectiveAddress hR h mode
  have hByte := read hR hPlace.state (other.effectiveAddress mode).1
  simp only [Processor.replace, hPlace.answer, hByte.answer]
  exact (write hR hByte.state _ _).withRegisters _

/-- A shift works on equal accumulators, or on what both find at the same address. -/
theorem shift (mode : AddressingMode) (operation : Arithmetic.Shift) :
    Alike R (cpu.shift mode operation) (other.shift mode operation) := by
  have hA : cpu.a = other.a := congrArg Registers.a h.registers
  unfold Processor.shift
  split
  · simp only [hA, h.p]
    exact h.withRegisters _
  · have hPlace := effectiveAddress hR h mode
    have hByte := read hR hPlace.state (other.effectiveAddress mode).1
    simp only [hPlace.answer, hByte.answer, hByte.state.p]
    exact (write hR hByte.state _ _).withRegisters _

/-- Both go the same way, since the status registers are equal. -/
theorem branchIf (test : Status → Bool) :
    Alike R (cpu.branchIf test) (other.branchIf test) := by
  have hOffset := fetchByte hR h
  simp only [Processor.branchIf, hOffset.answer, hOffset.state.p, hOffset.state.pc]
  split
  · exact hOffset.state.jump _
  · exact hOffset.state

omit [ByteSource ρ] hR in
/-- The stack pointers are equal, so both have a place or neither has. -/
theorem push [ByteSource ρ] (hR : Bus.Simulation R) (byte : Byte) :
    Outcome.Agree (Alike R) (cpu.push byte) (other.push byte) := by
  have hSp : cpu.sp = other.sp := congrArg Registers.sp h.registers
  unfold Processor.push
  rw [hSp]
  split
  · exact .faulted h
  · exact .done (write hR (h.withRegisters fun r => { r with sp := other.sp - 1 }) _ _)

theorem pop : Outcome.Agree (Alike R) cpu.pop other.pop := by
  have hSp : cpu.sp = other.sp := congrArg Registers.sp h.registers
  have hByte := read hR h (stackBase + other.sp)
  have hNext : (cpu.read (stackBase + other.sp)).2.sp = (other.read (stackBase + other.sp)).2.sp :=
    congrArg Registers.sp hByte.state.registers
  unfold Processor.pop
  simp only [hSp]
  split
  · exact .faulted h
  · rw [hByte.answer, hNext]
    exact .done (hByte.state.withRegisters fun r => { r with sp := _ })

/-- Both call the same address and leave the same way back. -/
theorem call : Outcome.Agree (Alike R) cpu.call other.call := by
  have hTarget := fetchWord hR h
  simp only [Processor.call, hTarget.answer, hTarget.state.pc]
  refine (push hTarget.state hR _).andThen fun _ _ _ hHigh => ?_
  refine (push hHigh hR _).andThen fun _ _ _ hLow => ?_
  exact .done (hLow.jump _)

theorem ret : Outcome.Agree (Alike R) cpu.ret other.ret :=
  (pop hR h).andThen fun _ _ _ hLow =>
    (pop hR hLow).andThen fun _ _ _ hHigh => .done (hHigh.jump _)

theorem pull (change : Byte → Registers → Registers) :
    Outcome.Agree (Alike R) (cpu.pull change) (other.pull change) :=
  (pop hR h).andThen fun _ _ _ hByte => .done (hByte.withRegisters _)

/-- Whatever the family, both carry it out in the same way. -/
theorem perform (d : Descriptor) (action : Action) :
    Outcome.Agree (Alike R) (action.perform cpu d) (action.perform other d) := by
  cases action with
  | operand change => exact .done (withOperand hR h _ _)
  | store source =>
      simp only [Action.perform, h.registers]
      exact .done (store hR h _ _)
  | replace change => exact .done (replace hR h _ _)
  | shift operation => exact .done (shift hR h _ _)
  | registers change => exact .done (h.withRegisters _)
  | branch test => exact .done (branchIf hR h _)
  | jump =>
      have hTarget := effectiveAddress hR h d.mode
      simp only [Action.perform, hTarget.answer]
      exact .done (hTarget.state.jump _)
  | call => exact call hR h
  | ret => exact ret hR h
  | push source =>
      simp only [Action.perform, h.registers]
      exact push h hR _
  | pull change => exact pull hR h _
  | refuse =>
      simp only [Action.perform, h.pc]
      exact .faulted h

/-- One whole instruction, from its fetch on. -/
theorem cycle : Outcome.Agree (Alike R) cpu.cycle other.cycle := by
  have hOpcode := fetchByte hR h
  simp only [Processor.cycle, hOpcode.answer, Action.execute_eq_perform]
  exact perform hR hOpcode.state _ _

end

end Alike
end Processor
end Micro6502
