import Micro6502.Proofs.Machine.Flow

/-! What an instruction comes to. Apart from where execution goes on, it can be told from the
processor in front of it: the fault, if there is one, the registers that are left, and the
bytes that are stored. The reads on the way show in the random source and nowhere else. -/

namespace Micro6502

-- Nothing here depends on what the decoding table holds.
attribute [local irreducible] Catalog.decode

namespace Memory

variable {ρ δ : Type}

/-- The same bytes and the same screen, with another random source. -/
def withSource (memory : Memory ρ δ) (source : ρ) : Memory ρ δ := { memory with source }

/-- Store bytes one after another. -/
def writeAll [Screen δ] (memory : Memory ρ δ) : List (Address × Byte) → Memory ρ δ
  | [] => memory
  | (address, byte) :: rest => (memory.write address byte).writeAll rest

@[simp] theorem stored_withSource (memory : Memory ρ δ) (source : ρ) (address : Address) :
    (memory.withSource source).stored address = memory.stored address := rfl

@[simp] theorem screen_withSource (memory : Memory ρ δ) (source : ρ) :
    (memory.withSource source).screen = memory.screen := rfl

end Memory

/-- What comes of an instruction: the fault that stops it, if one does, the registers that it
leaves, and the bytes that it stores, in order. The program counter is of no account. -/
structure Effect where
  fault? : Option Fault := none
  registers : Registers
  writes : List (Address × Byte) := []

namespace Effect

/-- Push bytes, as long as there is room for them. -/
def ofPushes (r : Registers) : List Byte → Effect
  | [] => { registers := r }
  | byte :: rest =>
    if r.sp = 0 then { fault? := some .stackOverflow, registers := r }
    else
      let effect := ofPushes { r with sp := r.sp - 1 } rest
      { effect with writes := (stackBase + (r.sp - 1), byte) :: effect.writes }

theorem ofPushes_singleton (r : Registers) (byte : Byte) :
    ofPushes r [byte] =
      if r.sp = 0 then { fault? := some .stackOverflow, registers := r }
      else
        { registers := { r with sp := r.sp - 1 }, writes := [(stackBase + (r.sp - 1), byte)] } :=
  rfl

/-- Of two bytes, the first stays where it is if there is no room for the second. -/
theorem ofPushes_pair (r : Registers) (first second : Byte) :
    ofPushes r [first, second] =
      if r.sp = 0 then { fault? := some .stackOverflow, registers := r }
      else if r.sp = 1 then
        { fault? := some .stackOverflow
          registers := { r with sp := 0 }
          writes := [(stackBase, first)] }
      else
        { registers := { r with sp := r.sp - 2 }
          writes := [(stackBase + (r.sp - 1), first), (stackBase + (r.sp - 2), second)] } := by
  have hOne : r.sp - 1 = 0 ↔ r.sp = 1 := UInt16.sub_eq_iff_eq_add
  have hTwo : r.sp - 1 - 1 = r.sp - 2 := by grind
  rw [ofPushes]
  simp only [ofPushes_singleton, hOne, hTwo]
  split
  · rfl
  · split
    next hRoom =>
      rw [hRoom]
      rfl
    next => rfl

/-- Pop `count` bytes, as long as there are any. -/
def ofPops (r : Registers) : Nat → Effect
  | 0 => { registers := r }
  | count + 1 =>
    if stackEmpty ≤ r.sp then { fault? := some .stackUnderflow, registers := r }
    else ofPops { r with sp := r.sp + 1 } count

/-- Of two bytes, the first is gone if there is no second. -/
theorem ofPops_two (r : Registers) :
    ofPops r 2 =
      if stackEmpty ≤ r.sp then { fault? := some .stackUnderflow, registers := r }
      else if r.sp = 0xFF then
        { fault? := some .stackUnderflow, registers := { r with sp := stackEmpty } }
      else { registers := { r with sp := r.sp + 2 } } := by
  have hSecond : ¬ stackEmpty ≤ r.sp → (stackEmpty ≤ r.sp + 1 ↔ r.sp = 0xFF) := by
    intro hItem
    simp only [stackEmpty, UInt16.le_iff_toNat_le, UInt16.toNat_add, UInt16.reduceToNat,
      ← UInt16.toNat_inj] at hItem ⊢
    omega
  simp only [ofPops, add_one_add_one]
  split
  · rfl
  next hItem =>
    simp only [hSecond hItem]
    split
    next hLast =>
      rw [hLast]
      rfl
    next => rfl

theorem writes_ofPops (r : Registers) (count : Nat) : (ofPops r count).writes = [] := by
  induction count generalizing r with
  | zero => rfl
  | succ count ih =>
      unfold ofPops
      split
      · rfl
      · exact ih _

end Effect

namespace Action

variable {ρ δ : Type} [ByteSource ρ] [Screen δ]

/-- What a family comes to, behind the opcode. -/
def effect (cpu : Processor ρ δ) (d : Descriptor) : Action → Effect
  | operand change => { registers := change (cpu.operandValue d.mode).1 cpu.toRegisters }
  | store source =>
    { registers := cpu.toRegisters
      writes := [((cpu.effectiveAddress d.mode).1, source cpu.toRegisters)] }
  | replace change =>
    let byte := change (cpu.operandValue d.mode).1
    { registers := { cpu.toRegisters with p := cpu.p.describe byte }
      writes := [((cpu.effectiveAddress d.mode).1, byte)] }
  | shift operation =>
    if d.mode = .implied then
      let result := operation cpu.a cpu.p.carry
      { registers := { cpu.toRegisters with
          a := result.1
          p := { cpu.p with carry := result.2 }.describe result.1 } }
    else
      let result := operation (cpu.operandValue d.mode).1 cpu.p.carry
      { registers := { cpu.toRegisters with
          p := { cpu.p with carry := result.2 }.describe result.1 }
        writes := [((cpu.effectiveAddress d.mode).1, result.1)] }
  | registers change => { registers := change cpu.toRegisters }
  | branch _ | jump => { registers := cpu.toRegisters }
  | call =>
    let (_, behind) := cpu.fetchWord
    .ofPushes behind.toRegisters [highByte (behind.pc - 1), lowByte (behind.pc - 1)]
  | ret => .ofPops cpu.toRegisters 2
  | push source => .ofPushes cpu.toRegisters [source cpu.toRegisters]
  | pull change =>
    if stackEmpty ≤ cpu.sp then
      { fault? := some .stackUnderflow, registers := cpu.toRegisters }
    else
      { registers := change (cpu.memory.stored (stackBase + cpu.sp))
          { cpu.toRegisters with sp := cpu.sp + 1 } }
  | refuse =>
    { fault? := some (.invalidOpcode d.opcode (cpu.pc - 1)), registers := cpu.toRegisters }

/-- What a family does to the registers neither sees nor moves the program counter. -/
def IgnoresCounter : Action → Prop
  | operand change | pull change =>
    ∀ byte r pc, change byte { r with pc := pc } = { change byte r with pc := pc }
  | registers change => ∀ r pc, change { r with pc := pc } = { change r with pc := pc }
  | _ => True

/-- What operations do to the registers goes together with any program counter. -/
theorem ignoresCounter (operation : Operation) : operation.action.IgnoresCounter := by
  cases operation <;> first | trivial | exact fun _ _ => rfl | exact fun _ _ _ => rfl

end Action

namespace Processor

variable {ρ δ : Type} [ByteSource ρ] [Screen δ] {cpu next last : Processor ρ δ}

/-- What reads leave of a processor. -/
structure HasRead (cpu next : Processor ρ δ) : Prop where
  registers : next.toRegisters = { cpu.toRegisters with pc := next.pc }
  memory : ∃ source, next.memory = cpu.memory.withSource source

namespace HasRead

omit [ByteSource ρ] [Screen δ] in
theorem refl (cpu : Processor ρ δ) : HasRead cpu cpu := ⟨rfl, cpu.memory.source, rfl⟩

omit [ByteSource ρ] [Screen δ] in
theorem jump (h : HasRead cpu next) (target : Address) : HasRead cpu (next.jump target) where
  registers := congrArg (fun r : Registers => { r with pc := target }) h.registers
  memory := h.memory

omit [Screen δ] in
/-- A read may draw from the random source. It leaves the registers and the bytes as they are. -/
theorem read (h : HasRead cpu next) (address : Address) : HasRead cpu (next.read address).2 := by
  obtain ⟨source, hMemory⟩ := h.memory
  refine ⟨h.registers, ?_⟩
  simp only [Processor.read, Memory.afterRead, hMemory]
  split
  · exact ⟨_, rfl⟩
  · exact ⟨source, rfl⟩

omit [Screen δ] in
theorem fetchByte (h : HasRead cpu next) : HasRead cpu next.fetchByte.2 := (h.read _).jump _

omit [Screen δ] in
theorem fetchWord (h : HasRead cpu next) : HasRead cpu next.fetchWord.2 := h.fetchByte.fetchByte

theorem readWord (h : HasRead cpu next) (address : Address) :
    HasRead cpu (Bus.readWord next address).2 :=
  (h.read address).read (address + 1)

/-- In whatever mode, an effective address is computed by reads alone. -/
theorem effectiveAddress (h : HasRead cpu next) (mode : AddressingMode) :
    HasRead cpu (next.effectiveAddress mode).2 := by
  cases mode with
  | implied | relative => exact h
  | immediate => exact h.jump _
  | zeroPage | zeroPageX | zeroPageY => exact h.fetchByte
  | absolute | absoluteX | absoluteY => exact h.fetchWord
  | indirect => exact h.fetchWord.readWord _
  | indirectX =>
      simp only [Processor.effectiveAddress]
      exact h.fetchByte.readWord _
  | indirectY => exact h.fetchByte.readWord next.fetchByte.1.toUInt16

/-- An operand is found by reads alone, too. -/
theorem operandValue (h : HasRead cpu next) (mode : AddressingMode) :
    HasRead cpu (next.operandValue mode).2 :=
  (h.effectiveAddress mode).read _

end HasRead
end Processor

theorem Outcome.andThen_done {σ : Type} (outcome : Outcome σ Unit) :
    (outcome.andThen fun _ state => .done () state) = outcome := by
  cases outcome with
  | done _ state => rfl
  | faulted fault state => rfl

namespace Effect

variable {ρ δ : Type} [ByteSource ρ] [Screen δ] {effect : Effect}
  {cpu next last : Processor ρ δ} {outcome : Outcome (Processor ρ δ) Unit}

/-- An attempt of a processor ends as foretold. -/
structure Describes (effect : Effect) (cpu : Processor ρ δ)
    (outcome : Outcome (Processor ρ δ) Unit) : Prop where
  fault : outcome.fault? = effect.fault?
  registers : outcome.state.toRegisters = { effect.registers with pc := outcome.state.pc }
  memory : ∃ source,
    outcome.state.memory = (cpu.memory.withSource source).writeAll effect.writes

omit [ByteSource ρ] in
/-- Reads in front of an attempt do not matter. -/
theorem Describes.of_hasRead (h : cpu.HasRead next) (hNext : effect.Describes next outcome) :
    effect.Describes cpu outcome where
  fault := hNext.fault
  registers := hNext.registers
  memory := by
    obtain ⟨source, hMemory⟩ := hNext.memory
    obtain ⟨_, hRead⟩ := h.memory
    rw [hRead] at hMemory
    exact ⟨source, hMemory⟩

omit [ByteSource ρ] in
/-- The registers change and bytes are stored, once everything has been read. -/
theorem describes_done (h : cpu.HasRead next) (change : Registers → Registers)
    (hIgnores : ∀ r pc, change { r with pc := pc } = { change r with pc := pc })
    {writes : List (Address × Byte)} (hRegisters : last.toRegisters = change next.toRegisters)
    (hMemory : last.memory = next.memory.writeAll writes) :
    Describes { registers := change cpu.toRegisters, writes } cpu (.done () last) := by
  refine .of_hasRead h ⟨rfl, ?_, next.memory.source, hMemory⟩
  have hCounter : last.pc = (change next.toRegisters).pc := congrArg Registers.pc hRegisters
  show last.toRegisters = { change cpu.toRegisters with pc := last.pc }
  rw [hCounter, hRegisters, h.registers, hIgnores]

omit [ByteSource ρ] in
/-- Nothing is done but to go somewhere. -/
theorem describes_idle (h : cpu.HasRead next) :
    Describes { registers := cpu.toRegisters } cpu (.done () next) :=
  describes_done h (fun r => r) (fun _ _ => rfl) rfl rfl

omit [ByteSource ρ] in
/-- Nothing is done. -/
theorem describes_refused (fault : Fault) :
    Describes { fault? := some fault, registers := cpu.toRegisters } cpu (.faulted fault cpu) :=
  ⟨rfl, rfl, cpu.memory.source, rfl⟩

omit [ByteSource ρ] in
/-- A push ends it all if there is no room. Otherwise its byte is stored, and then what the rest
stores. -/
theorem describes_push (byte : Byte) {rest : List Byte}
    {following : Unit → Processor ρ δ → Outcome (Processor ρ δ) Unit}
    (h : ∀ next, (ofPushes next.toRegisters rest).Describes next (following () next)) :
    (ofPushes cpu.toRegisters (byte :: rest)).Describes cpu
      ((cpu.push byte).andThen following) := by
  unfold Processor.push ofPushes
  split
  · exact describes_refused .stackOverflow
  · have hNext := h ({ cpu with sp := cpu.sp - 1 }.write (stackBase + (cpu.sp - 1)) byte)
    exact ⟨hNext.fault, hNext.registers, hNext.memory⟩

omit [Screen δ] in
theorem pop_of_lt (h : cpu.sp < stackEmpty) :
    cpu.pop = .done (cpu.memory.stored (stackBase + cpu.sp)) { cpu with sp := cpu.sp + 1 } := by
  rw [Processor.pop, if_neg (UInt16.not_le.mpr h),
    Processor.read_eq (Processor.stack_ne_random h)]

/-- The same of a pop, if what follows is foretold whichever byte it was. -/
theorem describes_pop {count : Nat}
    {following : Byte → Processor ρ δ → Outcome (Processor ρ δ) Unit}
    (h : ∀ byte next, (ofPops next.toRegisters count).Describes next (following byte next)) :
    (ofPops cpu.toRegisters (count + 1)).Describes cpu (cpu.pop.andThen following) := by
  unfold ofPops
  split
  next hEmpty =>
    rw [Processor.pop, if_pos hEmpty]
    exact describes_refused .stackUnderflow
  next hItem =>
    rw [pop_of_lt (UInt16.not_le.mp hItem)]
    have hNext := h (cpu.memory.stored (stackBase + cpu.sp)) { cpu with sp := cpu.sp + 1 }
    exact ⟨hNext.fault, hNext.registers, hNext.memory⟩

/-- The new byte is stored where the old one was read. -/
theorem describes_replace (cpu : Processor ρ δ) (d : Descriptor) (change : Byte → Byte) :
    ((Action.replace change).effect cpu d).Describes cpu (.done () (cpu.replace d.mode change)) :=
  describes_done ((Processor.HasRead.refl cpu).operandValue d.mode)
    (fun r => { r with p := r.p.describe (change (cpu.operandValue d.mode).1) })
    (fun _ _ => rfl) rfl rfl

/-- A shift works on the accumulator if it has no operand, and on memory otherwise. -/
theorem describes_shift (cpu : Processor ρ δ) (d : Descriptor) (operation : Arithmetic.Shift) :
    ((Action.shift operation).effect cpu d).Describes cpu
      (.done () (cpu.shift d.mode operation)) := by
  have hValue := (Processor.HasRead.refl cpu).operandValue d.mode
  have hStatus : (cpu.operandValue d.mode).2.p = cpu.p := by rw [hValue.registers]
  simp only [Action.effect, Processor.shift]
  split
  · exact ⟨rfl, rfl, cpu.memory.source, rfl⟩
  · refine describes_done hValue (fun r => { r with
      p := { r.p with carry := (operation (cpu.operandValue d.mode).1 cpu.p.carry).2 }.describe
        (operation (cpu.operandValue d.mode).1 cpu.p.carry).1 }) (fun _ _ => rfl) ?_ ?_
    · rw [← hStatus]
      rfl
    · rw [← hStatus]
      rfl

/-- Taken or not, a branch changes nothing but the program counter. -/
theorem describes_branchIf (cpu : Processor ρ δ) (test : Status → Bool) :
    Describes { registers := cpu.toRegisters } cpu (.done () (cpu.branchIf test)) := by
  have hOffset := (Processor.HasRead.refl cpu).fetchByte
  simp only [Processor.branchIf]
  split
  · exact describes_idle (hOffset.jump _)
  · exact describes_idle hOffset

/-- A call pushes the address of its own last byte, the high half first. -/
theorem describes_call (cpu : Processor ρ δ) (d : Descriptor) :
    (Action.call.effect cpu d).Describes cpu cpu.call :=
  .of_hasRead (Processor.HasRead.refl cpu).fetchWord <|
    describes_push _ fun _ => describes_push _ fun next =>
      describes_idle ((Processor.HasRead.refl next).jump _)

/-- A byte is pulled if the stack is not empty, and the rest is up to the register that takes it. -/
theorem describes_pull (cpu : Processor ρ δ) (d : Descriptor)
    (change : Byte → Registers → Registers) :
    ((Action.pull change).effect cpu d).Describes cpu (cpu.pull change) := by
  simp only [Action.effect, Processor.pull]
  split
  next hEmpty =>
    rw [Processor.pop, if_pos hEmpty]
    exact describes_refused .stackUnderflow
  next hItem =>
    rw [pop_of_lt (UInt16.not_le.mp hItem)]
    exact ⟨rfl, rfl, cpu.memory.source, rfl⟩

/-- A family does what it comes to. -/
theorem describes_perform (cpu : Processor ρ δ) (d : Descriptor) {action : Action}
    (h : action.IgnoresCounter) : (action.effect cpu d).Describes cpu (action.perform cpu d) := by
  have hHere := Processor.HasRead.refl cpu
  have hPlace := hHere.effectiveAddress d.mode
  cases action with
  | operand change => exact describes_done (hHere.operandValue d.mode) _ (h _) rfl rfl
  | store source => exact describes_done hPlace (fun r => r) (fun _ _ => rfl) rfl rfl
  | replace change => exact describes_replace cpu d change
  | shift operation => exact describes_shift cpu d operation
  | registers change => exact describes_done hHere change h rfl rfl
  | branch test => exact describes_branchIf cpu test
  | jump => exact describes_idle (hPlace.jump _)
  | call => exact describes_call cpu d
  | ret =>
      exact describes_pop fun _ _ => describes_pop fun _ next =>
        describes_idle ((Processor.HasRead.refl next).jump _)
  | push source =>
      have hPush : (ofPushes cpu.toRegisters [source cpu.toRegisters]).Describes cpu
          ((cpu.push (source cpu.toRegisters)).andThen fun _ next => .done () next) :=
        describes_push _ fun next => describes_idle (.refl next)
      rwa [Outcome.andThen_done] at hPush
  | pull change => exact describes_pull cpu d change
  | refuse => exact describes_refused _

end Effect

namespace Processor

variable {ρ δ : Type} [ByteSource ρ] [Screen δ]

/-- The instruction at the program counter. -/
def instruction (cpu : Processor ρ δ) : Descriptor := Catalog.decode cpu.fetchByte.1

/-- The effective address that the instruction at the program counter computes. -/
def operandAddress (cpu : Processor ρ δ) : Address :=
  (cpu.fetchByte.2.effectiveAddress cpu.instruction.mode).1

/-- The byte that the instruction at the program counter reads from there. -/
def operand (cpu : Processor ρ δ) : Byte :=
  (cpu.fetchByte.2.operandValue cpu.instruction.mode).1

omit [Screen δ] in
/-- Behind a call, the address of its last byte. -/
theorem pc_fetchWord_fetchByte (cpu : Processor ρ δ) :
    cpu.fetchByte.2.fetchWord.2.pc - 1 = cpu.pc + 2 := by
  show cpu.pc + 1 + 1 + 1 - 1 = cpu.pc + 2
  grind

/-- What the instruction at the program counter comes to. -/
def effect (cpu : Processor ρ δ) : Effect :=
  cpu.instruction.operation.action.effect cpu.fetchByte.2 cpu.instruction

omit [Screen δ] in
/-- The opcode at the program counter decides on the operation. -/
theorem operation_of_opcode {cpu : Processor ρ δ} {opcode : Byte} (h : cpu.fetchByte.1 = opcode) :
    cpu.instruction.operation = (Catalog.decode opcode).operation := by
  rw [← h]
  rfl

/-- The machine does to its processor what the instruction comes to. -/
theorem describes_cycle (cpu : Processor ρ δ) : cpu.effect.Describes cpu cpu.cycle := by
  unfold cycle
  dsimp only
  rw [Action.execute_eq_perform]
  exact .of_hasRead (HasRead.refl cpu).fetchByte
    (Effect.describes_perform _ _ (Action.ignoresCounter _))

end Processor

namespace Machine

variable {ρ δ κ : Type} [ByteSource ρ] [Screen δ] [Journal κ] {m next : Machine ρ δ κ}

/-- A machine around a processor, before anything is executed. -/
def around (cpu : Processor ρ δ) (journal : κ) : Machine ρ δ κ :=
  { cpu, journal, state := .idle, config := {}, instructions := 0, clock := {} }

/-- An instruction that comes through leaves what its effect says, where execution goes on apart. -/
theorem effect_of_done (h : m.stepInstruction = .done () next) :
    m.cpu.effect.fault? = none ∧
      next.cpu.toRegisters = { m.cpu.effect.registers with pc := next.cpu.pc } ∧
      ∃ source, next.cpu.memory =
        (m.cpu.memory.withSource source).writeAll m.cpu.effect.writes := by
  have hEffect := m.cpu.describes_cycle
  rw [cycle_of_done h] at hEffect
  exact ⟨hEffect.fault.symm, hEffect.registers, hEffect.memory⟩

/-- Without a fault in its effect, an instruction ends in the state that it leaves. -/
theorem eq_done_of_effect (h : m.cpu.effect.fault? = none) :
    m.stepInstruction = .done () m.stepInstruction.state := by
  refine Outcome.eq_done_of_fault? ?_
  rw [fault?_stepInstruction, m.cpu.describes_cycle.fault, h]

/-- An instruction that comes to no fault comes through. -/
theorem exists_done {registers : Registers} {writes : List (Address × Byte)}
    (h : m.cpu.effect = { registers, writes }) :
    ∃ next source, m.stepInstruction = .done () next ∧
      next.cpu.toRegisters = { registers with pc := next.cpu.pc } ∧
      next.cpu.memory = (m.cpu.memory.withSource source).writeAll writes := by
  have hDone := eq_done_of_effect (by rw [h])
  obtain ⟨-, hRegisters, source, hMemory⟩ := effect_of_done hDone
  rw [h] at hRegisters hMemory
  exact ⟨_, source, hDone, hRegisters, hMemory⟩

end Machine
end Micro6502
