import Micro6502.Proofs.Machine.Footprint

/-! Faults. Which instruction runs into one can be told before it is executed; and when one does,
all that is left of it, apart from the operand bytes that it has consumed, is on the stack. -/

namespace Micro6502

-- Nothing here depends on what the decoding table holds.
attribute [local irreducible] Catalog.decode

/-- A read leaves nothing in memory but another random source. -/
theorem Memory.afterRead_eq_withSource {ρ δ : Type} [ByteSource ρ] (memory : Memory ρ δ)
    (address : Address) :
    memory.afterRead address = memory.withSource (memory.afterRead address).source := by
  unfold afterRead
  split <;> rfl

/-- An opcode that is decoded to no instruction is in no entry of the table. -/
theorem Catalog.opcode_ne_of_unassigned {opcode : Byte} (h : decode opcode = .unassigned opcode) :
    ∀ d ∈ all, d.opcode ≠ opcode := by
  rintro d hMem rfl
  rw [decode_opcode hMem] at h
  have hAdmits := Action.admits_of_mem hMem
  rw [h] at hAdmits
  cases hAdmits

namespace Processor

variable {ρ δ : Type} [ByteSource ρ] [Screen δ] {cpu next : Processor ρ δ}

/-- The fault that the instruction at the program counter runs into, if any. -/
def foreseenFault? (cpu : Processor ρ δ) : Option Fault :=
  let opcode := cpu.fetchByte.1
  if ∀ d ∈ Catalog.all, d.opcode ≠ opcode then some (.invalidOpcode opcode cpu.pc)
  else
    match cpu.instruction.operation with
    | .pha | .php => if cpu.sp = 0 then some .stackOverflow else none
    | .jsr => if cpu.sp ≤ 1 then some .stackOverflow else none
    | .pla | .plp => if cpu.sp = stackEmpty then some .stackUnderflow else none
    | .rts => if 0xFF ≤ cpu.sp then some .stackUnderflow else none
    | _ => none

/-- What there is of an instruction by the time that it runs into a fault. -/
def residue (cpu : Processor ρ δ) : Fault → Effect
  | .invalidOpcode _ _ => { registers := cpu.toRegisters }
  | .stackOverflow =>
    if cpu.instruction.operation = .jsr ∧ cpu.sp = 1 then
      { registers := { cpu.toRegisters with sp := 0 }
        writes := [(stackBase, highByte (cpu.pc + 2))] }
    else { registers := cpu.toRegisters }
  | .stackUnderflow => { registers := { cpu.toRegisters with sp := stackEmpty } }

omit [Screen δ] in
theorem instruction_cases (cpu : Processor ρ δ) :
    cpu.instruction ∈ Catalog.all ∧ cpu.instruction.opcode = cpu.fetchByte.1 ∨
      cpu.instruction = .unassigned cpu.fetchByte.1 :=
  Catalog.decode_cases _

/-- A fault comes when it was foreseen. -/
theorem fault?_effect (hStack : cpu.sp ≤ stackEmpty) :
    cpu.effect.fault? = cpu.foreseenFault? := by
  -- Within the stack page, what pushes and pops ask of the stack pointer singles out its values.
  have hFull : cpu.sp ≤ 1 ↔ cpu.sp = 0 ∨ cpu.sp = 1 := by
    simp only [UInt16.le_iff_toNat_le, ← UInt16.toNat_inj, UInt16.reduceToNat]
    omega
  have hEmpty : stackEmpty ≤ cpu.sp ↔ cpu.sp = stackEmpty :=
    ⟨fun h => UInt16.le_antisymm hStack h, fun h => UInt16.le_of_eq h.symm⟩
  have hLast : 0xFF ≤ cpu.sp ↔ cpu.sp = stackEmpty ∨ cpu.sp = 0xFF := by
    simp only [stackEmpty, UInt16.le_iff_toNat_le, ← UInt16.toNat_inj, UInt16.reduceToNat]
      at hStack ⊢
    omega
  have hSp : cpu.fetchByte.2.sp = cpu.sp := rfl
  rcases cpu.instruction_cases with ⟨hMem, hOpcode⟩ | hNone
  · have hKnown : ¬ ∀ d ∈ Catalog.all, d.opcode ≠ cpu.fetchByte.1 := fun h => h _ hMem hOpcode
    have hAdmits := Action.admits_of_mem hMem
    unfold foreseenFault? effect
    rw [if_neg hKnown]
    generalize cpu.instruction = d at hAdmits ⊢
    obtain ⟨operation, mode, opcode, size⟩ := d
    cases operation with
    | dcb | invalid => cases hAdmits
    | pha | php =>
        simp only [Operation.action, Action.effect, Effect.ofPushes_singleton, hSp]
        split <;> rfl
    | pla | plp =>
        simp only [Operation.action, Action.effect, hSp, hEmpty]
        split <;> rfl
    | jsr =>
        have hSp : cpu.fetchByte.2.fetchWord.2.sp = cpu.sp := rfl
        simp only [Operation.action, Action.effect, Effect.ofPushes_pair, hSp, hFull]
        split_ifs <;> grind
    | rts =>
        simp only [Operation.action, Action.effect, Effect.ofPops_two, hSp, hEmpty, hLast]
        split_ifs <;> grind
    | asl | lsr | rol | ror =>
        simp only [Operation.action, Action.effect]
        split <;> rfl
    | _ => rfl
  · have hCounter : cpu.fetchByte.2.pc - 1 = cpu.pc := UInt16.add_sub_cancel _ _
    unfold foreseenFault? effect
    rw [if_pos (Catalog.opcode_ne_of_unassigned hNone), hNone]
    show some (Fault.invalidOpcode cpu.fetchByte.1 (cpu.fetchByte.2.pc - 1)) = _
    rw [hCounter]

/-- When a fault comes, that is what there is. -/
theorem effect_of_fault (hStack : cpu.sp ≤ stackEmpty) {fault : Fault}
    (h : cpu.effect.fault? = some fault) :
    { cpu.effect.registers with pc := cpu.pc } = (cpu.residue fault).registers ∧
      cpu.effect.writes = (cpu.residue fault).writes := by
  have hEmpty : stackEmpty ≤ cpu.sp → cpu.sp = stackEmpty := UInt16.le_antisymm hStack
  have hSp : cpu.fetchByte.2.sp = cpu.sp := rfl
  unfold residue
  unfold effect at h ⊢
  generalize cpu.instruction = d at h ⊢
  obtain ⟨operation, mode, opcode, size⟩ := d
  cases operation with
  | dcb | invalid =>
      cases h
      exact ⟨rfl, rfl⟩
  | pha | php =>
      simp only [Operation.action, Action.effect, Effect.ofPushes_singleton] at h ⊢
      split at h
      next hFull =>
        cases h
        rw [if_pos hFull]
        exact ⟨rfl, rfl⟩
      next => cases h
  | pla | plp =>
      simp only [Operation.action, Action.effect, hSp] at h ⊢
      split at h
      next hNone =>
        cases h
        rw [if_pos hNone, ← hEmpty hNone]
        exact ⟨rfl, rfl⟩
      next => cases h
  | jsr =>
      have hBack := cpu.pc_fetchWord_fetchByte
      have hSp : cpu.fetchByte.2.fetchWord.2.sp = cpu.sp := rfl
      simp only [Operation.action, Action.effect, Effect.ofPushes_pair, hSp, hBack] at h ⊢
      split at h
      next hFull =>
        cases h
        rw [if_pos hFull, if_neg (by simp [hFull])]
        exact ⟨rfl, rfl⟩
      next hRoom =>
        split at h
        next hOne =>
          -- The first byte has taken the last place.
          cases h
          rw [if_neg hRoom, if_pos hOne, hOne]
          exact ⟨rfl, rfl⟩
        next => cases h
  | rts =>
      simp only [Operation.action, Action.effect, Effect.ofPops_two, hSp] at h ⊢
      split at h
      next hNone =>
        cases h
        rw [if_pos hNone, ← hEmpty hNone]
        exact ⟨rfl, rfl⟩
      next hItem =>
        split at h
        next hLast =>
          cases h
          rw [if_neg hItem, if_pos hLast]
          exact ⟨rfl, rfl⟩
        next => cases h
  | asl | lsr | rol | ror =>
      simp only [Operation.action, Action.effect] at h
      split at h <;> cases h
  | _ => cases h

/-- A processor runs into the fault that was foreseen, or into none. -/
theorem fault?_cycle (hStack : cpu.sp ≤ stackEmpty) : cpu.cycle.fault? = cpu.foreseenFault? :=
  cpu.describes_cycle.fault.trans (fault?_effect hStack)

/-- What is left of a processor when a fault comes. -/
theorem residue_of_faulted (hStack : cpu.sp ≤ stackEmpty) {fault : Fault}
    (h : cpu.cycle = .faulted fault next) :
    next.toRegisters = { (cpu.residue fault).registers with pc := next.pc } ∧
      ∃ source, next.memory =
        (cpu.memory.withSource source).writeAll (cpu.residue fault).writes := by
  have hEffect := cpu.describes_cycle
  rw [h] at hEffect
  obtain ⟨hRegisters, hWrites⟩ := effect_of_fault hStack hEffect.fault.symm
  obtain ⟨source, hMemory⟩ := hEffect.memory
  refine ⟨?_, source, ?_⟩
  · rw [← hRegisters]
    exact hEffect.registers
  · rw [← hWrites]
    exact hMemory

omit [Screen δ] in
/-- Of the registers, only the stack pointer shows a fault. -/
theorem registers_residue (cpu : Processor ρ δ) (fault : Fault) :
    (cpu.residue fault).registers =
      { cpu.toRegisters with sp := (cpu.residue fault).registers.sp } := by
  cases fault with
  | stackOverflow =>
      simp only [residue]
      split <;> rfl
  | _ => rfl

omit [Screen δ] in
/-- If a fault leaves a byte in memory, it is at the bottom of the stack page. -/
theorem eq_of_mem_residue {fault : Fault} {write : Address × Byte}
    (h : write ∈ (cpu.residue fault).writes) : write.1 = stackBase := by
  cases fault with
  | stackOverflow =>
      simp only [residue] at h
      split at h
      · rw [List.mem_singleton.mp h]
      · cases h
  | _ => cases h

omit [Screen δ] in
/-- An invalid opcode is foreseen with itself and its own address. -/
theorem foreseenFault?_eq_invalidOpcode {opcode : Byte} {address : Address}
    (h : cpu.foreseenFault? = some (.invalidOpcode opcode address)) :
    address = cpu.pc ∧ opcode = cpu.fetchByte.1 ∧ ∀ d ∈ Catalog.all, d.opcode ≠ opcode := by
  unfold foreseenFault? at h
  dsimp only at h
  split at h
  next hNone =>
    cases h
    exact ⟨rfl, rfl, hNone⟩
  next => grind

/-- An opcode that no instruction has is fetched, and that is all. -/
theorem state_cycle_of_invalid (h : ∀ d ∈ Catalog.all, d.opcode ≠ cpu.fetchByte.1) :
    cpu.cycle.state = cpu.fetchByte.2 := by
  have hState : cpu.cycle.state = (cpu.fetchByte.2.execute cpu.instruction).state := rfl
  rcases cpu.instruction_cases with ⟨hMem, hOpcode⟩ | hNone
  · exact absurd hOpcode (h _ hMem)
  · rw [hState, hNone]
    rfl

end Processor

namespace Machine

variable {ρ δ κ : Type} [ByteSource ρ] [Screen δ] [Journal κ] {m next : Machine ρ δ κ}

omit [Screen δ] in
theorem tracedJournal_of_silent (h : m.config.trace = false) : m.tracedJournal = m.journal := by
  simp only [tracedJournal, traceLine, h]
  rfl

/-- What any fault spares: what the machine keeps in its books, all of the registers but the
program counter and the stack pointer, the memory outside the stack page, and the screen. -/
structure Spares (m next : Machine ρ δ κ) : Prop where
  books : next = { m with cpu := next.cpu, journal := next.journal }
  journal : m.config.trace = false → next.journal = m.journal
  registers : next.cpu.toRegisters =
    { m.cpu.toRegisters with pc := next.cpu.pc, sp := next.cpu.sp }
  memory : ∀ address, ¬ (stackBase ≤ address ∧ address < stackBase + stackEmpty) →
    next.cpu.memory.stored address = m.cpu.memory.stored address
  screen : next.cpu.memory.screen = m.cpu.memory.screen

/-- What is left of an instruction that runs into a fault. An opcode that no instruction has
leaves nothing but its fetch, a full stack takes nothing but the first byte of a call that finds
one place, and an empty stack stays empty. -/
def Leaves (m next : Machine ρ δ κ) : Fault → Prop
  | .invalidOpcode opcode address =>
    address = m.cpu.pc ∧ opcode = m.cpu.fetchByte.1 ∧
    (∀ d ∈ Catalog.all, d.opcode ≠ opcode) ∧
    next.cpu = { m.cpu with
      pc := m.cpu.pc + 1
      memory := m.cpu.memory.withSource next.cpu.memory.source } ∧
    (m.cpu.pc ≠ randomAddress → next.cpu.memory = m.cpu.memory)
  | .stackOverflow =>
    if m.cpu.instruction.operation = .jsr ∧ m.cpu.sp = 1 then
      next.cpu.sp = 0 ∧ next.cpu.memory.stored stackBase = highByte (m.cpu.pc + 2) ∧
      ∀ address ≠ stackBase, next.cpu.memory.stored address = m.cpu.memory.stored address
    else
      next.cpu.sp = m.cpu.sp ∧
      ∀ address, next.cpu.memory.stored address = m.cpu.memory.stored address
  | .stackUnderflow =>
    next.cpu.sp = stackEmpty ∧
    ∀ address, next.cpu.memory.stored address = m.cpu.memory.stored address

/-- A fault spares all but the stack. What it leaves in memory lies at the bottom of the stack
page, away from the display window. -/
theorem spares_of_faulted (hStack : m.cpu.sp ≤ stackEmpty) {fault : Fault}
    (h : m.stepInstruction = .faulted fault next) : m.Spares next := by
  obtain ⟨hCycle, hBooks⟩ := cycle_of_faulted h
  have hJournal : next.journal = m.tracedJournal := by rw [hBooks]
  obtain ⟨hRegisters, source, hMemory⟩ := Processor.residue_of_faulted hStack hCycle
  rw [Processor.registers_residue] at hRegisters
  have hSp := congrArg Registers.sp hRegisters
  refine ⟨by rwa [hJournal], fun hSilent => hJournal.trans (tracedJournal_of_silent hSilent),
    ?_, fun address hElsewhere => ?_, ?_⟩
  · rw [hSp]
    exact hRegisters
  · have hOther : address ∉ (m.cpu.residue fault).writes.map Prod.fst := by
      intro hMem
      obtain ⟨write, hWrite, rfl⟩ := List.mem_map.mp hMem
      rw [Processor.eq_of_mem_residue hWrite] at hElsewhere
      exact hElsewhere (by decide)
    rw [hMemory, Memory.stored_writeAll_of_notMem hOther, Memory.stored_withSource]
  · have hDark : (m.cpu.residue fault).writes.filter (fun write => inWindow write.1) = [] := by
      refine List.filter_eq_nil_iff.mpr fun write hWrite => ?_
      rw [Processor.eq_of_mem_residue hWrite]
      decide
    rw [hMemory, Memory.screen_writeAll, hDark]
    rfl

/-- What a fault leaves can be told from what it is: the fetch of an invalid opcode, the first
byte of a call that had one place, or an empty stack. -/
theorem leaves_of_faulted (hStack : m.cpu.sp ≤ stackEmpty) {fault : Fault}
    (h : m.stepInstruction = .faulted fault next) : m.Leaves next fault := by
  have hCycle := (cycle_of_faulted h).1
  have hForeseen := Processor.fault?_cycle hStack
  rw [hCycle] at hForeseen
  obtain ⟨hRegisters, source, hMemory⟩ := Processor.residue_of_faulted hStack hCycle
  have hSp := congrArg Registers.sp hRegisters
  cases fault with
  | invalidOpcode opcode address =>
      obtain ⟨hAddress, hOpcode, hNone⟩ :=
        Processor.foreseenFault?_eq_invalidOpcode hForeseen.symm
      have hFetched : next.cpu = m.cpu.fetchByte.2 := by
        rw [← Processor.state_cycle_of_invalid (hOpcode ▸ hNone), hCycle]
        rfl
      have hMemory : next.cpu.memory = m.cpu.memory.afterRead m.cpu.pc := by
        rw [hFetched]
        rfl
      refine ⟨hAddress, hOpcode, hNone, ?_, fun hPlain => ?_⟩
      · rw [hMemory, ← Memory.afterRead_eq_withSource, hFetched]
        rfl
      · rw [hMemory, Memory.afterRead_of_ne _ hPlain]
  | stackOverflow =>
      simp only [Processor.residue] at hSp hMemory
      dsimp only [Leaves]
      split
      next hCall =>
        rw [if_pos hCall] at hSp hMemory
        have hWrite : next.cpu.memory =
            (m.cpu.memory.withSource source).write stackBase (highByte (m.cpu.pc + 2)) := hMemory
        refine ⟨hSp, ?_, fun address hOther => ?_⟩
        · rw [hWrite, Memory.stored_write, if_pos rfl]
        · rw [hWrite, Memory.stored_write, if_neg hOther, Memory.stored_withSource]
      next hCall =>
        rw [if_neg hCall] at hSp hMemory
        refine ⟨hSp, fun address => ?_⟩
        rw [hMemory]
        rfl
  | stackUnderflow =>
      refine ⟨hSp, fun address => ?_⟩
      rw [hMemory]
      rfl

/-- A step runs into a fault just when one is foreseen, and then nothing but the stack shows how
far it has come. -/
theorem stepInstruction_residue (hStack : m.cpu.sp ≤ stackEmpty) :
    m.stepInstruction.fault? = m.cpu.foreseenFault? ∧
    ∀ fault next, m.stepInstruction = .faulted fault next →
      m.Spares next ∧ m.Leaves next fault := by
  refine ⟨?_, fun fault next h => ⟨spares_of_faulted hStack h, leaves_of_faulted hStack h⟩⟩
  rw [fault?_stepInstruction, Processor.fault?_cycle hStack]

/-- A call for which the stack has one place left. -/
theorem stepInstruction_residue_call :
    ∃ m next : Machine Congruential (Array (Address × Byte)) Unit,
      m.cpu.sp ≤ stackEmpty ∧ m.stepInstruction = .faulted .stackOverflow next ∧
      m.cpu.foreseenFault? = some .stackOverflow ∧ next.cpu.sp = 0 ∧
      next.cpu.memory.stored stackBase = 0x02 ∧ m.Spares next ∧
      m.Leaves next .stackOverflow := by
  obtain ⟨m, hStack, hFault, hSp, hStored⟩ :
      ∃ m : Machine Congruential (Array (Address × Byte)) Unit,
        m.cpu.sp ≤ stackEmpty ∧ m.stepInstruction.fault? = some .stackOverflow ∧
        m.stepInstruction.state.cpu.sp = 0 ∧
        m.stepInstruction.state.cpu.memory.stored stackBase = 0x02 := by
    let idle : Machine Congruential (Array (Address × Byte)) Unit :=
      around { sp := 1, memory := .zero (.seeded 1) #[] } ()
    refine ⟨Bus.writeBytes idle 0x0200 [0x20, 0x34, 0x12], ?_⟩
    decide +kernel
  have hStep := Outcome.eq_faulted_of_fault? hFault
  obtain ⟨hForeseen, hResidue⟩ := stepInstruction_residue hStack
  obtain ⟨hSpares, hLeaves⟩ := hResidue _ _ hStep
  exact ⟨m, _, hStack, hStep, hForeseen.symm.trans hFault, hSp, hStored, hSpares, hLeaves⟩

end Machine
end Micro6502
