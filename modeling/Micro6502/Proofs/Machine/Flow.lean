import Micro6502.Proofs.Listing.Walk
import Micro6502.Proofs.Machine.Action
import Micro6502.Proofs.Machine.Load
import Micro6502.Proofs.Machine.Step

/-! Where execution goes on. The table says how long an instruction is, and the processor
finds its operand bytes one by one; both come to the same address behind it, unless the
instruction is there to go somewhere else. -/

namespace Micro6502

-- What the table says is known from its lemmas; nothing here looks into it.
attribute [local irreducible] Catalog.decode

/-- If two attempts in a row come through, each of them has. -/
theorem Outcome.andThen_eq_done {σ α β : Type} {outcome : Outcome σ α}
    {next : α → σ → Outcome σ β} {value : β} {state : σ}
    (h : outcome.andThen next = .done value state) :
    ∃ first middle, outcome = .done first middle ∧ next first middle = .done value state := by
  cases outcome with
  | done first middle => exact ⟨first, middle, rfl, h⟩
  | faulted fault middle => cases h

namespace Processor

variable {ρ δ : Type} [ByteSource ρ] [Screen δ] {cpu next : Processor ρ δ}

/-- The byte behind the opcode, as it is read once the opcode has been. -/
def operandByte (cpu : Processor ρ δ) : Byte :=
  let (_, cpu) := Bus.read cpu cpu.pc
  (Bus.read cpu (cpu.pc + 1)).1

/-- The address that a jump or a call names: the word behind the opcode, or in indirect mode
the word that lies where that one points. -/
def destination (cpu : Processor ρ δ) (mode : AddressingMode) : Address :=
  let (_, cpu) := Bus.read cpu cpu.pc
  let (target, cpu) := Bus.readWord cpu (cpu.pc + 1)
  if mode = .indirect then (Bus.readWord cpu target).1 else target

/-- Where execution goes on after an instruction at the program counter. -/
def successor (cpu : Processor ρ δ) (d : Descriptor) : Address :=
  match d.operation.action with
  | .branch test =>
    if test cpu.p then branchTarget (cpu.pc + 2) cpu.operandByte else cpu.pc + 2
  | .jump | .call => cpu.destination d.mode
  | .ret => cpu.memory.storedWord (stackBase + cpu.sp) + 1
  | _ => cpu.pc + .ofNat d.size

/-- To fetch a word is to read it where the program counter is, and to go on behind it. -/
theorem fetchWord_eq_readWord (cpu : Processor ρ δ) :
    cpu.fetchWord =
      ((Bus.readWord cpu cpu.pc).1, (Bus.readWord cpu cpu.pc).2.jump (cpu.pc + 2)) := by
  rw [← add_one_add_one]
  rfl

/-- Finding an operand moves the program counter behind its bytes, and does nothing else to
the registers. -/
theorem toRegisters_effectiveAddress {mode : AddressingMode} (h : mode ≠ .relative) :
    (cpu.effectiveAddress mode).2.toRegisters =
      { cpu.toRegisters with pc := cpu.pc + .ofNat mode.operandBytes } := by
  cases mode with
  | relative => exact absurd rfl h
  | implied =>
      rw [show cpu.pc + .ofNat AddressingMode.implied.operandBytes = cpu.pc from
        UInt16.add_zero _]
      rfl
  | immediate | zeroPage | zeroPageX | zeroPageY | indirectX | indirectY => rfl
  | absolute | absoluteX | absoluteY | indirect =>
      simp only [effectiveAddress, fetchWord_eq_readWord]
      rfl

omit [ByteSource ρ] in
/-- A push that comes through has found a place, and its byte is now there. -/
theorem push_eq_done {byte : Byte} (h : cpu.push byte = .done () next) :
    cpu.sp ≠ 0 ∧
      next = { cpu with sp := cpu.sp - 1 }.write (stackBase + (cpu.sp - 1)) byte := by
  unfold push at h
  split at h
  · cases h
  next hRoom =>
    cases h
    exact ⟨hRoom, rfl⟩

/-- The stack page does not reach down to the random address. -/
theorem stack_ne_random {sp : UInt16} (h : sp < stackEmpty) : stackBase + sp ≠ randomAddress := by
  intro hSame
  have hNat := congrArg UInt16.toNat hSame
  rw [UInt16.lt_iff_toNat_lt] at h
  simp only [stackBase, randomAddress, stackEmpty, UInt16.toNat_add, UInt16.reduceToNat] at h hNat
  omega

omit [Screen δ] in
/-- A pop that comes through has found an item. The byte stays in memory, out of reach. -/
theorem pop_eq_done {byte : Byte} (h : cpu.pop = .done byte next) :
    cpu.sp < stackEmpty ∧ byte = cpu.memory.stored (stackBase + cpu.sp) ∧
      next = { cpu with sp := cpu.sp + 1 } := by
  unfold pop at h
  split at h
  · cases h
  next hItem =>
    have hLess : cpu.sp < stackEmpty := UInt16.not_le.mp hItem
    rw [read_eq (stack_ne_random hLess)] at h
    cases h
    exact ⟨hLess, rfl, rfl⟩

omit [Screen δ] in
/-- A return needs two items, and they are the word that it returns behind. -/
theorem ret_eq_done (h : cpu.ret = .done () next) :
    next.pc = cpu.memory.storedWord (stackBase + cpu.sp) + 1 := by
  obtain ⟨low, middle, hLow, h⟩ := Outcome.andThen_eq_done h
  obtain ⟨high, last, hHigh, h⟩ := Outcome.andThen_eq_done h
  obtain ⟨-, rfl, rfl⟩ := pop_eq_done hLow
  obtain ⟨-, rfl, rfl⟩ := pop_eq_done hHigh
  cases h
  rw [Memory.storedWord, UInt16.add_assoc stackBase]
  rfl

/-- A call goes where its operand says. Its two pushes change nothing about that. -/
theorem call_eq_done (h : cpu.call = .done () next) : next.pc = cpu.fetchWord.1 := by
  obtain ⟨_, middle, -, h⟩ := Outcome.andThen_eq_done h
  obtain ⟨_, last, -, h⟩ := Outcome.andThen_eq_done h
  cases h
  rfl

/-- Behind the opcode, the address that is found is the one that the instruction names. -/
theorem effectiveAddress_destination {mode : AddressingMode}
    (h : mode = .absolute ∨ mode = .indirect) :
    (cpu.fetchByte.2.effectiveAddress mode).1 = cpu.destination mode := by
  rcases h with rfl | rfl
  · rw [effectiveAddress, fetchWord_eq_readWord]
    rfl
  · simp only [effectiveAddress, fetchWord_eq_readWord]
    rfl

/-- A branch goes on behind itself, and if its test holds, the distance from there. -/
theorem pc_branchIf (test : Status → Bool) :
    (cpu.fetchByte.2.branchIf test).pc =
      if test cpu.p then branchTarget (cpu.pc + 2) cpu.operandByte else cpu.pc + 2 := by
  rw [← add_one_add_one]
  exact apply_ite (fun after : Processor ρ δ => after.pc) (test cpu.p = true) _ _

/-- Whatever a family does, it comes out behind its operand bytes, or where it was to go. -/
theorem pc_of_perform {d : Descriptor} (hKeeps : d.operation.action.KeepsCounter)
    (hAdmits : d.operation.action.admits d.mode = true)
    (hSize : d.size = d.mode.instructionSize)
    (h : d.operation.action.perform cpu.fetchByte.2 d = .done () next) :
    next.pc = cpu.successor d := by
  have hBehind : cpu.fetchByte.2.pc + .ofNat d.mode.operandBytes = cpu.pc + .ofNat d.size := by
    rw [hSize, AddressingMode.instructionSize, UInt16.ofNat_add, ← UInt16.add_assoc]
    rfl
  have hFind : d.mode ≠ .relative → (cpu.fetchByte.2.effectiveAddress d.mode).2.pc =
      cpu.pc + .ofNat d.size := by
    intro hMode
    rw [← hBehind, toRegisters_effectiveAddress hMode]
  have hAlone : d.mode = .implied → cpu.fetchByte.2.pc = cpu.pc + .ofNat d.size := by
    intro hMode
    rw [← hBehind, hMode]
    exact (UInt16.add_zero _).symm
  unfold successor
  generalize d.operation.action = action at hKeeps hAdmits h ⊢
  cases action with
  | operand change =>
      cases h
      exact (hKeeps _ _).trans (hFind (of_decide_eq_true hAdmits))
  | store source =>
      cases h
      exact hFind (of_decide_eq_true hAdmits)
  | replace change =>
      cases h
      exact hFind (of_decide_eq_true hAdmits)
  | shift operation =>
      cases h
      unfold shift
      split
      next hMode => exact hAlone hMode
      next => exact hFind (of_decide_eq_true hAdmits)
  | registers change =>
      cases h
      exact (hKeeps _).trans (hAlone (of_decide_eq_true hAdmits))
  | branch test =>
      cases h
      exact pc_branchIf test
  | jump =>
      cases h
      exact effectiveAddress_destination (by simpa [Action.admits] using hAdmits)
  | call =>
      have hMode : d.mode = .absolute := of_decide_eq_true hAdmits
      have hTarget : cpu.fetchByte.2.fetchWord.1 = cpu.destination .absolute :=
        effectiveAddress_destination (.inl rfl)
      rw [hMode, ← hTarget]
      exact call_eq_done h
  | ret =>
      have hStored : ∀ address,
          cpu.fetchByte.2.memory.stored address = cpu.memory.stored address :=
        cpu.memory.stored_afterRead cpu.pc
      rw [ret_eq_done h]
      simp only [Memory.storedWord, hStored]
      rfl
  | push source =>
      obtain ⟨-, rfl⟩ := push_eq_done h
      exact hAlone (of_decide_eq_true hAdmits)
  | pull change =>
      obtain ⟨_, middle, hPop, h⟩ := Outcome.andThen_eq_done h
      obtain ⟨-, -, rfl⟩ := pop_eq_done hPop
      cases h
      exact (hKeeps _ _).trans (hAlone (of_decide_eq_true hAdmits))
  | refuse => cases h

/-- Only instructions come through, and each of them comes out where it should. -/
theorem successor_of_cycle (h : cpu.cycle = .done () next) :
    Catalog.decode (Bus.read cpu cpu.pc).1 ∈ Catalog.all ∧
      next.pc = cpu.successor (Catalog.decode (Bus.read cpu cpu.pc).1) := by
  have hPerform : (Catalog.decode (Bus.read cpu cpu.pc).1).operation.action.perform
      cpu.fetchByte.2 (Catalog.decode (Bus.read cpu cpu.pc).1) = .done () next := by
    rw [← Action.execute_eq_perform]
    exact h
  have hValid : (Catalog.decode (Bus.read cpu cpu.pc).1).isInvalid = false := by
    refine decide_eq_false fun hInvalid => ?_
    rw [hInvalid] at hPerform
    cases hPerform
  have hMem := (Catalog.mem_of_decode hValid).1
  exact ⟨hMem, pc_of_perform (Action.keepsCounter _) (Action.admits_of_mem hMem)
    (Catalog.size_of_mem hMem) hPerform⟩

theorem successor_eq {d : Descriptor} (h : d.operation.action.transfers = false) :
    cpu.successor d = cpu.pc + .ofNat d.size := by
  unfold successor
  generalize d.operation.action = action at h ⊢
  cases action with
  | branch | jump | call | ret => cases h
  | _ => rfl

end Processor

namespace Machine

variable {ρ δ κ : Type} [ByteSource ρ] [Screen δ] [Journal κ] {m next : Machine ρ δ κ}

/-- A step leads to the successor of the instruction that was fetched. Where that is the
place behind it, a listing that starts at the program counter, of any machine with the same
bytes in its memory, has its second line there. -/
theorem stepInstruction_flow (h : m.stepInstruction = .done () next) :
    let d := Catalog.decode (Bus.read m m.cpu.pc).1
    d ∈ Catalog.all ∧ next.cpu.pc = m.cpu.successor d ∧
      (m.cpu.pc ≠ randomAddress → d.operation.action.transfers = false →
        m.cpu.pc.toNat + d.size < 0x10000 → ∀ shown : Machine ρ δ κ,
        (∀ address, shown.cpu.memory.stored address = m.cpu.memory.stored address) →
        ∀ limit, ∃ first second rest,
          (Listing.disassemble shown m.cpu.pc (limit + 2)).1 = first :: second :: rest ∧
            first.address = m.cpu.pc ∧ first.descriptor = d ∧
            second.address = next.cpu.pc) := by
  rw [stepInstruction_eq] at h
  have hCycle : m.cpu.cycle = .done () next.cpu := by
    generalize m.cpu.cycle = outcome at h
    cases outcome with
    | done _ cpu =>
        cases h
        rfl
    | faulted fault cpu => cases h
  obtain ⟨hMem, hNext⟩ := Processor.successor_of_cycle hCycle
  refine ⟨hMem, hNext, fun hCell hStraight hEnd shown hSame limit => ?_⟩
  have hFirst : (Listing.decodeAt shown m.cpu.pc).1.descriptor =
      Catalog.decode (Bus.read m m.cpu.pc).1 := by
    rw [Listing.descriptor_decodeAt, read_eq_stored hCell, read_eq_stored hCell, hSame]
  have hSize : (Listing.decodeAt shown m.cpu.pc).1.size =
      (Catalog.decode (Bus.read m m.cpu.pc).1).size := by
    rw [Listing.Instruction.size, hFirst]
  rw [← hSize] at hEnd
  obtain ⟨second, rest, hList, hSecond⟩ := Listing.disassemble_second hEnd limit
  refine ⟨_, second, rest, hList, rfl, hFirst, ?_⟩
  calc second.address
      = m.cpu.pc + .ofNat (Catalog.decode (Bus.read m m.cpu.pc).1).size := by rw [hSecond, hSize]
    _ = m.cpu.successor (Catalog.decode (Bus.read m m.cpu.pc).1) :=
      (Processor.successor_eq hStraight).symm
    _ = next.cpu.pc := hNext.symm

/-- A store over its own operand, which has been fetched by then. -/
theorem stepInstruction_flow_overwritten :
    ∃ m next : Machine Congruential Unit Unit, m.stepInstruction = .done () next ∧
      m.cpu.memory.stored 0x0201 = 0x01 ∧ next.cpu.memory.stored 0x0201 = 0x07 ∧
      next.cpu.pc = 0x0203 ∧
      Catalog.decode (Bus.read m m.cpu.pc).1 ∈ Catalog.all ∧
      next.cpu.pc = m.cpu.successor (Catalog.decode (Bus.read m m.cpu.pc).1) ∧
      ∃ first second rest,
        (Listing.disassemble m m.cpu.pc 50).1 = first :: second :: rest ∧
          first.address = m.cpu.pc ∧
          first.descriptor = Catalog.decode (Bus.read m m.cpu.pc).1 ∧
          second.address = next.cpu.pc := by
  obtain ⟨m, hDone, hBefore, hAfter, hCounter, hCell, hStraight, hEnd⟩ :
      ∃ m : Machine Congruential Unit Unit, m.stepInstruction.fault? = none ∧
        m.cpu.memory.stored 0x0201 = 0x01 ∧
        m.stepInstruction.state.cpu.memory.stored 0x0201 = 0x07 ∧
        m.stepInstruction.state.cpu.pc = 0x0203 ∧ m.cpu.pc ≠ randomAddress ∧
        (Catalog.decode (Bus.read m m.cpu.pc).1).operation.action.transfers = false ∧
        m.cpu.pc.toNat + (Catalog.decode (Bus.read m m.cpu.pc).1).size < 0x10000 := by
    refine ⟨(Bus.writeBytes (start {} (.seeded 1) () ()) 0x0200 [0x8D, 0x01, 0x02]).withRegisters
      fun r => { r with a := 0x07 }, ?_⟩
    decide +kernel
  have hStep : m.stepInstruction = .done () m.stepInstruction.state := by
    generalize m.stepInstruction = outcome at hDone
    cases outcome with
    | done _ state => rfl
    | faulted fault state => cases hDone
  obtain ⟨hMem, hNext, hWalk⟩ := stepInstruction_flow hStep
  exact ⟨m, _, hStep, hBefore, hAfter, hCounter, hMem, hNext,
    hWalk hCell hStraight hEnd m (fun _ => rfl) 48⟩

end Machine
end Micro6502
