import Micro6502.Proofs.Machine.Effect
import Micro6502.Proofs.Machine.Stack

/-! Last in, first out. Bytes that go to the stack one after another come back in the reverse
order, as many of them as there were places; and what comes and goes on top of an item leaves it
alone. -/

namespace Micro6502

theorem Catalog.operation_decode_php : (decode 0x08).operation = .php := by decide +kernel

theorem Catalog.operation_decode_plp : (decode 0x28).operation = .plp := by decide +kernel

-- Nothing else here depends on what the decoding table holds.
attribute [local irreducible] Catalog.decode

/-- Every push has its pop, somewhere behind it. -/
inductive Balanced : List Transfer → Prop
  | nil : Balanced []
  | around {inner rest : List Transfer} (byte : Byte) (hInner : Balanced inner)
      (hRest : Balanced rest) : Balanced (.push byte :: (inner ++ .pop :: rest))

namespace Processor

variable {ρ δ : Type} [ByteSource ρ] [Screen δ] {cpu middle next : Processor ρ δ}

/-- Push bytes one after another, unless one of them finds the stack full. -/
def pushAll : List Byte → Processor ρ δ → Outcome (Processor ρ δ) Unit
  | [], cpu => .done () cpu
  | byte :: rest, cpu => (cpu.push byte).andThen fun _ cpu => pushAll rest cpu

/-- Pop bytes one after another, unless the stack is empty too soon. -/
def popAll : Nat → Processor ρ δ → Outcome (Processor ρ δ) (List Byte)
  | 0, cpu => .done [] cpu
  | count + 1, cpu => cpu.pop.andThen fun byte cpu =>
    (popAll count cpu).andThen fun bytes cpu => .done (byte :: bytes) cpu

/-- There are so many bytes more on the stack, and nothing has changed but their places. -/
structure Stacked (cpu : Processor ρ δ) (count : Nat) (next : Processor ρ δ) : Prop where
  sp : next.sp.toNat + count = cpu.sp.toNat
  registers : next.toRegisters = { cpu.toRegisters with sp := next.sp }
  stored : ∀ address : Address, address.toNat < 0x100 + next.sp.toNat ∨
    0x100 + cpu.sp.toNat ≤ address.toNat →
    next.memory.stored address = cpu.memory.stored address
  source : next.memory.source = cpu.memory.source
  screen : next.memory.screen = cpu.memory.screen

/-- So many bytes have been popped, and nothing has changed but the stack pointer. -/
structure Unstacked (cpu : Processor ρ δ) (count : Nat) (next : Processor ρ δ) : Prop where
  sp : next.sp.toNat = cpu.sp.toNat + count
  rest : next = { cpu with sp := next.sp }

section

omit [ByteSource ρ] [Screen δ]

theorem stacked_zero (cpu : Processor ρ δ) : cpu.Stacked 0 cpu :=
  ⟨rfl, rfl, fun _ _ => rfl, rfl, rfl⟩

theorem Stacked.trans {first second : Nat} (hFirst : cpu.Stacked first middle)
    (hSecond : middle.Stacked second next) : cpu.Stacked (second + first) next where
  sp := by
    have hMiddle := hFirst.sp
    have hNext := hSecond.sp
    omega
  registers := by rw [hSecond.registers, hFirst.registers]
  stored address hElsewhere := by
    have hMiddle := hFirst.sp
    have hNext := hSecond.sp
    rw [hSecond.stored address (by omega), hFirst.stored address (by omega)]
  source := hSecond.source.trans hFirst.source
  screen := hSecond.screen.trans hFirst.screen

theorem Stacked.stackBounded {count : Nat} (h : cpu.Stacked count next)
    (hStack : cpu.StackBounded) : next.StackBounded := by
  have hSp := h.sp
  simp only [StackBounded, UInt16.le_iff_toNat_le] at hStack ⊢
  omega

/-- A stack with a byte that was put on it is not empty. -/
theorem Stacked.sp_ne_stackEmpty {count : Nat} (h : cpu.Stacked (count + 1) next)
    (hStack : cpu.StackBounded) : next.sp ≠ stackEmpty := by
  intro hEmpty
  have hSp := h.sp
  simp only [StackBounded, UInt16.le_iff_toNat_le] at hStack
  rw [hEmpty] at hSp
  omega

theorem unstacked_zero (cpu : Processor ρ δ) : cpu.Unstacked 0 cpu := ⟨rfl, rfl⟩

theorem Unstacked.trans {first second : Nat} (hFirst : cpu.Unstacked first middle)
    (hSecond : middle.Unstacked second next) : cpu.Unstacked (first + second) next where
  sp := by rw [hSecond.sp, hFirst.sp, Nat.add_assoc]
  rest := by rw [hSecond.rest, hFirst.rest]

end

/-- Where there is a place, a push takes the next one. -/
theorem StackBounded.exists_push (h : cpu.StackBounded) (hRoom : cpu.sp ≠ 0) (byte : Byte) :
    ∃ next, cpu.push byte = .done () next ∧ cpu.Stacked 1 next ∧
      ∀ address : Address, address.toNat = 0x100 + next.sp.toNat →
        next.memory.stored address = byte := by
  rcases h.staysInPage (.push byte) with ⟨hFull, -⟩ | ⟨-, sp, place, hSp, hPlace, hPage, hPush⟩
  · exact absurd hFull hRoom
  · refine ⟨_, hPush, ⟨hSp, rfl, fun address hElsewhere => ?_, rfl, ?_⟩, fun address hTop => ?_⟩
    · have hOther : address ≠ place := by
        rintro rfl
        simp at hElsewhere
        omega
      simp [hOther]
    · simp [Memory.write, hPage.hidden]
    · have hSame : address = place := UInt16.toNat_inj.mp (hTop.trans hPlace.symm)
      simp [hSame]

/-- Where there is an item, a pop takes the latest one. -/
theorem StackBounded.exists_pop (h : cpu.StackBounded) (hItem : cpu.sp ≠ stackEmpty) :
    ∃ next address, address.toNat = 0x100 + cpu.sp.toNat ∧
      cpu.pop = .done (cpu.memory.stored address) next ∧ cpu.Unstacked 1 next := by
  rcases h.staysInPage .pop with ⟨hEmpty, -⟩ | ⟨-, sp, place, hSp, hPlace, -, hPop⟩
  · exact absurd hEmpty hItem
  · exact ⟨_, place, hPlace, hPop, hSp, rfl⟩

omit [ByteSource ρ] in
/-- A series of pushes may be cut anywhere. A fault in its front ends all of it. -/
theorem pushAll_append (front back : List Byte) (cpu : Processor ρ δ) :
    cpu.pushAll (front ++ back) =
      (cpu.pushAll front).andThen fun _ middle => middle.pushAll back := by
  induction front generalizing cpu with
  | nil => rfl
  | cons byte rest ih =>
      simp only [List.cons_append, pushAll]
      cases cpu.push byte with
      | done _ middle => exact ih middle
      | faulted fault middle => rfl

omit [Screen δ] in
/-- The last of several pops. -/
theorem popAll_succ (count : Nat) (cpu : Processor ρ δ) :
    cpu.popAll (count + 1) = (cpu.popAll count).andThen fun bytes middle =>
      middle.pop.andThen fun byte last => .done (bytes ++ [byte]) last := by
  induction count generalizing cpu with
  | zero =>
      simp only [popAll, Outcome.andThen]
      cases cpu.pop <;> rfl
  | succ count ih =>
      have hFirst (n : Nat) : cpu.popAll (n + 1) = cpu.pop.andThen fun byte middle =>
          (middle.popAll n).andThen fun bytes last => .done (byte :: bytes) last := rfl
      rw [hFirst, hFirst]
      cases cpu.pop with
      | faulted fault middle => rfl
      | done byte middle =>
          simp only [Outcome.andThen]
          rw [ih]
          cases middle.popAll count with
          | faulted fault last => rfl
          | done bytes last =>
              simp only [Outcome.andThen]
              cases last.pop <;> rfl

/-- A byte on top of which nothing is left is the next to come. -/
theorem StackBounded.exists_pop_under (h : cpu.StackBounded) {count : Nat} {byte : Byte}
    {pushed emptied : Processor ρ δ} (hMiddle : cpu.Stacked 1 middle)
    (hTop : ∀ address : Address, address.toNat = 0x100 + middle.sp.toNat →
      middle.memory.stored address = byte)
    (hPushed : middle.Stacked count pushed) (hEmptied : pushed.Unstacked count emptied) :
    ∃ popped, emptied.pop = .done byte popped ∧ emptied.Unstacked 1 popped := by
  have hSp : emptied.sp = middle.sp := UInt16.toNat_inj.mp (hEmptied.sp.trans hPushed.sp)
  have hMemory : emptied.memory = pushed.memory := by rw [hEmptied.rest]
  have hBound : emptied.StackBounded := by
    rw [StackBounded, hSp]
    exact hMiddle.stackBounded h
  have hItem : emptied.sp ≠ stackEmpty := by
    rw [hSp]
    exact hMiddle.sp_ne_stackEmpty h
  obtain ⟨popped, place, hPlace, hPop, hPopped⟩ := hBound.exists_pop hItem
  rw [hSp] at hPlace
  rw [hMemory, hPushed.stored place (.inr (Nat.le_of_eq hPlace.symm)), hTop place hPlace] at hPop
  exact ⟨popped, hPop, hPopped⟩

/-- Bytes for which there are places are pushed, and come back from the last one to the first. -/
theorem StackBounded.exists_pushAll (h : cpu.StackBounded) {bytes : List Byte}
    (hRoom : bytes.length ≤ cpu.sp.toNat) :
    ∃ pushed, cpu.pushAll bytes = .done () pushed ∧ cpu.Stacked bytes.length pushed ∧
      ∀ count ≤ bytes.length, ∃ popped,
        pushed.popAll count = .done (bytes.reverse.take count) popped ∧
          pushed.Unstacked count popped := by
  induction bytes generalizing cpu with
  | nil =>
      refine ⟨cpu, rfl, stacked_zero cpu, fun count hCount => ?_⟩
      obtain rfl := Nat.le_zero.mp hCount
      exact ⟨cpu, rfl, unstacked_zero cpu⟩
  | cons byte rest ih =>
      have hPlace : cpu.sp ≠ 0 := by
        intro hFull
        simp [hFull] at hRoom
      obtain ⟨middle, hPush, hMiddle, hTop⟩ := h.exists_push hPlace byte
      have hRest : rest.length ≤ middle.sp.toNat := by
        have hSp := hMiddle.sp
        rw [List.length_cons] at hRoom
        omega
      obtain ⟨pushed, hPushed, hStacked, hPopped⟩ := ih (hMiddle.stackBounded h) hRest
      refine ⟨pushed, ?_, hMiddle.trans hStacked, fun count hCount => ?_⟩
      · rw [pushAll, hPush]
        exact hPushed
      · rcases Nat.lt_or_eq_of_le hCount with hLess | rfl
        · have hWithin : count ≤ rest.length := Nat.le_of_lt_succ hLess
          rw [List.reverse_cons, List.take_append_of_le_length (by simpa using hWithin)]
          exact hPopped count hWithin
        · obtain ⟨emptied, hEmptied, hUnstacked⟩ := hPopped rest.length (Nat.le_refl _)
          obtain ⟨popped, hPop, hLast⟩ := h.exists_pop_under hMiddle hTop hStacked hUnstacked
          have hAll : rest.reverse.take rest.length = rest.reverse :=
            List.take_of_length_le (by simp)
          have hMore : (byte :: rest).reverse.take (byte :: rest).length =
              rest.reverse ++ [byte] := by
            rw [List.reverse_cons]
            exact List.take_of_length_le (by simp)
          refine ⟨popped, ?_, hUnstacked.trans hLast⟩
          rw [List.length_cons, popAll_succ, hEmptied, hAll, ← List.length_cons, hMore]
          simp [Outcome.andThen, hPop]

/-- Of more bytes than there are places, those are pushed for which there is one, and the next one
fails without a trace. -/
theorem StackBounded.exists_full (h : cpu.StackBounded) {bytes : List Byte}
    (hMany : cpu.sp.toNat < bytes.length) :
    ∃ full, cpu.pushAll (bytes.take cpu.sp.toNat) = .done () full ∧
      cpu.Stacked cpu.sp.toNat full ∧
      full.push bytes[cpu.sp.toNat] = .faulted .stackOverflow full ∧
      cpu.pushAll bytes = .faulted .stackOverflow full := by
  have hLength : (bytes.take cpu.sp.toNat).length = cpu.sp.toNat :=
    List.length_take_of_le (Nat.le_of_lt hMany)
  obtain ⟨full, hPushed, hStacked, -⟩ := h.exists_pushAll (Nat.le_of_eq hLength)
  rw [hLength] at hStacked
  have hFull : full.sp = 0 := by
    have hSp := hStacked.sp
    apply UInt16.toNat_inj.mp
    simp
    omega
  have hPush (byte : Byte) : full.push byte = .faulted .stackOverflow full := if_pos hFull
  refine ⟨full, hPushed, hStacked, hPush _, ?_⟩
  have hBytes : bytes = bytes.take cpu.sp.toNat ++
      bytes[cpu.sp.toNat] :: bytes.drop (cpu.sp.toNat + 1) := by
    rw [← List.drop_eq_getElem_cons, List.take_append_drop]
  rw [hBytes, pushAll_append, hPushed]
  simp [Outcome.andThen, pushAll, hPush]

theorem transferAll_append (front back : List Transfer) (cpu : Processor ρ δ) :
    cpu.transferAll (front ++ back) =
      (cpu.transferAll front).andThen fun _ middle => middle.transferAll back := by
  induction front generalizing cpu with
  | nil => rfl
  | cons transfer rest ih =>
      simp only [List.cons_append, transferAll]
      cases cpu.transfer transfer with
      | done _ middle => exact ih middle
      | faulted fault middle => rfl

/-- The registers are as they were, and so are the items on the stack and all other bytes but
those that lie in its free places. -/
structure Restored (cpu next : Processor ρ δ) : Prop where
  registers : next.toRegisters = cpu.toRegisters
  stored : ∀ address : Address, address.toNat < 0x100 ∨ 0x100 + cpu.sp.toNat ≤ address.toNat →
    next.memory.stored address = cpu.memory.stored address

section

omit [ByteSource ρ] [Screen δ]

/-- What is restored twice is restored. The free places do not count either time. -/
theorem Restored.trans (hFirst : cpu.Restored middle) (hSecond : middle.Restored next) :
    cpu.Restored next where
  registers := hSecond.registers.trans hFirst.registers
  stored address hElsewhere := by
    have hSp : middle.sp = cpu.sp := congrArg Registers.sp hFirst.registers
    rw [hSecond.stored address (by rwa [hSp]), hFirst.stored address hElsewhere]

theorem Restored.stackBounded (h : cpu.Restored next) (hStack : cpu.StackBounded) :
    next.StackBounded := by
  have hSp : next.sp = cpu.sp := congrArg Registers.sp h.registers
  rwa [StackBounded, hSp]

/-- A pop restores what was there before its push, if that was so in between. -/
theorem Stacked.restored {pushed emptied : Processor ρ δ} (hPushed : cpu.Stacked 1 pushed)
    (hInner : pushed.Restored emptied) (hPopped : emptied.Unstacked 1 next) :
    cpu.Restored next := by
  have hEmptied : emptied.sp = pushed.sp := congrArg Registers.sp hInner.registers
  have hSp : next.sp = cpu.sp := by
    apply UInt16.toNat_inj.mp
    rw [hPopped.sp, hEmptied, hPushed.sp]
  constructor
  · have hRegisters : next.toRegisters = { emptied.toRegisters with sp := next.sp } := by
      rw [hPopped.rest]
    rw [hRegisters, hInner.registers, hPushed.registers, hSp]
  · intro address hElsewhere
    have hMemory : next.memory = emptied.memory := by rw [hPopped.rest]
    have hPlace := hPushed.sp
    rw [hMemory, hInner.stored address (by omega), hPushed.stored address (by omega)]

end

/-- A push that comes through puts one byte on the stack. -/
theorem StackBounded.stacked_of_push (h : cpu.StackBounded) {byte : Byte}
    (hPush : cpu.push byte = .done () next) : cpu.Stacked 1 next := by
  obtain ⟨pushed, hPushed, hStacked, -⟩ := h.exists_push (push_eq_done hPush).1 byte
  cases hPushed.symm.trans hPush
  exact hStacked

omit [Screen δ] in
theorem unstacked_of_pop {byte : Byte} (hPop : cpu.pop = .done byte next) :
    cpu.Unstacked 1 next := by
  obtain ⟨hItem, -, rfl⟩ := pop_eq_done hPop
  refine ⟨?_, rfl⟩
  simp only [UInt16.lt_iff_toNat_lt, stackEmpty, UInt16.toNat_add, UInt16.reduceToNat] at hItem ⊢
  omega

/-- What is pushed and popped in balance restores the stack. -/
theorem StackBounded.restored (h : cpu.StackBounded) {transfers : List Transfer}
    (hBalanced : Balanced transfers) (hDone : cpu.transferAll transfers = .done () next) :
    cpu.Restored next := by
  induction hBalanced generalizing cpu next with
  | nil =>
      cases hDone
      exact ⟨rfl, fun _ _ => rfl⟩
  | around byte hInner hRest ihInner ihRest =>
      obtain ⟨_, pushed, hPush, hDone⟩ := Outcome.andThen_eq_done hDone
      rw [transferAll_append] at hDone
      obtain ⟨_, emptied, hEmptied, hDone⟩ := Outcome.andThen_eq_done hDone
      obtain ⟨_, popped, hTransfer, hDone⟩ := Outcome.andThen_eq_done hDone
      obtain ⟨_, last, hPop, hLast⟩ := Outcome.andThen_eq_done hTransfer
      cases hLast
      have hPushed := h.stacked_of_push hPush
      have hFirst := hPushed.restored (ihInner (hPushed.stackBounded h) hEmptied)
        (unstacked_of_pop hPop)
      exact hFirst.trans (ihRest (hFirst.stackBounded h) hDone)

end Processor

namespace Machine

variable {ρ δ κ : Type} [ByteSource ρ] [Screen δ] [Journal κ] {m : Machine ρ δ κ}

/-- Where there is a place, the status register goes onto the stack, all eight bits of it. -/
theorem exists_php (hOpcode : m.cpu.fetchByte.1 = 0x08) (hRoom : m.cpu.sp ≠ 0) :
    ∃ next, m.stepInstruction = .done () next ∧ next.cpu.sp = m.cpu.sp - 1 ∧
      next.cpu.memory.stored (stackBase + (m.cpu.sp - 1)) = m.cpu.p.toByte := by
  have hPhp : m.cpu.instruction.operation = .php :=
    (Processor.operation_of_opcode hOpcode).trans Catalog.operation_decode_php
  have hEffect : m.cpu.effect =
      { registers := { m.cpu.fetchByte.2.toRegisters with sp := m.cpu.sp - 1 }
        writes := [(stackBase + (m.cpu.sp - 1), m.cpu.p.toByte)] } := by
    have hSp : m.cpu.fetchByte.2.sp = m.cpu.sp := rfl
    simp only [Processor.effect, hPhp, Operation.action, Action.effect,
      Effect.ofPushes_singleton, hSp, if_neg hRoom]
    rfl
  obtain ⟨next, source, hDone, hRegisters, hMemory⟩ := exists_done hEffect
  refine ⟨next, hDone, congrArg Registers.sp hRegisters, ?_⟩
  simp [hMemory, Memory.writeAll]

/-- Where there is an item, the status register comes from the stack. -/
theorem exists_plp (hOpcode : m.cpu.fetchByte.1 = 0x28) (hItem : m.cpu.sp < stackEmpty) :
    ∃ next, m.stepInstruction = .done () next ∧ next.cpu.sp = m.cpu.sp + 1 ∧
      next.cpu.p = .ofByte (m.cpu.memory.stored (stackBase + m.cpu.sp)) := by
  have hPlp : m.cpu.instruction.operation = .plp :=
    (Processor.operation_of_opcode hOpcode).trans Catalog.operation_decode_plp
  have hEffect : m.cpu.effect =
      { registers := { m.cpu.fetchByte.2.toRegisters with
          sp := m.cpu.sp + 1
          p := .ofByte (m.cpu.memory.stored (stackBase + m.cpu.sp)) } } := by
    have hSp : m.cpu.fetchByte.2.sp = m.cpu.sp := rfl
    have hStored : m.cpu.fetchByte.2.memory.stored (stackBase + m.cpu.sp) =
        m.cpu.memory.stored (stackBase + m.cpu.sp) := Memory.stored_afterRead _ _ _
    simp only [Processor.effect, hPlp, Operation.action, Action.effect, hSp, hStored,
      if_neg (UInt16.not_le.mpr hItem)]
  obtain ⟨next, -, hDone, hRegisters, -⟩ := exists_done hEffect
  exact ⟨next, hDone, congrArg Registers.sp hRegisters, congrArg Registers.p hRegisters⟩

/-- The stack is last in, first out, and bounded. As many bytes as there are places are pushed and
come back in the reverse order, and at any time on the way nothing has changed but those places
and the stack pointer. Of more bytes, those come through for which there is a place, and the next
one fails without a trace. So the status register comes back with all its bits, as long as what
happens in between leaves its byte on top of the stack; whatever is pushed and popped there in
balance does. -/
theorem lastIn_firstOut (hStack : m.cpu.sp ≤ stackEmpty) :
    (∀ bytes : List Byte, bytes.length ≤ m.cpu.sp.toNat →
      (∀ count ≤ bytes.length, ∃ middle,
        m.cpu.pushAll (bytes.take count) = .done () middle ∧ m.cpu.Stacked count middle) ∧
      ∃ pushed, m.cpu.pushAll bytes = .done () pushed ∧ m.cpu.Stacked bytes.length pushed ∧
        ∀ count ≤ bytes.length, ∃ popped,
          pushed.popAll count = .done (bytes.reverse.take count) popped ∧
            pushed.Unstacked count popped) ∧
    (∀ (bytes : List Byte) (hMany : m.cpu.sp.toNat < bytes.length),
      ∃ full, m.cpu.pushAll (bytes.take m.cpu.sp.toNat) = .done () full ∧
        m.cpu.Stacked m.cpu.sp.toNat full ∧
        full.push bytes[m.cpu.sp.toNat] = .faulted .stackOverflow full ∧
        m.cpu.pushAll bytes = .faulted .stackOverflow full) ∧
    (m.cpu.fetchByte.1 = 0x08 → m.cpu.sp ≠ 0 →
      ∃ next, m.stepInstruction = .done () next ∧ next.cpu.sp = m.cpu.sp - 1 ∧
        (∀ transfers after, Balanced transfers →
          next.cpu.transferAll transfers = .done () after → next.cpu.Restored after) ∧
        ∀ later : Machine ρ δ κ, later.cpu.sp = next.cpu.sp →
          later.cpu.memory.stored (stackBase + next.cpu.sp) =
            next.cpu.memory.stored (stackBase + next.cpu.sp) →
          later.cpu.fetchByte.1 = 0x28 →
          ∃ resumed, later.stepInstruction = .done () resumed ∧
            resumed.cpu.sp = m.cpu.sp ∧ resumed.cpu.p = m.cpu.p) := by
  have hBounded : m.cpu.StackBounded := hStack
  refine ⟨fun bytes hRoom => ⟨fun count hCount => ?_, hBounded.exists_pushAll hRoom⟩,
    fun bytes => hBounded.exists_full, fun hOpcode hRoom => ?_⟩
  · have hLength : (bytes.take count).length = count := List.length_take_of_le hCount
    obtain ⟨middle, hPushed, hStacked, -⟩ :=
      hBounded.exists_pushAll (Nat.le_trans (Nat.le_of_eq hLength) (Nat.le_trans hCount hRoom))
    rw [hLength] at hStacked
    exact ⟨middle, hPushed, hStacked⟩
  · obtain ⟨next, hDone, hSp, hByte⟩ := exists_php hOpcode hRoom
    have hLess : m.cpu.sp - 1 < stackEmpty := by
      simp only [← UInt16.toNat_inj, ne_eq, stackEmpty, UInt16.le_iff_toNat_le,
        UInt16.lt_iff_toNat_lt, UInt16.toNat_sub, UInt16.reduceToNat] at hRoom hStack ⊢
      omega
    refine ⟨next, hDone, hSp, fun transfers after => ?_, fun later hLater hTop hReturn => ?_⟩
    · have hNext : next.cpu.StackBounded := by
        rw [Processor.StackBounded, hSp]
        exact UInt16.le_of_lt hLess
      exact hNext.restored
    · obtain ⟨resumed, hResumed, hEnd, hStatus⟩ := exists_plp hReturn (by rwa [hLater, hSp])
      refine ⟨resumed, hResumed, ?_, ?_⟩
      · rw [hEnd, hLater, hSp, UInt16.sub_add_cancel]
      · rw [hStatus, hLater, hTop, hSp, hByte, Status.ofByte_toByte]

/-- A stack with two places. A third byte finds it full; and behind a push and a pop on top of it,
the status register comes back to a program that has cleared it. -/
theorem lastIn_firstOut_third :
    ∃ (m next later resumed : Machine Congruential (Array (Address × Byte)) Unit)
      (after : Processor Congruential (Array (Address × Byte))),
      m.cpu.sp = 2 ∧ m.cpu.p = .ofByte 0xA5 ∧
      (∃ pushed popped, m.cpu.pushAll [0x11, 0x22] = .done () pushed ∧
        pushed.popAll 2 = .done [0x22, 0x11] popped) ∧
      (∃ full, m.cpu.pushAll [0x11, 0x22] = .done () full ∧
        full.push 0x33 = .faulted .stackOverflow full ∧
        m.cpu.pushAll [0x11, 0x22, 0x33] = .faulted .stackOverflow full) ∧
      m.stepInstruction = .done () next ∧
      next.cpu.transferAll [.push 0x77, .pop] = .done () after ∧ next.cpu.Restored after ∧
      later.cpu.memory = after.memory.write 0x0300 0x28 ∧ later.cpu.p = .ofByte 0 ∧
      later.stepInstruction = .done () resumed ∧ resumed.cpu.sp = 2 ∧
      resumed.cpu.p = .ofByte 0xA5 := by
  let m : Machine Congruential (Array (Address × Byte)) Unit :=
    around { sp := 2, p := .ofByte 0xA5,
             memory := (Memory.zero (.seeded 1) #[]).write 0x0200 0x08 } ()
  have hOpcode : m.cpu.fetchByte.1 = 0x08 := by
    show m.cpu.memory.value 0x0200 = 0x08
    rw [Memory.value_of_ne _ (by decide)]
    exact (Memory.stored_write _ _ _ _).trans (if_pos rfl)
  obtain ⟨hRoom, hMany, hStatus⟩ := lastIn_firstOut (m := m) (by decide)
  obtain ⟨-, pushed, hPushed, -, hBack⟩ := hRoom [0x11, 0x22] (by decide)
  obtain ⟨popped, hPopped, -⟩ := hBack 2 (by decide)
  obtain ⟨full, hFull, -, hThird, hAll⟩ := hMany [0x11, 0x22, 0x33] (by decide)
  obtain ⟨next, hDone, hSp, hBalance, hLater⟩ := hStatus hOpcode (by decide)
  have hNext : next.cpu.sp = 1 := hSp.trans (by show (2 : UInt16) - 1 = 1; decide)
  have hBounded : next.cpu.StackBounded := by
    rw [Processor.StackBounded, hNext]
    decide
  obtain ⟨top, hPush, hTop, -⟩ := hBounded.exists_push (by simp [hNext]) 0x77
  obtain ⟨after, _, -, hPop, -⟩ :=
    (hTop.stackBounded hBounded).exists_pop (hTop.sp_ne_stackEmpty hBounded)
  have hAfter : next.cpu.transferAll [.push 0x77, .pop] = .done () after := by
    simp [Processor.transferAll, Processor.transfer, hPush, hPop, Outcome.andThen]
  have hRestored := hBalance _ after (.around 0x77 .nil .nil) hAfter
  let later : Machine Congruential (Array (Address × Byte)) Unit :=
    { next with cpu := { after with
        p := .ofByte 0
        pc := 0x0300
        memory := after.memory.write 0x0300 0x28 } }
  have hByte : later.cpu.memory.stored (stackBase + next.cpu.sp) =
      next.cpu.memory.stored (stackBase + next.cpu.sp) := by
    rw [hNext]
    show (after.memory.write 0x0300 0x28).stored 0x0101 = next.cpu.memory.stored 0x0101
    rw [Memory.stored_write, if_neg (by decide)]
    exact hRestored.stored 0x0101 (.inr (by simp [hNext]))
  have hReturn : later.cpu.fetchByte.1 = 0x28 := by
    show (after.memory.write 0x0300 0x28).value 0x0300 = 0x28
    rw [Memory.value_of_ne _ (by decide)]
    exact (Memory.stored_write _ _ _ _).trans (if_pos rfl)
  have hAfterSp : after.sp = next.cpu.sp := congrArg Registers.sp hRestored.registers
  obtain ⟨resumed, hResumed, hEnd, hBits⟩ := hLater later hAfterSp hByte hReturn
  exact ⟨m, next, later, resumed, after, rfl, rfl, ⟨pushed, popped, hPushed, hPopped⟩,
    ⟨full, hFull, hThird, hAll⟩, hDone, hAfter, hRestored, rfl, rfl, hResumed, hEnd, hBits⟩

end Machine
end Micro6502
