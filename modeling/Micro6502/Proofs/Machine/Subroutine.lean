import Micro6502.Proofs.Machine.Effect

/-! Calls and returns. A call leaves on the stack the way back behind itself, and as long as
nothing is lost from the stack, returns lead back from one call after another. -/

namespace Micro6502

theorem Catalog.operation_decode_jsr : (decode 0x20).operation = .jsr := by decide +kernel

theorem Catalog.operation_decode_rts : (decode 0x60).operation = .rts := by decide +kernel

-- Nothing else here depends on what the decoding table holds.
attribute [local irreducible] Catalog.decode

theorem sub_two_le {sp : UInt16} (hStack : sp ≤ stackEmpty) (hRoom : 2 ≤ sp) : sp - 2 ≤ 0xFE := by
  rw [UInt16.le_iff_toNat_le, UInt16.toNat_sub_of_le _ _ hRoom]
  exact Nat.sub_le_sub_right (UInt16.le_iff_toNat_le.mp hStack) 2

namespace Memory

variable {ρ δ : Type} {memory other : Memory ρ δ}

/-- The stack leads back behind the calls at `places`, the latest of them first. -/
def LeadsBack (memory : Memory ρ δ) : UInt16 → List Address → Prop
  | _, [] => True
  | sp, place :: rest =>
    sp ≤ 0xFE ∧ memory.storedWord (stackBase + sp) = place + 2 ∧ memory.LeadsBack (sp + 2) rest

/-- What lies below the top of the stack does not count. -/
theorem LeadsBack.congr {sp : UInt16} {places : List Address}
    (hSame : ∀ offset, sp ≤ offset → offset < stackEmpty →
      other.stored (stackBase + offset) = memory.stored (stackBase + offset))
    (h : memory.LeadsBack sp places) : other.LeadsBack sp places := by
  induction places generalizing sp with
  | nil => trivial
  | cons place rest ih =>
      obtain ⟨hItems, hWord, hRest⟩ := h
      have hFirst : sp < stackEmpty := by grind [stackEmpty]
      have hSecond : sp ≤ sp + 1 ∧ sp + 1 < stackEmpty := by
        simp only [stackEmpty, UInt16.le_iff_toNat_le, UInt16.lt_iff_toNat_lt, UInt16.toNat_add,
          UInt16.reduceToNat] at hItems ⊢
        omega
      have hAbove : ∀ offset, sp + 2 ≤ offset → sp ≤ offset := by
        intro offset h
        simp only [UInt16.le_iff_toNat_le, UInt16.toNat_add, UInt16.reduceToNat] at hItems h ⊢
        omega
      have hSameWord : other.storedWord (stackBase + sp) = memory.storedWord (stackBase + sp) := by
        rw [storedWord, storedWord, UInt16.add_assoc, hSame sp (UInt16.le_refl sp) hFirst,
          hSame (sp + 1) hSecond.1 hSecond.2]
      exact ⟨hItems, hSameWord.trans hWord,
        ih (fun offset h => hSame offset (hAbove offset h)) hRest⟩

/-- A word below the top leads back behind one call more. -/
theorem LeadsBack.cons {sp : UInt16} {place : Address} {places : List Address}
    (hStack : sp ≤ stackEmpty) (hRoom : 2 ≤ sp)
    (hWord : other.storedWord (stackBase + (sp - 2)) = place + 2)
    (hOther : ∀ offset, offset ≠ sp - 1 → offset ≠ sp - 2 →
      other.stored (stackBase + offset) = memory.stored (stackBase + offset))
    (h : memory.LeadsBack sp places) : other.LeadsBack (sp - 2) (place :: places) := by
  have hBelow : ∀ offset, sp ≤ offset → offset ≠ sp - 1 ∧ offset ≠ sp - 2 := by
    intro offset hAbove
    simp only [ne_eq, UInt16.le_iff_toNat_le, ← UInt16.toNat_inj, UInt16.toNat_sub,
      UInt16.reduceToNat] at hRoom hAbove ⊢
    omega
  refine ⟨sub_two_le hStack hRoom, hWord, ?_⟩
  rw [UInt16.sub_add_cancel]
  exact h.congr fun offset hAbove _ =>
    hOther offset (hBelow offset hAbove).1 (hBelow offset hAbove).2

end Memory

namespace Machine

variable {ρ δ κ : Type} [ByteSource ρ] [Screen δ] [Journal κ] {m next : Machine ρ δ κ}

/-- A call comes through if there are two places, and they lead back behind it. -/
theorem exists_call (hOpcode : m.cpu.fetchByte.1 = 0x20) (hRoom : 2 ≤ m.cpu.sp) :
    ∃ next, m.stepInstruction = .done () next ∧ next.cpu.sp = m.cpu.sp - 2 ∧
      next.cpu.memory.storedWord (stackBase + (m.cpu.sp - 2)) = m.cpu.pc + 2 ∧
      ∀ offset, offset ≠ m.cpu.sp - 1 → offset ≠ m.cpu.sp - 2 →
        next.cpu.memory.stored (stackBase + offset) =
          m.cpu.memory.stored (stackBase + offset) := by
  have hJsr : m.cpu.instruction.operation = .jsr :=
    (Processor.operation_of_opcode hOpcode).trans Catalog.operation_decode_jsr
  have hEffect : m.cpu.effect =
      { registers := { m.cpu.fetchByte.2.fetchWord.2.toRegisters with sp := m.cpu.sp - 2 }
        writes := [(stackBase + (m.cpu.sp - 1), highByte (m.cpu.pc + 2)),
          (stackBase + (m.cpu.sp - 2), lowByte (m.cpu.pc + 2))] } := by
    have hFirst : m.cpu.sp ≠ 0 := by grind
    have hSecond : m.cpu.sp ≠ 1 := by grind
    have hSp : m.cpu.fetchByte.2.fetchWord.2.sp = m.cpu.sp := rfl
    unfold Processor.effect
    simp only [hJsr, Operation.action, Action.effect, Processor.pc_fetchWord_fetchByte,
      Effect.ofPushes_pair, hSp, if_neg hFirst, if_neg hSecond]
  obtain ⟨next, source, hDone, hRegisters, hMemory⟩ := exists_done hEffect
  refine ⟨next, hDone, congrArg Registers.sp hRegisters, ?_, fun offset hFirst hSecond => ?_⟩
  · rw [hMemory]
    have hNext : stackBase + (m.cpu.sp - 2) + 1 = stackBase + (m.cpu.sp - 1) := by grind
    simp [Memory.storedWord, Memory.writeAll, hNext]
  · rw [hMemory]
    simp [Memory.writeAll, hFirst, hSecond]

/-- A return comes through if there are two items, and it goes where they lead. -/
theorem exists_return (hOpcode : m.cpu.fetchByte.1 = 0x60) (hItems : m.cpu.sp ≤ 0xFE) :
    ∃ resumed, m.stepInstruction = .done () resumed ∧
      resumed.cpu.pc = m.cpu.memory.storedWord (stackBase + m.cpu.sp) + 1 ∧
      resumed.cpu.sp = m.cpu.sp + 2 ∧
      ∀ address, resumed.cpu.memory.stored address = m.cpu.memory.stored address := by
  have hRts : m.cpu.instruction.operation = .rts :=
    (Processor.operation_of_opcode hOpcode).trans Catalog.operation_decode_rts
  have hEffect : m.cpu.effect =
      { registers := { m.cpu.fetchByte.2.toRegisters with sp := m.cpu.sp + 2 } } := by
    have hFirst : ¬ stackEmpty ≤ m.cpu.sp := by grind [stackEmpty]
    have hSecond : m.cpu.sp ≠ 0xFF := by grind
    have hSp : m.cpu.fetchByte.2.sp = m.cpu.sp := rfl
    unfold Processor.effect
    simp only [hRts, Operation.action, Action.effect, Effect.ofPops_two, hSp, if_neg hFirst,
      if_neg hSecond]
  obtain ⟨next, source, hDone, hRegisters, hMemory⟩ := exists_done hEffect
  refine ⟨next, hDone, ?_, congrArg Registers.sp hRegisters, fun address => ?_⟩
  · have hSuccessor := (Processor.successor_of_cycle (cycle_of_done hDone)).2
    rw [hSuccessor]
    show m.cpu.successor m.cpu.instruction = _
    simp only [Processor.successor, hRts, Operation.action]
  · rw [hMemory]
    rfl

/-- The same items on the stack; below its top, anything may have changed. -/
structure SameItems (m later : Machine ρ δ κ) : Prop where
  sp : later.cpu.sp = m.cpu.sp
  stored : ∀ offset, m.cpu.sp ≤ offset → offset < stackEmpty →
    later.cpu.memory.stored (stackBase + offset) = m.cpu.memory.stored (stackBase + offset)

/-- Returns lead back behind the calls at `places`, one after another, whatever happens in front
of each of them, as long as it finds the items that were there. -/
def Unwinds : List Address → Machine ρ δ κ → Prop
  | [], _ => True
  | place :: rest, m =>
    ∀ later, m.SameItems later → later.cpu.fetchByte.1 = 0x60 →
      ∃ resumed, later.stepInstruction = .done () resumed ∧ resumed.cpu.pc = place + 3 ∧
        resumed.cpu.sp = m.cpu.sp + 2 ∧ Unwinds rest resumed

/-- Inside the calls at `places`, as many more calls as `depth` come through, with anything in
front of each of them that leaves the items alone, and returns lead back behind all of them. -/
def Nests : Nat → List Address → Machine ρ δ κ → Prop
  | 0, places, m => m.Unwinds places
  | depth + 1, places, m =>
    ∀ front, m.SameItems front → front.cpu.fetchByte.1 = 0x20 →
      ∃ next, front.stepInstruction = .done () next ∧ next.cpu.sp = m.cpu.sp - 2 ∧
        Nests depth (front.cpu.pc :: places) next

omit [ByteSource ρ] [Screen δ] [Journal κ] in
theorem SameItems.leadsBack {later : Machine ρ δ κ} {places : List Address}
    (h : m.SameItems later) (hBack : m.cpu.memory.LeadsBack m.cpu.sp places) :
    later.cpu.memory.LeadsBack later.cpu.sp places := by
  rw [h.sp]
  exact hBack.congr h.stored

/-- A return takes the latest call away. -/
theorem unwinds_of_leadsBack {places : List Address}
    (h : m.cpu.memory.LeadsBack m.cpu.sp places) : m.Unwinds places := by
  induction places generalizing m with
  | nil => trivial
  | cons place rest ih =>
      intro later hSame hOpcode
      obtain ⟨hItems, hWord, hRest⟩ := hSame.leadsBack h
      obtain ⟨resumed, hDone, hPc, hSp, hStored⟩ := exists_return hOpcode hItems
      refine ⟨resumed, hDone, ?_, by rw [hSp, hSame.sp], ih ?_⟩
      · rw [hPc, hWord]
        grind
      · rw [hSp]
        exact hRest.congr fun offset _ _ => hStored _

/-- Each call takes two places and leads back to where the others do, by induction on how many are
still to come. -/
theorem nests_of_leadsBack {depth : Nat} {places : List Address}
    (hStack : m.cpu.sp ≤ stackEmpty) (hRoom : 2 * depth ≤ m.cpu.sp.toNat)
    (h : m.cpu.memory.LeadsBack m.cpu.sp places) : m.Nests depth places := by
  -- What the stack leads back to is the invariant: it survives what is done in front of a call,
  -- and the call adds itself to it.
  induction depth generalizing m places with
  | zero => exact unwinds_of_leadsBack h
  | succ depth ih =>
      intro front hSame hOpcode
      have hFront := hSame.leadsBack h
      rw [← hSame.sp] at hStack hRoom ⊢
      have hTwo : 2 ≤ front.cpu.sp :=
        UInt16.le_iff_toNat_le.mpr (Nat.le_trans (Nat.le_add_left 2 (2 * depth)) hRoom)
      obtain ⟨next, hDone, hSp, hWord, hOther⟩ := exists_call hOpcode hTwo
      refine ⟨next, hDone, hSp, ih ?_ ?_ ?_⟩
      · rw [hSp]
        exact UInt16.le_trans (sub_two_le hStack hTwo) (by decide)
      · rw [hSp, UInt16.toNat_sub_of_le _ _ hTwo]
        exact Nat.le_sub_of_add_le hRoom
      · rw [hSp]
        exact hFront.cons hStack hTwo hWord hOther

/-- Calls and returns are bracketed. After a call, any return that finds the stack pointer where
the call left it, over the two bytes that the call stored, leads back behind the call. As many
calls as there are pairs of places on the stack can be nested, wherever they lie. -/
theorem calls_bracketed (hStack : m.cpu.sp ≤ stackEmpty) :
    (m.cpu.fetchByte.1 = 0x20 → 2 ≤ m.cpu.sp →
      ∃ next, m.stepInstruction = .done () next ∧ next.cpu.sp = m.cpu.sp - 2 ∧
        ∀ later : Machine ρ δ κ, later.cpu.sp = m.cpu.sp - 2 →
          later.cpu.memory.stored (stackBase + (m.cpu.sp - 2)) =
            next.cpu.memory.stored (stackBase + (m.cpu.sp - 2)) →
          later.cpu.memory.stored (stackBase + (m.cpu.sp - 1)) =
            next.cpu.memory.stored (stackBase + (m.cpu.sp - 1)) →
          later.cpu.fetchByte.1 = 0x60 →
          ∃ resumed, later.stepInstruction = .done () resumed ∧
            resumed.cpu.pc = m.cpu.pc + 3 ∧ resumed.cpu.sp = m.cpu.sp) ∧
    ∀ depth, 2 * depth ≤ m.cpu.sp.toNat → m.Nests depth [] := by
  refine ⟨fun hOpcode hRoom => ?_, fun depth hDepth => nests_of_leadsBack hStack hDepth trivial⟩
  obtain ⟨next, hDone, hSp, hWord, -⟩ := exists_call hOpcode hRoom
  refine ⟨next, hDone, hSp, fun later hLater hLow hHigh hReturn => ?_⟩
  have hItems : later.cpu.sp ≤ 0xFE := by
    rw [hLater]
    exact sub_two_le hStack hRoom
  have hSecond : stackBase + (m.cpu.sp - 2) + 1 = stackBase + (m.cpu.sp - 1) := by grind
  have hSame : later.cpu.memory.storedWord (stackBase + later.cpu.sp) = m.cpu.pc + 2 := by
    rw [← hWord, hLater, Memory.storedWord, Memory.storedWord, hSecond, hLow, hHigh]
  obtain ⟨resumed, hResumed, hPc, hTop, -⟩ := exists_return hReturn hItems
  refine ⟨resumed, hResumed, ?_, ?_⟩
  · rw [hPc, hSame]
    grind
  · rw [hTop, hLater, UInt16.sub_add_cancel]

/-- A call whose last byte is the first of the memory, and a return to the byte behind that. -/
theorem calls_bracketed_wrapped :
    ∃ m next later resumed : Machine Congruential (Array (Address × Byte)) Unit,
      m.cpu.pc = 0xFFFE ∧ m.cpu.sp = stackEmpty ∧ m.stepInstruction = .done () next ∧
      later.cpu.pc = 0x0300 ∧ later.stepInstruction = .done () resumed ∧
      resumed.cpu.pc = 0x0001 ∧ resumed.cpu.sp = stackEmpty ∧ m.Nests 128 [] := by
  let m : Machine Congruential (Array (Address × Byte)) Unit :=
    around { pc := 0xFFFE, memory := (Memory.zero (.seeded 1) #[]).write 0xFFFE 0x20 } ()
  have hStack : m.cpu.sp ≤ stackEmpty := UInt16.le_refl _
  have hCall : m.cpu.fetchByte.1 = 0x20 := by
    show m.cpu.memory.value 0xFFFE = 0x20
    rw [Memory.value_of_ne _ (by decide)]
    exact (Memory.stored_write _ _ _ _).trans (if_pos rfl)
  have hBehind : m.cpu.pc + 3 = 0x0001 := by
    show (0xFFFE : Address) + 3 = 0x0001
    decide
  obtain ⟨hBracket, hNests⟩ := calls_bracketed hStack
  obtain ⟨next, hDone, hSp, hReturns⟩ := hBracket hCall (by decide)
  let later : Machine Congruential (Array (Address × Byte)) Unit :=
    { next with cpu := { next.cpu with
        pc := 0x0300
        memory := next.cpu.memory.write 0x0300 0x60 } }
  have hReturn : later.cpu.fetchByte.1 = 0x60 := by
    show later.cpu.memory.value 0x0300 = 0x60
    rw [Memory.value_of_ne _ (by decide), Memory.stored_write, if_pos rfl]
  obtain ⟨resumed, hResumed, hPc, hTop⟩ := hReturns later hSp
    ((Memory.stored_write _ _ _ _).trans (if_neg (by decide)))
    ((Memory.stored_write _ _ _ _).trans (if_neg (by decide))) hReturn
  exact ⟨m, next, later, resumed, rfl, rfl, hDone, rfl, hResumed, hPc.trans hBehind, hTop,
    hNests 128 (by decide)⟩

end Machine
end Micro6502
