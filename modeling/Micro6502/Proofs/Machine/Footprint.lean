import Mathlib.Data.List.Basic
import Micro6502.Proofs.Machine.Effect

/-! Where an instruction stores. It stores at the address that it computed, or at the places
under the top of the stack, or nowhere; and the screen is told of what it stored in the display
window. -/

namespace Micro6502

-- Nothing here depends on what the decoding table holds.
attribute [local irreducible] Catalog.decode

namespace Memory

variable {ρ δ : Type} [Screen δ] {memory : Memory ρ δ}

theorem stored_writeAll_of_notMem {writes : List (Address × Byte)} {address : Address}
    (h : address ∉ writes.map Prod.fst) :
    (memory.writeAll writes).stored address = memory.stored address := by
  induction writes generalizing memory with
  | nil => rfl
  | cons write rest ih =>
      simp only [List.map_cons, List.mem_cons, not_or] at h
      rw [writeAll, ih h.2, stored_write, if_neg h.1]

/-- Nothing is overwritten where the addresses are distinct. -/
theorem stored_writeAll_of_mem {writes : List (Address × Byte)}
    (hDistinct : (writes.map Prod.fst).Nodup) {write : Address × Byte} (h : write ∈ writes) :
    (memory.writeAll writes).stored write.1 = write.2 := by
  induction writes generalizing memory with
  | nil => cases h
  | cons first rest ih =>
      obtain ⟨hFirst, hRest⟩ := List.nodup_cons.mp hDistinct
      rcases List.mem_cons.mp h with rfl | hLater
      · rw [writeAll, stored_writeAll_of_notMem hFirst, stored_write, if_pos rfl]
      · exact ih hRest hLater

/-- The screen is told of the bytes that are stored in the window, in order. -/
theorem screen_writeAll (writes : List (Address × Byte)) :
    (memory.writeAll writes).screen =
      (writes.filter fun write => inWindow write.1).foldl
        (fun screen write => Screen.paint screen write.1 write.2) memory.screen := by
  induction writes generalizing memory with
  | nil => rfl
  | cons write rest ih =>
      rw [writeAll, ih, List.filter_cons]
      simp only [Memory.write]
      split <;> rfl

end Memory

/-- The addresses at which an instruction stores, in order, if its effective address is `place`
and the stack pointer is `sp`. -/
def Descriptor.storesAt (d : Descriptor) (place : Address) (sp : UInt16) : List Address :=
  match d.operation with
  | .sta | .stx | .sty | .inc | .dec => [place]
  | .asl | .lsr | .rol | .ror => if d.mode = .implied then [] else [place]
  | .pha | .php => [stackBase + (sp - 1)]
  | .jsr => [stackBase + (sp - 1), stackBase + (sp - 2)]
  | _ => []

/-- No instruction stores twice at one address. The two places of a call differ, also if the stack
pointer wraps. -/
theorem Descriptor.nodup_storesAt (d : Descriptor) (place : Address) (sp : UInt16) :
    (d.storesAt place sp).Nodup := by
  obtain ⟨operation, mode, opcode, size⟩ := d
  cases operation with
  | asl | lsr | rol | ror =>
      unfold storesAt
      dsimp only
      split <;> simp
  | jsr =>
      have hPlaces : stackBase + (sp - 1) ≠ stackBase + (sp - 2) := by simp
      simp [storesAt, hPlaces]
  | _ => simp [storesAt]

namespace Processor

variable {ρ δ : Type} [ByteSource ρ] [Screen δ] {cpu : Processor ρ δ}

/-- The addresses at which the instruction at the program counter stores. -/
def footprint (cpu : Processor ρ δ) : List Address :=
  cpu.instruction.storesAt cpu.operandAddress cpu.sp

/-- An instruction without a fault stores at all places of its footprint and at no others, in that
order. -/
theorem map_writes_effect (h : cpu.effect.fault? = none) :
    cpu.effect.writes.map Prod.fst = cpu.footprint := by
  unfold footprint operandAddress
  unfold effect at h ⊢
  have hSp : cpu.fetchByte.2.sp = cpu.sp := rfl
  rw [← hSp]
  generalize cpu.instruction = d, cpu.fetchByte.2 = fetched at h ⊢
  obtain ⟨operation, mode, opcode, size⟩ := d
  cases operation with
  | asl | lsr | rol | ror =>
      simp only [Operation.action, Action.effect, Descriptor.storesAt]
      split <;> rfl
  | pha | php =>
      simp only [Operation.action, Action.effect, Effect.ofPushes_singleton] at h ⊢
      split at h
      · cases h
      next hRoom =>
        rw [if_neg hRoom]
        rfl
  | jsr =>
      simp only [Operation.action, Action.effect, Effect.ofPushes_pair] at h ⊢
      split at h
      · cases h
      next hFirst =>
        split at h
        · cases h
        next hSecond =>
          rw [if_neg hFirst, if_neg hSecond]
          rfl
  | pla | plp =>
      simp only [Operation.action, Action.effect]
      split <;> rfl
  | rts =>
      simp only [Operation.action, Action.effect, Effect.writes_ofPops]
      rfl
  | _ => rfl

theorem nodup_writes_effect (h : cpu.effect.fault? = none) :
    (cpu.effect.writes.map Prod.fst).Nodup := by
  rw [map_writes_effect h]
  exact Descriptor.nodup_storesAt _ _ _

end Processor

namespace Machine

variable {ρ δ κ : Type} [ByteSource ρ] [Screen δ] [Journal κ] {m next : Machine ρ δ κ}

/-- A step changes the bytes at the addresses of its instruction and no others. The screen is
told once of each of them that lies in the display window, in order and with the byte that is
there from then on. -/
theorem stepInstruction_footprint (h : m.stepInstruction = .done () next) :
    (∀ address ∉ m.cpu.footprint,
      next.cpu.memory.stored address = m.cpu.memory.stored address) ∧
    next.cpu.memory.screen = (m.cpu.footprint.filter fun address => inWindow address).foldl
      (fun screen address => Screen.paint screen address (next.cpu.memory.stored address))
      m.cpu.memory.screen := by
  obtain ⟨hFault, -, source, hMemory⟩ := effect_of_done h
  have hPlaces := Processor.map_writes_effect hFault
  have hDistinct := Processor.nodup_writes_effect hFault
  constructor
  · intro address hOther
    rw [hMemory, Memory.stored_writeAll_of_notMem (by rwa [hPlaces]), Memory.stored_withSource]
  · rw [← hPlaces, List.filter_map, List.foldl_map, hMemory, Memory.screen_writeAll,
      Memory.screen_withSource]
    refine List.foldl_ext _ _ _ fun screen write hWrite => ?_
    rw [Memory.stored_writeAll_of_mem hDistinct (List.mem_filter.mp hWrite).1]

/-- A store through a pointer to the byte in front of the display window, one place on. -/
theorem stepInstruction_footprint_window :
    ∃ m next : Machine Congruential (Array (Address × Byte)) Unit,
      m.stepInstruction = .done () next ∧ m.cpu.footprint = [0xFC00] ∧
      next.cpu.memory.screen = #[(0xFC00, 0x07)] ∧
      (∀ address ∉ m.cpu.footprint,
        next.cpu.memory.stored address = m.cpu.memory.stored address) ∧
      next.cpu.memory.screen = (m.cpu.footprint.filter fun address => inWindow address).foldl
        (fun screen address => Screen.paint screen address (next.cpu.memory.stored address))
        m.cpu.memory.screen := by
  obtain ⟨m, hDone, hPlaces, hScreen⟩ :
      ∃ m : Machine Congruential (Array (Address × Byte)) Unit,
        m.stepInstruction.fault? = none ∧ m.cpu.footprint = [0xFC00] ∧
        m.stepInstruction.state.cpu.memory.screen = #[(0xFC00, 0x07)] := by
    let idle : Machine Congruential (Array (Address × Byte)) Unit :=
      around { a := 0x07, y := 0x01, memory := .zero (.seeded 1) #[] } ()
    refine ⟨Bus.writeBytes (Bus.writeBytes idle 0x0200 [0x91, 0x10]) 0x0010 [0xFF, 0xFB], ?_⟩
    decide +kernel
  have hStep := Outcome.eq_done_of_fault? hDone
  obtain ⟨hStored, hTold⟩ := stepInstruction_footprint hStep
  exact ⟨m, _, hStep, hPlaces, hScreen, hStored, hTold⟩

end Machine
end Micro6502
