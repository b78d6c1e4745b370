import Micro6502.Machine.Basic

/-! One step of the machine, taken apart once: what the processor does with the next
instruction, and what the machine keeps in its books about it. -/

namespace Micro6502

/-- Fetch, decode and execute one instruction. -/
def Processor.cycle {ρ δ : Type} [ByteSource ρ] [Screen δ] (cpu : Processor ρ δ) :
    Outcome (Processor ρ δ) Unit :=
  let (opcode, fetched) := cpu.fetchByte
  fetched.execute (Catalog.decode opcode)

/-- An attempt without a fault has come through. -/
theorem Outcome.eq_done_of_fault? {σ : Type} {outcome : Outcome σ Unit}
    (h : outcome.fault? = none) : outcome = .done () outcome.state := by
  cases outcome with
  | done _ state => rfl
  | faulted fault state => cases h

theorem Outcome.eq_faulted_of_fault? {σ : Type} {outcome : Outcome σ Unit} {fault : Fault}
    (h : outcome.fault? = some fault) : outcome = .faulted fault outcome.state := by
  cases outcome with
  | done _ state => cases h
  | faulted other state =>
      cases h
      rfl

namespace Machine

variable {ρ δ κ : Type} [ByteSource ρ] [Screen δ] [Journal κ]

/-- The journal once the next instruction has been fetched. -/
def tracedJournal (m : Machine ρ δ κ) : κ :=
  let (opcode, cpu) := m.cpu.fetchByte
  ({ m with cpu }.traceLine m.cpu.pc (Catalog.decode opcode)).journal

omit [ByteSource ρ] [Screen δ] in
/-- The line of a trace goes to the journal, and nothing else is done. -/
theorem traceLine_eq (m : Machine ρ δ κ) (address : Address) (d : Descriptor) :
    m.traceLine address d = { m with journal := (m.traceLine address d).journal } := by
  unfold traceLine
  split <;> rfl

/-- A step is a cycle of the processor with a line in the journal, if the machine traces,
and one instruction more on the counters, if there was no fault. -/
theorem stepInstruction_eq (m : Machine ρ δ κ) :
    m.stepInstruction = match m.cpu.cycle with
      | .done _ cpu => .done () { m with
          cpu
          journal := m.tracedJournal
          instructions := m.instructions + 1
          clock := m.clock.count }
      | .faulted fault cpu => .faulted fault { m with cpu, journal := m.tracedJournal } := by
  unfold stepInstruction Processor.cycle tracedJournal
  generalize m.cpu.fetchByte = fetch
  obtain ⟨opcode, fetched⟩ := fetch
  dsimp only
  generalize Catalog.decode opcode = d
  rewrite [traceLine_eq]
  cases fetched.execute d with
  | done value cpu => rfl
  | faulted fault cpu => rfl

theorem fault?_stepInstruction (m : Machine ρ δ κ) :
    m.stepInstruction.fault? = m.cpu.cycle.fault? := by
  rw [stepInstruction_eq]
  cases m.cpu.cycle with
  | done _ cpu => rfl
  | faulted fault cpu => rfl

section

variable {m next : Machine ρ δ κ}

theorem cycle_of_done (h : m.stepInstruction = .done () next) :
    m.cpu.cycle = .done () next.cpu := by
  rw [stepInstruction_eq] at h
  generalize m.cpu.cycle = outcome at h
  cases outcome with
  | done _ cpu =>
      cases h
      rfl
  | faulted fault cpu => cases h

/-- A fault leaves nothing in the books but the line of the trace. -/
theorem cycle_of_faulted {fault : Fault} (h : m.stepInstruction = .faulted fault next) :
    m.cpu.cycle = .faulted fault next.cpu ∧
      next = { m with cpu := next.cpu, journal := m.tracedJournal } := by
  rw [stepInstruction_eq] at h
  generalize m.cpu.cycle = outcome at h
  cases outcome with
  | done _ cpu => cases h
  | faulted fault cpu =>
      cases h
      exact ⟨rfl, rfl⟩

end

end Machine
end Micro6502
