import Micro6502.Proofs.Machine.Compile
import Micro6502.Proofs.Machine.Session

/-! What a host has told a machine, order by order, and the instructions that were executed on
its account. -/

namespace Micro6502

-- Nothing here depends on what the decoding table holds.
attribute [local irreducible] Catalog.decode

/-- What a host can tell a machine: a command, or a setting of what is reported about it. -/
inductive Order where
  | command (command : Command)
  | setTrace (trace : Bool)
  | tellTime (now : Float)

/-- The execution of one instruction: the processor in front of it, and the fault that it had,
if it had one. -/
structure Attempt (ρ δ : Type) where
  cpu : Processor ρ δ
  fault? : Option Fault

namespace Machine

variable {ρ δ κ : Type} [ByteSource ρ] [Screen δ] [Journal κ]

/-- Commands are answered, settings are not. -/
def follow (m : Machine ρ δ κ) : Order → Option Answer × Machine ρ δ κ
  | .command command =>
    let (answer, m) := m.obey command
    (some answer, m)
  | .setTrace trace => (none, m.setTrace trace)
  | .tellTime now => (none, m.tellTime now)

/-- Follow orders one after another, with the answers to those that are answered. -/
def followAll : List Order → Machine ρ δ κ → List Answer × Machine ρ δ κ
  | [], m => ([], m)
  | order :: rest, m =>
    let (answer, m) := m.follow order
    let (answers, m) := followAll rest m
    (answer.toList ++ answers, m)

/-- What the machine says when it is already running and is started again. -/
def runningMessage : Text := "Already running.".toList

/-- What the machine says when it has been halted and is started again. -/
def haltedMessage : Text := "Cannot run in error state. Please RESET first.".toList

/-- Instructions executed one after another: `count` of them, or as many as there are up to a
fault. -/
def batch : Nat → Machine ρ δ κ → List (Attempt ρ δ)
  | 0, _ => []
  | count + 1, m => match m.stepInstruction with
    | .done _ next => ⟨m.cpu, none⟩ :: batch count next
    | .faulted fault _ => [⟨m.cpu, some fault⟩]

/-- The instructions that a machine executes when it follows an order. -/
def attempts (m : Machine ρ δ κ) : Order → List (Attempt ρ δ)
  | .command .stepInstruction => m.batch 1
  | .command .step => if m.state = .idle then m.batch 1 else []
  | .command .tick => if m.state = .running then m.batch m.config.batchSize else []
  | _ => []

section

variable {m : Machine ρ δ κ}

/-- A step of an idle machine is a batch of one instruction. -/
theorem step_of_idle (h : m.state = .idle) : m.step = (runBatch 1 m).2 := by
  rw [step, h, runBatch_succ]
  cases m.stepInstruction with
  | done _ next => rfl
  | faulted fault next => rfl

theorem step_of_running (h : m.state = .running) : m.step = m.report runningMessage := by
  rw [step, h]
  rfl

theorem step_of_halted {fault : Fault} (h : m.state = .halted fault) :
    m.step = m.report haltedMessage := by
  rw [step, h]
  rfl

/-- A machine that is not idle is not stepped, and says why. -/
theorem step_of_ne (h : m.state ≠ .idle) : ∃ message, m.step = m.report message := by
  cases hState : m.state with
  | idle => exact absurd hState h
  | running => exact ⟨_, step_of_running hState⟩
  | halted fault => exact ⟨_, step_of_halted hState⟩

theorem tick_of_running (h : m.state = .running) : m.tick = runBatch m.config.batchSize m := by
  rw [tick, h]

/-- A machine that does not run answers that it does not, and is left alone. -/
theorem tick_of_ne (h : m.state ≠ .running) : m.tick = (false, m) := by
  unfold tick
  split
  next hState => exact absurd hState h
  next => rfl

omit [ByteSource ρ] [Screen δ]

theorem run_of_idle (h : m.state = .idle) :
    m.run = { m with state := .running, clock := m.clock.restart } := by
  rw [run, h]

theorem run_of_running (h : m.state = .running) : m.run = m.report runningMessage := by
  rw [run, h]
  rfl

theorem run_of_halted {fault : Fault} (h : m.state = .halted fault) :
    m.run = m.report haltedMessage := by
  rw [run, h]
  rfl

/-- To start a machine does nothing to its processor. -/
theorem cpu_run (m : Machine ρ δ κ) : m.run.cpu = m.cpu := by
  unfold run
  split <;> rfl

omit [Journal κ]

theorem stop_of_running (h : m.state = .running) : m.stop = { m with state := .idle } := by
  rw [stop, h]

theorem stop_of_ne (h : m.state ≠ .running) : m.stop = m := by
  unfold stop
  split
  next hState => exact absurd hState h
  next => rfl

theorem cpu_stop (m : Machine ρ δ κ) : m.stop.cpu = m.cpu := by
  unfold stop
  split <;> rfl

end

/-- A batch goes on as long as there are no faults. The instruction with the fault is the last in
it. -/
theorem batch_succ (count : Nat) (m : Machine ρ δ κ) :
    batch (count + 1) m = match m.stepInstruction with
      | .done _ next => ⟨m.cpu, none⟩ :: batch count next
      | .faulted fault _ => [⟨m.cpu, some fault⟩] := rfl

end Machine

/-- A property of processors that no access, no instruction and no setting destroys, and that
a reset establishes. -/
structure Processor.Invariant {ρ δ : Type} [ByteSource ρ] [Screen δ]
    (I : Processor ρ δ → Prop) : Prop where
  read : ∀ {cpu}, I cpu → ∀ address, I (cpu.read address).2
  write : ∀ {cpu}, I cpu → ∀ address byte, I (cpu.write address byte)
  cycle : ∀ {cpu}, I cpu → I cpu.cycle.state
  set : ∀ {cpu}, I cpu → ∀ setting : Setting, I (cpu.withRegisters setting.apply)
  reset : ∀ pc memory, I { pc, memory }

namespace Processor.Invariant

variable {ρ δ κ : Type} [ByteSource ρ] [Screen δ] [Journal κ] {I : Processor ρ δ → Prop}
  (hI : Processor.Invariant I) {m : Machine ρ δ κ}

include hI

omit [Journal κ] in
/-- An access of a machine is an access of its processor. -/
theorem keeps : Bus.Keeps fun m : Machine ρ δ κ => I m.cpu where
  read := fun h => hI.read h
  write := fun h => hI.write h

theorem stepInstruction (h : I m.cpu) : I m.stepInstruction.state.cpu := by
  have hCycle := hI.cycle h
  rw [Machine.stepInstruction_eq]
  generalize m.cpu.cycle = outcome at hCycle
  cases outcome with
  | done _ cpu => exact hCycle
  | faulted fault cpu => exact hCycle

/-- A batch keeps the property, by induction on the number of its instructions. -/
theorem runBatch (h : I m.cpu) (count : Nat) : I (Machine.runBatch count m).2.cpu := by
  induction count generalizing m with
  | zero => exact h
  | succ count ih =>
      have hStep := hI.stepInstruction h
      rw [Machine.runBatch_succ]
      generalize m.stepInstruction = outcome at hStep
      cases outcome with
      | done _ next => exact ih hStep
      | faulted fault next => exact hStep

/-- Every instruction of a batch is executed by a processor with the property. -/
theorem batch (h : I m.cpu) {count : Nat} {attempt : Attempt ρ δ}
    (hAttempt : attempt ∈ m.batch count) : I attempt.cpu := by
  induction count generalizing m with
  | zero => cases hAttempt
  | succ count ih =>
      have hStep := hI.stepInstruction h
      rw [Machine.batch_succ] at hAttempt
      generalize m.stepInstruction = outcome at hStep hAttempt
      cases outcome with
      | done _ next =>
          rcases List.mem_cons.mp hAttempt with rfl | hRest
          · exact h
          · exact ih hStep hRest
      | faulted fault next =>
          rw [List.mem_singleton.mp hAttempt]
          exact h

/-- Whatever order is followed, its instructions are executed by processors with the property. -/
theorem attempts (h : I m.cpu) {order : Order} {attempt : Attempt ρ δ}
    (hAttempt : attempt ∈ m.attempts order) : I attempt.cpu := by
  unfold Machine.attempts at hAttempt
  split at hAttempt
  · exact hI.batch h hAttempt
  · split at hAttempt
    · exact hI.batch h hAttempt
    · cases hAttempt
  · split at hAttempt
    · exact hI.batch h hAttempt
    · cases hAttempt
  · cases hAttempt

/-- Loading a program keeps the property: it stores bytes and sets the program counter. -/
theorem accept (h : I m.cpu) (program : Assembly.Program) : I (m.accept program).cpu := by
  have hReported : I (m.report "Compilation complete.".toList).cpu := h
  have hLoaded := hI.keeps.load hReported program
  unfold Machine.accept
  cases program.origin with
  | none => exact hLoaded
  | some address => exact hI.set hLoaded (.pc address)

theorem compile (h : I m.cpu) (assembler : Assembly.Assembler) (source : Text) :
    I (m.compile assembler source).2.1.cpu := by
  obtain ⟨messages, program?, hCompile⟩ :=
    Machine.exists_compile_eq (ρ := ρ) (δ := δ) (κ := κ) assembler source
  rw [(hCompile m).2, Machine.foldl_report]
  cases program? with
  | none => exact h
  | some program =>
      apply hI.accept
      exact h

/-- No command destroys the property. -/
theorem obey (h : I m.cpu) (command : Command) : I (m.obey command).2.cpu := by
  cases command with
  | poke address byte => exact hI.write h address byte
  | peek address => exact hI.read h address
  | peekWord address => exact hI.keeps.readWord h address
  | set setting => exact hI.set h setting
  | step =>
      cases hState : m.state with
      | idle =>
          simp only [Machine.obey, Machine.step_of_idle hState]
          exact hI.runBatch h 1
      | running =>
          simp only [Machine.obey, Machine.step_of_running hState]
          exact h
      | halted fault =>
          simp only [Machine.obey, Machine.step_of_halted hState]
          exact h
  | stepInstruction => exact hI.stepInstruction h
  | run =>
      simp only [Machine.obey, Machine.cpu_run]
      exact h
  | tick =>
      by_cases hState : m.state = .running
      · simp only [Machine.obey, Machine.tick_of_running hState]
        exact hI.runBatch h _
      · simp only [Machine.obey, Machine.tick_of_ne hState]
        exact h
  | stop =>
      simp only [Machine.obey, Machine.cpu_stop]
      exact h
  | reset => exact hI.reset _ _
  | compile assembler source => exact hI.compile h assembler source
  | decompile start limit => exact hI.keeps.decompile h start limit
  | dump start limit => exact hI.keeps.dump h start limit

theorem follow (h : I m.cpu) (order : Order) : I (m.follow order).2.cpu := by
  cases order with
  | command command => exact hI.obey h command
  | setTrace trace => exact h
  | tellTime now => exact h

theorem followAll (h : I m.cpu) (orders : List Order) : I (Machine.followAll orders m).2.cpu := by
  induction orders generalizing m with
  | nil => exact h
  | cons order rest ih => exact ih (hI.follow h order)

end Processor.Invariant
end Micro6502
