import Micro6502.Proofs.Machine.Step

/-! Batches against single steps. Two machines with the same processor, books and settings
do the same work, whatever drives them; so a machine that is ticked and one that is stepped
stay together instruction by instruction, also across a fault in the middle of a batch. -/

namespace Micro6502.Machine

variable {ρ δ κ : Type} [ByteSource ρ] [Screen δ] [Journal κ]

/-- At most `count` single steps. The one that halts the machine is the last. -/
def steps : Nat → Machine ρ δ κ → Machine ρ δ κ
  | 0, m => m
  | count + 1, m => match m.state with
    | .halted _ => m
    | .idle | .running => steps count m.step

/-- Successive ticks, with what each of them answered. -/
def ticks : Nat → Machine ρ δ κ → List Bool × Machine ρ δ κ
  | 0, m => ([], m)
  | count + 1, m =>
    let (alive, m) := m.tick
    let (answers, m) := ticks count m
    (alive :: answers, m)

/-- Two machines that differ in their run states and their clocks at most. -/
structure SameWork (batched stepped : Machine ρ δ κ) : Prop where
  cpu : batched.cpu = stepped.cpu
  journal : batched.journal = stepped.journal
  config : batched.config = stepped.config
  instructions : batched.instructions = stepped.instructions

/-- A machine that runs in batches next to one that is stepped, when the last batch has
given the answer `alive`. -/
inductive InStep (batched stepped : Machine ρ δ κ) : (alive : Bool) → Prop
  | working (hSame : SameWork batched stepped) (hBatched : batched.state = .running)
      (hStepped : stepped.state = .idle) : InStep batched stepped true
  | halted {fault : Fault} (hSame : SameWork batched stepped)
      (hBatched : batched.state = .halted fault) (hStepped : stepped.state = .halted fault) :
      InStep batched stepped false

-- To see that both sides agree takes a look into the decoding table.
set_option maxRecDepth 2000 in
/-- A batch is one instruction and a smaller batch, unless the instruction faults. -/
theorem runBatch_succ (count : Nat) (m : Machine ρ δ κ) :
    runBatch (count + 1) m = match m.stepInstruction with
      | .done _ m => runBatch count m
      | .faulted fault m => (false, m.halt fault) := rfl

variable {batched stepped : Machine ρ δ κ} {alive : Bool}

/-- The same work goes on for one instruction, and neither run state has a part in it. -/
theorem SameWork.stepInstruction (h : SameWork batched stepped) :
    (∃ next other, batched.stepInstruction = .done () next ∧
      stepped.stepInstruction = .done () other ∧ SameWork next other ∧
      next.state = batched.state ∧ other.state = stepped.state) ∨
    ∃ fault next other, batched.stepInstruction = .faulted fault next ∧
      stepped.stepInstruction = .faulted fault other ∧ SameWork next other := by
  have hJournal : batched.tracedJournal = stepped.tracedJournal := by
    simp only [tracedJournal, traceLine, report, h.cpu, h.journal, h.config]
    split <;> rfl
  rw [stepInstruction_eq, stepInstruction_eq, h.cpu]
  cases stepped.cpu.cycle with
  | done _ cpu =>
      exact .inl ⟨_, _, rfl, rfl,
        ⟨rfl, hJournal, h.config, congrArg (· + 1) h.instructions⟩, rfl, rfl⟩
  | faulted fault cpu =>
      exact .inr ⟨fault, _, _, rfl, rfl, ⟨rfl, hJournal, h.config, h.instructions⟩⟩

omit [ByteSource ρ] [Screen δ] in
theorem SameWork.halt (h : SameWork batched stepped) (fault : Fault) :
    SameWork (batched.halt fault) (stepped.halt fault) :=
  ⟨h.cpu, by simp only [Machine.halt, report, h.journal], h.config, h.instructions⟩

theorem steps_of_halted {m : Machine ρ δ κ} {fault : Fault} (h : m.state = .halted fault)
    (count : Nat) : steps count m = m := by
  cases count with
  | zero => rfl
  | succ count => rw [steps, h]

theorem steps_add (first second : Nat) (m : Machine ρ δ κ) :
    steps (first + second) m = steps second (steps first m) := by
  induction first generalizing m with
  | zero => rw [Nat.zero_add, steps]
  | succ first ih =>
      rw [Nat.add_right_comm]
      cases hState : m.state with
      | idle | running => rw [steps, steps, hState, ih]
      | halted fault => rw [steps_of_halted hState, steps_of_halted hState, steps_of_halted hState]

/-- A step keeps the settings, whether it halts the machine or not. -/
theorem config_step (m : Machine ρ δ κ) : m.step.config = m.config := by
  unfold step
  rw [stepInstruction_eq]
  cases m.state with
  | idle =>
      generalize m.cpu.cycle = outcome
      cases outcome with
      | done _ cpu => rfl
      | faulted fault cpu => rfl
  | running | halted fault => rfl

theorem config_steps (count : Nat) (m : Machine ρ δ κ) : (steps count m).config = m.config := by
  induction count generalizing m with
  | zero => rfl
  | succ count ih =>
      rw [steps]
      cases m.state with
      | idle | running => exact (ih _).trans (config_step m)
      | halted fault => rfl

/-- One batch is as many single steps, or as many as there are up to a fault. -/
theorem InStep.runBatch (h : InStep batched stepped true) (count : Nat) :
    InStep (runBatch count batched).2 (steps count stepped) (runBatch count batched).1 := by
  induction count generalizing batched stepped with
  | zero => exact h
  | succ count ih =>
      cases h with
      | working hSame hBatched hStepped =>
          rw [runBatch_succ, steps, hStepped, step, hStepped]
          rcases hSame.stepInstruction with
            ⟨next, other, hNext, hOther, hWork, hRunning, hIdle⟩ |
            ⟨fault, next, other, hNext, hOther, hWork⟩
          · rw [hNext, hOther]
            exact ih (.working hWork (hRunning.trans hBatched) (hIdle.trans hStepped))
          · rw [hNext, hOther]
            have hHalted : (other.halt fault).state = .halted fault := rfl
            rw [steps_of_halted hHalted]
            exact .halted (hWork.halt fault) rfl hHalted

/-- One tick is as many steps as a batch has instructions. A machine that has halted does nothing
in either. -/
theorem InStep.tick (h : InStep batched stepped alive) :
    InStep batched.tick.2 (steps stepped.config.batchSize stepped) batched.tick.1 := by
  unfold Machine.tick
  cases h with
  | working hSame hBatched hStepped =>
      rw [hBatched, hSame.config]
      exact InStep.runBatch (.working hSame hBatched hStepped) _
  | halted hSame hBatched hStepped =>
      rw [hBatched, steps_of_halted hStepped]
      exact .halted hSame hBatched hStepped

omit [ByteSource ρ] [Screen δ] [Journal κ] in
/-- The answer says whether the stepped machine could go on. -/
theorem InStep.alive_eq (h : InStep batched stepped alive) :
    alive = decide (stepped.state = .idle) := by
  cases h with
  | working _ _ hStepped => rw [hStepped]; rfl
  | halted _ _ hStepped => rw [hStepped]; rfl

/-- Any number of batches, with the answer of each. -/
theorem InStep.ticks (h : InStep batched stepped alive) (count : Nat) :
    (∃ last, InStep (ticks count batched).2 (steps (count * stepped.config.batchSize) stepped)
      last) ∧
    (Machine.ticks count batched).1 = (List.range count).map fun batch =>
      decide ((steps ((batch + 1) * stepped.config.batchSize) stepped).state = .idle) := by
  induction count generalizing batched stepped alive with
  | zero => exact ⟨⟨alive, by rwa [Nat.zero_mul]⟩, rfl⟩
  | succ count ih =>
      have hTick := h.tick
      have hConfig : (steps stepped.config.batchSize stepped).config = stepped.config :=
        config_steps _ _
      have hSplit : ∀ batch, steps ((batch + 1) * stepped.config.batchSize) stepped =
          steps (batch * stepped.config.batchSize) (steps stepped.config.batchSize stepped) := by
        intro batch
        rw [Nat.succ_mul, Nat.add_comm, steps_add]
      obtain ⟨⟨last, hLast⟩, hAnswers⟩ := ih hTick
      rw [hConfig] at hLast hAnswers
      refine ⟨⟨last, by rw [hSplit]; exact hLast⟩, ?_⟩
      rw [List.range_succ_eq_map, List.map_cons, List.map_map, Nat.zero_add, Nat.one_mul,
        ← hTick.alive_eq]
      simp only [Function.comp_def, hSplit (_ + 1)]
      exact congrArg _ hAnswers

/-- An idle machine that is set running and ticked does what it would do when stepped as
many times as the batches have instructions. Where a step halts it, a tick halts it with the
same fault; and a tick says that the machine still runs just when the steps up to the end of
its batch come through. -/
theorem ticks_run {m : Machine ρ δ κ} (h : m.state = .idle) (count : Nat) :
    let (answers, batched) := ticks count m.run
    let stepped := steps (count * m.config.batchSize) m
    SameWork batched stepped ∧
      (batched.state = .running ∧ stepped.state = .idle ∨
        ∃ fault, batched.state = .halted fault ∧ stepped.state = .halted fault) ∧
      answers = (List.range count).map fun batch =>
        decide ((steps ((batch + 1) * m.config.batchSize) m).state = .idle) := by
  have hRun : InStep m.run m true := by
    have hBatched : m.run = { m with state := .running, clock := m.clock.restart } := by
      rw [run, h]
    rw [hBatched]
    exact .working ⟨rfl, rfl, rfl, rfl⟩ rfl h
  obtain ⟨⟨last, hLast⟩, hAnswers⟩ := hRun.ticks count
  refine ⟨?_, ?_, hAnswers⟩
  · cases hLast with
    | working hSame | halted hSame => exact hSame
  · cases hLast with
    | working _ hBatched hStepped => exact .inl ⟨hBatched, hStepped⟩
    | halted _ hBatched hStepped => exact .inr ⟨_, hBatched, hStepped⟩

/-- Two increments fill a batch; of the next one a push comes through and then a byte that
is no instruction halts the machine, so there is nothing left for the last tick. -/
theorem ticks_run_faulted :
    ∃ m : Machine Congruential (Array (Address × Byte)) (Array Text), m.state = .idle ∧
      m.config.batchSize = 2 ∧ (ticks 3 m.run).1 = [true, false, false] ∧
      let (answers, batched) := ticks 3 m.run
      let stepped := steps (3 * m.config.batchSize) m
      SameWork batched stepped ∧
        (batched.state = .running ∧ stepped.state = .idle ∨
          ∃ fault, batched.state = .halted fault ∧ stepped.state = .halted fault) ∧
        answers = (List.range 3).map fun batch =>
          decide ((steps ((batch + 1) * m.config.batchSize) m).state = .idle) := by
  obtain ⟨m, hIdle, hSize, hAnswers⟩ :
      ∃ m : Machine Congruential (Array (Address × Byte)) (Array Text), m.state = .idle ∧
        m.config.batchSize = 2 ∧ (ticks 3 m.run).1 = [true, false, false] :=
    ⟨Bus.writeBytes (start { batchSize := 2 } (.seeded 1) #[] #[]) 0x0200
      [0xE8, 0xE8, 0x48, 0x00], rfl, rfl, by decide +kernel⟩
  exact ⟨m, hIdle, hSize, hAnswers, ticks_run hIdle 3⟩

end Micro6502.Machine
