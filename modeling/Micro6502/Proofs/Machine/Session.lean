import Micro6502.Machine.Compile
import Micro6502.Proofs.Machine.Batch
import Micro6502.Proofs.Machine.Lockstep

/-! What a host does with a machine, command by command, and two machines that are given the
same commands. If no access tells their memories apart, nor a reset or a traced line, then no
command does. -/

namespace Micro6502

-- Nothing here depends on what the decoding table holds.
attribute [local irreducible] Catalog.decode

/-- A change that a host makes to the registers. -/
inductive Setting where
  | a (byte : Byte)
  | x (byte : Byte)
  | y (byte : Byte)
  | status (status : Status)
  | carry (flag : Bool)
  | zero (flag : Bool)
  | decimal (flag : Bool)
  | overflow (flag : Bool)
  | negative (flag : Bool)
  | pc (address : Address)
  | sp (offset : UInt16)

def Setting.apply : Setting → Registers → Registers
  | a byte, r => { r with a := byte }
  | x byte, r => { r with x := byte }
  | y byte, r => { r with y := byte }
  | status p, r => { r with p }
  | carry flag, r => { r with p := { r.p with carry := flag } }
  | zero flag, r => { r with p := { r.p with zero := flag } }
  | decimal flag, r => { r with p := { r.p with decimal := flag } }
  | overflow flag, r => { r with p := { r.p with overflow := flag } }
  | negative flag, r => { r with p := { r.p with negative := flag } }
  | pc address, r => { r with pc := address }
  | sp offset, r => r.setStack offset

/-- What a host can ask of a machine. An assembler comes with the source that it assembles,
in whatever state earlier sources have left it. -/
inductive Command where
  | poke (address : Address) (byte : Byte)
  | peek (address : Address)
  | peekWord (address : Address)
  | set (setting : Setting)
  | step
  | stepInstruction
  | run
  | tick
  | stop
  | reset
  | compile (assembler : Assembly.Assembler) (source : Text)
  | decompile (start : Address) (limit : Nat)
  | dump (start : Address) (limit : Nat)

/-- What a host learns from a command. -/
inductive Answer where
  | nothing
  | byte (byte : Byte)
  | word (word : Address)
  /-- The fault of an instruction, if it had one. -/
  | fault (fault? : Option Fault)
  /-- Whether the machine still runs. -/
  | alive (alive : Bool)
  /-- Whether a source was accepted. -/
  | accepted (accepted : Bool)
  | listing (text : Text)
  deriving DecidableEq

/-- A relation that no access reveals, nor a reset, nor a line of a trace if there is one. -/
structure Memory.Simulation {ρ δ : Type} [ByteSource ρ] [Screen δ] (trace : Bool)
    (R : Memory ρ δ → Memory ρ δ → Prop) : Prop extends Bus.Simulation R where
  clear : ∀ {memory other}, R memory other → R memory.clear other.clear
  shown : trace = true → ∀ {memory other}, R memory other →
    ∀ address, memory.stored address = other.stored address

/-- A property of memory that no access and no reset destroys. -/
structure Memory.Invariant {ρ δ : Type} [ByteSource ρ] [Screen δ] (I : Memory ρ δ → Prop) :
    Prop where
  afterRead : ∀ {memory}, I memory → ∀ address, I (memory.afterRead address)
  write : ∀ {memory}, I memory → ∀ address byte, I (memory.write address byte)
  clear : ∀ {memory}, I memory → I memory.clear

/-- A memory with the property, next to itself. -/
theorem Memory.Invariant.simulation {ρ δ : Type} [ByteSource ρ] [Screen δ]
    {I : Memory ρ δ → Prop} (hI : Memory.Invariant I) (trace : Bool) :
    Memory.Simulation trace fun memory other => memory = other ∧ I memory where
  read := by
    rintro memory _ ⟨rfl, hMemory⟩ address
    exact ⟨rfl, rfl, hI.afterRead hMemory address⟩
  write := by
    rintro memory _ ⟨rfl, hMemory⟩ address byte
    exact ⟨rfl, hI.write hMemory address byte⟩
  clear := by
    rintro memory _ ⟨rfl, hMemory⟩
    exact ⟨rfl, hI.clear hMemory⟩
  shown := by
    rintro - memory _ ⟨rfl, -⟩ address
    rfl

namespace Machine

variable {ρ δ κ : Type} [ByteSource ρ] [Screen δ] [Journal κ]

def obey (m : Machine ρ δ κ) : Command → Answer × Machine ρ δ κ
  | .poke address byte => (.nothing, Bus.write m address byte)
  | .peek address =>
    let (byte, m) := Bus.read m address
    (.byte byte, m)
  | .peekWord address =>
    let (word, m) := Bus.readWord m address
    (.word word, m)
  | .set setting => (.nothing, m.withRegisters setting.apply)
  | .step => (.nothing, m.step)
  | .stepInstruction =>
    let outcome := m.stepInstruction
    (.fault outcome.fault?, outcome.state)
  | .run => (.nothing, m.run)
  | .tick =>
    let (alive, m) := m.tick
    (.alive alive, m)
  | .stop => (.nothing, m.stop)
  | .reset => (.nothing, m.reset)
  | .compile assembler source =>
    let (accepted, m, _) := m.compile assembler source
    (.accepted accepted, m)
  | .decompile start limit =>
    let (text, m) := Listing.decompile m start limit
    (.listing text, m)
  | .dump start limit =>
    let (text, m) := Listing.dump m start limit
    (.listing text, m)

/-- Obey commands one after another, with the answer to each. -/
def obeyAll : List Command → Machine ρ δ κ → List Answer × Machine ρ δ κ
  | [], m => ([], m)
  | command :: rest, m =>
    let (answer, m) := m.obey command
    let (answers, m) := obeyAll rest m
    (answer :: answers, m)

/-- Equal machines, up to memories that are related, and both with the settings `config`. -/
structure Alike (R : Memory ρ δ → Memory ρ δ → Prop) (config : Config)
    (m other : Machine ρ δ κ) : Prop where
  cpu : Processor.Alike R m.cpu other.cpu
  journal : m.journal = other.journal
  state : m.state = other.state
  instructions : m.instructions = other.instructions
  clock : m.clock = other.clock
  config_left : m.config = config
  config_right : other.config = config

namespace Alike

variable {R : Memory ρ δ → Memory ρ δ → Prop} {config : Config} {m other : Machine ρ δ κ}

omit [Journal κ] in
/-- An access of a machine is an access of its processor. -/
theorem simulation (hR : Bus.Simulation R) :
    Bus.Simulation (Alike R config : Machine ρ δ κ → Machine ρ δ κ → Prop) where
  read := fun h address =>
    have hRead := h.cpu.read hR address
    ⟨hRead.answer, { h with cpu := hRead.state }⟩
  write := fun h address byte => { h with cpu := h.cpu.write hR address byte }

section

omit [ByteSource ρ] [Screen δ] [Journal κ]

variable (h : Alike R config m other)

include h

theorem withRegisters (change : Registers → Registers) :
    Alike R config (m.withRegisters change) (other.withRegisters change) :=
  { h with cpu := h.cpu.withRegisters change }

theorem stop : Alike R config m.stop other.stop := by
  unfold Machine.stop
  rw [h.state]
  cases other.state with
  | running => exact { h with state := rfl }
  | idle | halted fault => exact h

variable [Journal κ]

theorem report (message : Text) : Alike R config (m.report message) (other.report message) :=
  { h with journal := congrArg (Journal.record · message) h.journal }

theorem halt (fault : Fault) : Alike R config (m.halt fault) (other.halt fault) :=
  { (h.report fault.message).report _ with state := rfl }

theorem run : Alike R config m.run other.run := by
  unfold Machine.run
  rw [h.state]
  cases other.state with
  | idle => exact { h with state := rfl, clock := congrArg Clock.restart h.clock }
  | running | halted fault => exact h.report _

end

section

variable (hR : Memory.Simulation config.trace R) (h : Alike R config m other)

include hR h

/-- A reset leaves machines alike. The counter of instructions starts afresh on both sides. -/
theorem reset : Alike R config m.reset other.reset where
  cpu := {
    registers := by simp only [Machine.reset, Machine.report, h.config_left, h.config_right]
    memory := hR.clear h.cpu.memory }
  journal := congrArg (Journal.record · _) h.journal
  state := rfl
  instructions := rfl
  clock := rfl
  config_left := h.config_left
  config_right := h.config_right

/-- Both trace the same line or neither traces any. The line shows bytes as they are stored, so
memories that are traced have to agree on those. -/
theorem tracedJournal : m.tracedJournal = other.tracedJournal := by
  have hOpcode := h.cpu.fetchByte hR.toSimulation
  simp only [Machine.tracedJournal, traceLine, Machine.report, h.config_left, h.config_right,
    h.journal, hOpcode.answer, h.cpu.pc]
  split
  · rename_i hTrace
    rw [hR.shown hTrace hOpcode.state.memory, hR.shown hTrace hOpcode.state.memory]
  · rfl

/-- Both come through the instruction or both meet the same fault. -/
theorem stepInstruction :
    Outcome.Agree (Alike R config) m.stepInstruction other.stepInstruction := by
  have hCycle := h.cpu.cycle hR.toSimulation
  have hJournal := tracedJournal hR h
  rw [stepInstruction_eq, stepInstruction_eq]
  generalize m.cpu.cycle = first, other.cpu.cycle = second at hCycle
  cases hCycle with
  | done hCpu =>
      exact .done { h with
        cpu := hCpu
        journal := hJournal
        instructions := congrArg (· + 1) h.instructions
        clock := congrArg Clock.count h.clock }
  | faulted hCpu => exact .faulted { h with cpu := hCpu, journal := hJournal }

theorem step : Alike R config m.step other.step := by
  have hStep := stepInstruction hR h
  unfold Machine.step
  rw [h.state]
  cases other.state with
  | idle =>
      dsimp only
      generalize m.stepInstruction = first, other.stepInstruction = second at hStep
      cases hStep with
      | done hNext => exact hNext
      | faulted hNext => exact hNext.halt _
  | running | halted fault => exact h.report _

/-- A batch gives the same answer on both sides and leaves them alike. -/
theorem runBatch (count : Nat) :
    Agree (Alike R config) (Machine.runBatch count m) (Machine.runBatch count other) := by
  induction count generalizing m other with
  | zero => exact ⟨rfl, h⟩
  | succ count ih =>
      have hStep := stepInstruction hR h
      rw [runBatch_succ, runBatch_succ]
      generalize m.stepInstruction = first, other.stepInstruction = second at hStep
      cases hStep with
      | done hNext => exact ih hNext
      | faulted hNext => exact ⟨rfl, hNext.halt _⟩

theorem tick : Agree (Alike R config) m.tick other.tick := by
  unfold Machine.tick
  rw [h.state, h.config_left, h.config_right]
  cases other.state with
  | running => exact runBatch hR h config.batchSize
  | idle | halted fault => exact ⟨rfl, h⟩

theorem accept (program : Assembly.Program) :
    Alike R config (m.accept program) (other.accept program) := by
  have hLoaded := ((simulation hR.toSimulation).load
    (h.report "Compilation complete.".toList) program).report (loadMessage program)
  unfold Machine.accept
  cases program.origin with
  | none => exact hLoaded
  | some address => exact hLoaded.withRegisters _

/-- What is said of a source does not depend on the machine, so both say the same. -/
theorem compile (assembler : Assembly.Assembler) (source : Text) :
    Agree (Alike R config) ((m.compile assembler source).1, (m.compile assembler source).2.1)
      ((other.compile assembler source).1, (other.compile assembler source).2.1) := by
  have hPass := (h.report "Starting compilation.".toList).report
    "Starting compilation pass 1.".toList
  simp only [Machine.compile, assembleReported]
  generalize assembler.layOut source = pass
  obtain ⟨diagnostic | layout, learnt⟩ := pass
  · exact ⟨rfl, hPass.report _⟩
  · have hFill := (hPass.report (layoutMessage layout)).report
      "Starting compilation pass 2.".toList
    dsimp only
    cases layout.fill with
    | error diagnostic => exact ⟨rfl, hFill.report _⟩
    | ok program => exact ⟨rfl, accept hR hFill program⟩

/-- No command tells the two machines apart, and none makes them so different that a later
one could. -/
theorem obey (command : Command) :
    Agree (Alike R config) (m.obey command) (other.obey command) := by
  have hBus : Bus.Simulation (Alike R config : Machine ρ δ κ → Machine ρ δ κ → Prop) :=
    simulation hR.toSimulation
  cases command with
  | poke address byte => exact ⟨rfl, hBus.write h address byte⟩
  | peek address =>
      have hByte := hBus.read h address
      exact ⟨congrArg Answer.byte hByte.answer, hByte.state⟩
  | peekWord address =>
      have hWord := hBus.readWord h address
      exact ⟨congrArg Answer.word hWord.answer, hWord.state⟩
  | set setting => exact ⟨rfl, h.withRegisters _⟩
  | step => exact ⟨rfl, step hR h⟩
  | stepInstruction =>
      have hStep := stepInstruction hR h
      simp only [Machine.obey]
      generalize m.stepInstruction = first, other.stepInstruction = second at hStep
      cases hStep with
      | done hNext | faulted hNext => exact ⟨rfl, hNext⟩
  | run => exact ⟨rfl, h.run⟩
  | tick =>
      have hTick := tick hR h
      exact ⟨congrArg Answer.alive hTick.answer, hTick.state⟩
  | stop => exact ⟨rfl, h.stop⟩
  | reset => exact ⟨rfl, reset hR h⟩
  | compile assembler source =>
      have hCompile := compile hR h assembler source
      exact ⟨congrArg Answer.accepted hCompile.answer, hCompile.state⟩
  | decompile start limit =>
      have hText := hBus.decompile h start limit
      exact ⟨congrArg Answer.listing hText.answer, hText.state⟩
  | dump start limit =>
      have hText := hBus.dump h start limit
      exact ⟨congrArg Answer.listing hText.answer, hText.state⟩

end

end Alike

/-- No command destroys a property of memory that accesses and resets keep. -/
theorem memory_obey {I : Memory ρ δ → Prop} (hI : Memory.Invariant I) {m : Machine ρ δ κ}
    (h : I m.cpu.memory) (command : Command) : I (m.obey command).2.cpu.memory := by
  have hSelf : Alike (fun memory other => memory = other ∧ I memory) m.config m m :=
    ⟨⟨rfl, rfl, h⟩, rfl, rfl, rfl, rfl, rfl, rfl⟩
  exact (hSelf.obey (hI.simulation _) command).state.cpu.memory.2

end Machine
end Micro6502
