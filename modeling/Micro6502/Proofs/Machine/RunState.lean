import Micro6502.Proofs.Machine.History

/-! The run state as the outcome of what was executed. A fault halts the machine when it comes
up in a step or in a tick, and it can come up there only once before the next reset; the state
and the counter of instructions say what the whole history since that reset was. -/

namespace Micro6502

-- Nothing here depends on what the decoding table holds.
attribute [local irreducible] Catalog.decode

/-- The fault that has halted the machine, if one has. -/
def RunState.fault? : RunState → Option Fault
  | halted fault => some fault
  | idle | running => none

/-- Only a halted machine has a fault, and it is the one that halted it. -/
theorem RunState.fault?_eq_some {state : RunState} {fault : Fault} :
    state.fault? = some fault ↔ state = .halted fault := by
  cases state with
  | halted other => simp [fault?]
  | idle | running => simp [fault?]

namespace Order

/-- Whether a fault that comes up on behalf of the order halts the machine. -/
def supervised : Order → Bool
  | command .step | command .tick => true
  | _ => false

/-- Whether instructions are executed on behalf of the order. -/
def executes : Order → Bool
  | command .stepInstruction => true
  | order => order.supervised

/-- Whether the order makes the machine forget what it has executed. -/
def forgets : Order → Bool
  | command .reset => true
  | _ => false

end Order

/-- The state that an order asks for. It is the next one unless an instruction faults. -/
def RunState.told (state : RunState) : Order → RunState
  | .command .run => if state = .idle then .running else state
  | .command .stop => if state = .running then .idle else state
  | .command .reset => .idle
  | _ => state

/-- Nothing but the order to run makes a machine run that does not. -/
theorem RunState.told_eq_running {state : RunState} {order : Order}
    (h : state.told order = .running) :
    state = .running ∨ state = .idle ∧ order = .command .run := by
  unfold told at h
  split at h
  · split at h
    next hIdle => exact .inr ⟨hIdle, rfl⟩
    next => exact .inl h
  · split at h
    · cases h
    · exact .inl h
  · cases h
  · exact .inl h

/-- A running machine goes on unless it is told to stop or to start afresh. -/
theorem RunState.told_of_running (order : Order) :
    told .running order = .running ∨
      (order = .command .stop ∨ order = .command .reset) ∧ told .running order = .idle := by
  cases order with
  | setTrace trace | tellTime now => exact .inl rfl
  | command command =>
      cases command with
      | stop => exact .inr ⟨.inl rfl, rfl⟩
      | reset => exact .inr ⟨.inr rfl, rfl⟩
      | _ => exact .inl rfl

/-- Only a reset takes a fault away, and no order brings one. -/
theorem RunState.fault?_told (state : RunState) (order : Order) :
    (state.told order).fault? = if order.forgets then none else state.fault? := by
  cases order with
  | setTrace trace | tellTime now => rfl
  | command command =>
      cases command with
      | run | stop => cases state <;> rfl
      | _ => rfl

namespace Command

/-- Whether the command has to do with the run state. -/
def drives : Command → Bool
  | step | run | tick | stop => true
  | _ => false

/-- What a halted machine answers to such a command. -/
def refusal : Command → Answer
  | tick => .alive false
  | _ => .nothing

/-- What a halted machine says about such a command. -/
def complaints : Command → List Text
  | step | run => [Machine.haltedMessage]
  | _ => []

end Command

namespace Attempt

variable {ρ δ : Type}

def completed (attempt : Attempt ρ δ) : Bool := attempt.fault?.isNone

/-- The fault with which an instruction halted the machine, given the order on whose behalf it
was executed. -/
def haltingFault? : Order × Attempt ρ δ → Option Fault
  | (order, attempt) => if order.supervised then attempt.fault? else none

end Attempt

/-- The processor goes through the instructions of a list, one after another, and each of them
ends in the way that is noted. -/
inductive Processor.Through {ρ δ : Type} [ByteSource ρ] [Screen δ] :
    Processor ρ δ → List (Attempt ρ δ) → Processor ρ δ → Prop
  | nil (cpu : Processor ρ δ) : Through cpu [] cpu
  | cons {cpu last : Processor ρ δ} {outcome : Outcome (Processor ρ δ) Unit}
      {rest : List (Attempt ρ δ)} (hCycle : cpu.cycle = outcome)
      (hRest : Through outcome.state rest last) :
      Through cpu (⟨cpu, outcome.fault?⟩ :: rest) last

namespace Machine

variable {ρ δ κ : Type} [ByteSource ρ] [Screen δ] [Journal κ]

/-- What was executed since the last reset, and on whose behalf, when the machine has followed
one order more. -/
def remember (past : List (Order × Attempt ρ δ)) (m : Machine ρ δ κ) (order : Order) :
    List (Order × Attempt ρ δ) :=
  (if order.forgets then [] else past) ++ (m.attempts order).map (order, ·)

/-- What was executed since the last reset, and on whose behalf, when the machine has followed
further orders. -/
def sinceReset (past : List (Order × Attempt ρ δ)) :
    List Order → Machine ρ δ κ → List (Order × Attempt ρ δ)
  | [], _ => past
  | order :: rest, m => sinceReset (remember past m order) rest (m.follow order).2

/-- How a machine comes out of a batch. -/
structure Worked (m next : Machine ρ δ κ) (attempts : List (Attempt ρ δ))
    (fault? : Option Fault) : Prop where
  through : m.cpu.Through attempts next.cpu
  faults : attempts.filterMap Attempt.fault? = fault?.toList
  state : next.state = fault?.elim m.state .halted
  instructions : next.instructions = m.instructions + attempts.countP Attempt.completed

/-- A batch comes out in order: the machine is halted by the one fault among its instructions, if
there is one, and the counter has gone up by those without. -/
theorem worked_runBatch (count : Nat) (m : Machine ρ δ κ) :
    ∃ fault?, Worked m (runBatch count m).2 (m.batch count) fault? := by
  induction count generalizing m with
  | zero => exact ⟨none, .nil _, rfl, rfl, rfl⟩
  | succ count ih =>
      rw [runBatch_succ, batch_succ, stepInstruction_eq]
      cases hCycle : m.cpu.cycle with
      | done _ cpu =>
          obtain ⟨fault?, hRest⟩ := ih { m with
            cpu
            journal := m.tracedJournal
            instructions := m.instructions + 1
            clock := m.clock.count }
          refine ⟨fault?, .cons hCycle hRest.through, hRest.faults, hRest.state, ?_⟩
          refine hRest.instructions.trans ?_
          rw [List.countP_cons_of_pos rfl, Nat.add_right_comm, Nat.add_assoc]
      | faulted fault cpu =>
          exact ⟨some fault, .cons hCycle (.nil _), rfl, rfl, rfl⟩

/-- What the books of a machine say when it has followed an order. -/
structure Booked (m : Machine ρ δ κ) (order : Order) (fault? : Option Fault) : Prop where
  through : order.executes = true → m.cpu.Through (m.attempts order) (m.follow order).2.cpu
  faults : ((m.attempts order).map (order, ·)).filterMap Attempt.haltingFault? = fault?.toList
  first : fault? ≠ none → m.state.fault? = none
  state : (m.follow order).2.state = fault?.elim (m.state.told order) .halted
  instructions : (m.follow order).2.instructions =
    (if order.forgets then 0 else m.instructions) + (m.attempts order).countP Attempt.completed

variable {m : Machine ρ δ κ} {order : Order}

/-- The books for an order, once it is known what it executes and where it leads. -/
theorem Booked.of_eq {attempts : List (Attempt ρ δ)} {next : Machine ρ δ κ} {fault? : Option Fault}
    (hAttempts : m.attempts order = attempts) (hNext : (m.follow order).2 = next)
    (through : order.executes = true → m.cpu.Through attempts next.cpu)
    (faults : (attempts.map (order, ·)).filterMap Attempt.haltingFault? = fault?.toList)
    (first : fault? ≠ none → m.state.fault? = none)
    (state : next.state = fault?.elim (m.state.told order) .halted)
    (instructions : next.instructions =
      (if order.forgets then 0 else m.instructions) + attempts.countP Attempt.completed) :
    Booked m order fault? := by
  subst hAttempts hNext
  exact ⟨through, faults, first, state, instructions⟩

/-- No instruction is executed on behalf of the order. -/
theorem Booked.quiet {next : Machine ρ δ κ} (hAttempts : m.attempts order = [])
    (hNext : (m.follow order).2 = next) (hCpu : order.executes = true → next.cpu = m.cpu)
    (hState : next.state = m.state.told order)
    (hInstructions : next.instructions = if order.forgets then 0 else m.instructions) :
    Booked m order none := by
  refine .of_eq hAttempts hNext ?_ rfl (fun h => absurd rfl h) hState hInstructions
  intro hExecutes
  rw [hCpu hExecutes]
  exact .nil _

omit [ByteSource ρ] [Screen δ] in
/-- On behalf of a supervised order, every fault halts the machine. -/
theorem filterMap_haltingFault? (h : order.supervised = true) (attempts : List (Attempt ρ δ)) :
    (attempts.map (order, ·)).filterMap Attempt.haltingFault? =
      attempts.filterMap Attempt.fault? := by
  rw [List.filterMap_map]
  congr 1
  funext attempt
  simp only [Function.comp_apply, Attempt.haltingFault?, h, if_true]

/-- The order is to execute up to `count` instructions, and a fault halts the machine. -/
theorem Booked.ofBatch (hSupervised : order.supervised = true) (count : Nat)
    (hAttempts : m.attempts order = m.batch count)
    (hNext : (m.follow order).2 = (runBatch count m).2) (hForgets : order.forgets = false)
    (hTold : m.state.told order = m.state) (hFirst : m.state.fault? = none) :
    ∃ fault?, Booked m order fault? := by
  obtain ⟨fault?, hWorked⟩ := worked_runBatch count m
  refine ⟨fault?, .of_eq hAttempts hNext (fun _ => hWorked.through) ?_ (fun _ => hFirst) ?_ ?_⟩
  · rw [filterMap_haltingFault? hSupervised, hWorked.faults]
  · rw [hTold, hWorked.state]
  · rw [hForgets, hWorked.instructions]
    rfl

/-- A fault is handed to the host and does not halt the machine. -/
theorem booked_stepInstruction (m : Machine ρ δ κ) :
    Booked m (.command .stepInstruction) none := by
  have hAttempts : m.attempts (.command .stepInstruction) = m.batch 1 := rfl
  have hNext : (m.follow (.command .stepInstruction)).2 = m.stepInstruction.state := rfl
  rw [batch_succ, stepInstruction_eq] at hAttempts
  rw [stepInstruction_eq] at hNext
  cases hCycle : m.cpu.cycle with
  | done _ cpu =>
      rw [hCycle] at hAttempts hNext
      exact .of_eq hAttempts hNext (fun _ => .cons hCycle (.nil _)) rfl (fun h => absurd rfl h)
        rfl rfl
  | faulted fault cpu =>
      rw [hCycle] at hAttempts hNext
      exact .of_eq hAttempts hNext (fun _ => .cons hCycle (.nil _)) rfl (fun h => absurd rfl h)
        rfl rfl

omit [Journal κ] in
/-- No access touches the books. -/
theorem keeps_books (state : RunState) (instructions : Nat) :
    Bus.Keeps fun m : Machine ρ δ κ => m.state = state ∧ m.instructions = instructions where
  read := fun h _ => h
  write := fun h _ _ => h

theorem books_compile (m : Machine ρ δ κ) (assembler : Assembly.Assembler) (source : Text) :
    (m.compile assembler source).2.1.state = m.state ∧
      (m.compile assembler source).2.1.instructions = m.instructions := by
  obtain ⟨messages, program?, hCompile⟩ :=
    exists_compile_eq (ρ := ρ) (δ := δ) (κ := κ) assembler source
  rw [(hCompile m).2, foldl_report]
  cases program? with
  | none => exact ⟨rfl, rfl⟩
  | some program =>
      rw [Option.elim_some, accept_eq]
      exact ⟨rfl, rfl⟩

/-- Whatever the order and the machine, the books are right behind it. Orders that execute nothing
ask for their state and get it; the others run a batch, or say why they do not. -/
theorem exists_booked (m : Machine ρ δ κ) (order : Order) : ∃ fault?, Booked m order fault? := by
  have hKeeps := keeps_books (ρ := ρ) (δ := δ) (κ := κ) m.state m.instructions
  have hSelf : m.state = m.state ∧ m.instructions = m.instructions := ⟨rfl, rfl⟩
  cases order with
  | setTrace trace => exact ⟨none, .quiet rfl rfl nofun rfl rfl⟩
  | tellTime now => exact ⟨none, .quiet rfl rfl nofun rfl rfl⟩
  | command command =>
      cases command with
      | poke | peek | peekWord | set | reset => exact ⟨none, .quiet rfl rfl nofun rfl rfl⟩
      | compile assembler source =>
          have hBooks := books_compile m assembler source
          exact ⟨none, .quiet rfl rfl nofun hBooks.1 hBooks.2⟩
      | decompile start limit =>
          have hBooks := hKeeps.decompile hSelf start limit
          exact ⟨none, .quiet rfl rfl nofun hBooks.1 hBooks.2⟩
      | dump start limit =>
          have hBooks := hKeeps.dump hSelf start limit
          exact ⟨none, .quiet rfl rfl nofun hBooks.1 hBooks.2⟩
      | run =>
          cases hState : m.state with
          | idle => exact ⟨none, .quiet rfl (run_of_idle hState) nofun (by rw [hState]; rfl) rfl⟩
          | running =>
              refine ⟨none, .quiet rfl (run_of_running hState) nofun ?_ rfl⟩
              rw [hState]
              exact hState
          | halted fault =>
              refine ⟨none, .quiet rfl (run_of_halted hState) nofun ?_ rfl⟩
              rw [hState]
              exact hState
      | stop =>
          by_cases hState : m.state = .running
          · exact ⟨none, .quiet rfl (stop_of_running hState) nofun (if_pos hState).symm rfl⟩
          · exact ⟨none, .quiet rfl (stop_of_ne hState) nofun (if_neg hState).symm rfl⟩
      | step =>
          by_cases hState : m.state = .idle
          · refine Booked.ofBatch rfl 1 (if_pos hState) (step_of_idle hState) rfl rfl ?_
            rw [hState]
            rfl
          · obtain ⟨message, hStep⟩ := step_of_ne hState
            exact ⟨none, .quiet (if_neg hState) hStep (fun _ => rfl) rfl rfl⟩
      | tick =>
          by_cases hState : m.state = .running
          · refine Booked.ofBatch rfl m.config.batchSize (if_pos hState)
              (congrArg Prod.snd (tick_of_running hState)) rfl rfl ?_
            rw [hState]
            rfl
          · have hTick : (m.follow (.command .tick)).2 = m :=
              congrArg Prod.snd (tick_of_ne hState)
            exact ⟨none, .quiet (if_neg hState) hTick (fun _ => rfl) rfl rfl⟩
      | stepInstruction => exact ⟨none, booked_stepInstruction m⟩

/-- The run state and the counter say what was executed since the last reset: the one fault
that halted the machine, if one did, and the number of instructions that came through. -/
structure Accounts (m : Machine ρ δ κ) (past : List (Order × Attempt ρ δ)) : Prop where
  faults : past.filterMap Attempt.haltingFault? = m.state.fault?.toList
  instructions : m.instructions = past.countP fun event => event.2.completed

/-- One more order adds what it executed to the account. A reset clears both sides of it. -/
theorem Accounts.follow {past : List (Order × Attempt ρ δ)} (h : Accounts m past)
    (order : Order) : Accounts (m.follow order).2 (remember past m order) := by
  obtain ⟨fault?, hBooked⟩ := exists_booked m order
  constructor
  · rw [remember, List.filterMap_append, hBooked.faults, hBooked.state]
    cases fault? with
    | some fault =>
        -- A machine that was halted before would have refused the order.
        have hNone : past.filterMap Attempt.haltingFault? = [] := by
          rw [h.faults, hBooked.first nofun]
          rfl
        cases order.forgets with
        | true => rfl
        | false => exact congrArg (· ++ [fault]) hNone
    | none =>
        rw [Option.elim_none, RunState.fault?_told]
        cases order.forgets with
        | true => rfl
        | false => exact (List.append_nil _).trans h.faults
  · have hMap : ((m.attempts order).map (order, ·)).countP (fun event => event.2.completed) =
        (m.attempts order).countP Attempt.completed := List.countP_map
    rw [remember, List.countP_append, hMap, hBooked.instructions]
    cases order.forgets with
    | true => rfl
    | false => exact congrArg (· + _) h.instructions

theorem Accounts.followAll {past : List (Order × Attempt ρ δ)} (h : Accounts m past)
    (orders : List Order) :
    Accounts (Machine.followAll orders m).2 (sinceReset past orders m) := by
  induction orders generalizing m past with
  | nil => exact h
  | cons order rest ih => exact ih (h.follow order)

/-- A halted machine refuses whatever would drive it, and at most complains. -/
theorem obey_halted {fault : Fault} (h : m.state = .halted fault) {command : Command}
    (hDrives : command.drives = true) :
    m.obey command = (command.refusal,
      { m with journal := command.complaints.foldl Journal.record m.journal }) := by
  have hIdle : m.state ≠ .running := by
    rw [h]
    nofun
  cases command with
  | step => exact congrArg (Prod.mk Answer.nothing) (step_of_halted h)
  | run => exact congrArg (Prod.mk Answer.nothing) (run_of_halted h)
  | stop => exact congrArg (Prod.mk Answer.nothing) (stop_of_ne hIdle)
  | tick =>
      simp only [obey, tick_of_ne hIdle]
      rfl
  | _ => cases hDrives

/-- Nothing but the journal of a halted machine changes, however often it is driven. -/
theorem obeyAll_halted {fault : Fault} (h : m.state = .halted fault) {commands : List Command}
    (hDrive : ∀ command ∈ commands, command.drives = true) :
    obeyAll commands m = (commands.map Command.refusal,
      { m with
        journal := (commands.flatMap Command.complaints).foldl Journal.record m.journal }) := by
  induction commands generalizing m with
  | nil => rfl
  | cons command rest ih =>
      have hObey := obey_halted h (hDrive command List.mem_cons_self)
      have hRest := ih (m := (m.obey command).2) (by rw [hObey]; exact h) fun other hOther =>
        hDrive other (List.mem_cons_of_mem _ hOther)
      simp only [obeyAll, hRest]
      rw [hObey, List.flatMap_cons, List.foldl_append]
      rfl

/-- A machine runs because it did so before or because it was told to. -/
theorem running_entered (h : (m.follow order).2.state = .running) :
    m.state = .running ∨ m.state = .idle ∧ order = .command .run := by
  obtain ⟨fault?, hBooked⟩ := exists_booked m order
  rw [hBooked.state] at h
  cases fault? with
  | some fault => cases h
  | none => exact RunState.told_eq_running h

/-- A fault that comes up while the machine is running comes up in a tick. -/
theorem Booked.tick_of_running {fault : Fault} (hBooked : Booked m order (some fault))
    (h : m.state = .running) :
    order = .command .tick ∧ fault ∈ (m.attempts order).filterMap Attempt.fault? := by
  have hFaults := hBooked.faults
  cases hSupervised : order.supervised with
  | false =>
      have hNone : ((m.attempts order).map (order, ·)).filterMap Attempt.haltingFault? = [] := by
        simp [Attempt.haltingFault?, hSupervised]
      cases hNone.symm.trans hFaults
  | true =>
      rw [filterMap_haltingFault? hSupervised] at hFaults
      refine ⟨?_, by rw [hFaults]; exact List.mem_singleton_self fault⟩
      cases order with
      | setTrace trace | tellTime now => cases hSupervised
      | command command =>
          cases command with
          | tick => rfl
          | step =>
              rw [attempts, if_neg (by rw [h]; nofun)] at hFaults
              cases hFaults
          | _ => cases hSupervised

/-- A running machine goes on, or it was told not to, or a tick has met a fault. -/
theorem running_left (h : m.state = .running) :
    (m.follow order).2.state = .running ∨
      (order = .command .stop ∨ order = .command .reset) ∧ (m.follow order).2.state = .idle ∨
      order = .command .tick ∧ ∃ fault ∈ (m.attempts order).filterMap Attempt.fault?,
        (m.follow order).2.state = .halted fault := by
  obtain ⟨fault?, hBooked⟩ := exists_booked m order
  rw [hBooked.state, h]
  cases fault? with
  | some fault =>
      obtain ⟨hTick, hFault⟩ := hBooked.tick_of_running h
      exact .inr (.inr ⟨hTick, fault, hFault, rfl⟩)
  | none =>
      rcases RunState.told_of_running order with hTold | hTold
      · exact .inl hTold
      · exact .inr (.inl hTold)

/-- The protocol of the run state, for a machine that has followed any orders since it was
started. It is halted by a fault just when a step or a tick has met that fault since the last
reset, and there has been at most one such fault; its counter is the number of instructions
that came through since then. While it is halted, it says no to whatever drives it, and while
it is running, to being started. It begins to run when it is idle and told to, and it ends when
it is told to, or by a fault in a tick. -/
theorem runState_protocol (config : Config) (source : ρ) (screen : δ) (journal : κ)
    (orders : List Order) :
    let begun := start config source screen journal
    let m := (followAll orders begun).2
    let past := sinceReset [] orders begun
    let faults := past.filterMap Attempt.haltingFault?
    ((∀ fault, m.state = .halted fault ↔ fault ∈ faults) ∧ faults.length ≤ 1) ∧
      m.instructions = past.countP (fun event => event.2.completed) ∧
      (∀ fault, m.state = .halted fault → ∀ commands : List Command,
        (∀ command ∈ commands, command.drives = true) →
          obeyAll commands m = (commands.map Command.refusal,
            { m with journal :=
              (commands.flatMap Command.complaints).foldl Journal.record m.journal })) ∧
      (m.state = .running → m.obey .step = (.nothing, m.report runningMessage) ∧
        m.obey .run = (.nothing, m.report runningMessage)) ∧
      ∀ order,
        let next := (m.follow order).2
        (order.executes = true → m.cpu.Through (m.attempts order) next.cpu) ∧
          (next.state = .running →
            m.state = .running ∨ m.state = .idle ∧ order = .command .run) ∧
          (m.state = .running → next.state = .running ∨
            (order = .command .stop ∨ order = .command .reset) ∧ next.state = .idle ∨
            order = .command .tick ∧ ∃ fault ∈ (m.attempts order).filterMap Attempt.fault?,
              next.state = .halted fault) := by
  intro begun m past faults
  have hBegun : Accounts begun [] := ⟨rfl, rfl⟩
  have hAccounts : Accounts m past := hBegun.followAll orders
  have hFaults : faults = m.state.fault?.toList := hAccounts.faults
  refine ⟨⟨?_, ?_⟩, hAccounts.instructions, ?_, ?_, ?_⟩
  · intro fault
    rw [hFaults, Option.mem_toList, RunState.fault?_eq_some]
  · rw [hFaults]
    exact Option.length_toList_le
  · exact fun fault hHalted commands hDrive => obeyAll_halted hHalted hDrive
  · intro hRunning
    exact ⟨congrArg (Prod.mk Answer.nothing) (step_of_running hRunning),
      congrArg (Prod.mk Answer.nothing) (run_of_running hRunning)⟩
  · intro order
    obtain ⟨_, hBooked⟩ := exists_booked m order
    exact ⟨hBooked.through, running_entered, running_left⟩

/-- The second instruction of a batch is none. The machine runs until the tick, and is halted
from then on. -/
theorem runState_protocol_tick :
    let begun : Machine Congruential (Array (Address × Byte)) (Array Text) :=
      start {} (.seeded 1) #[] #[]
    let orders : List Order :=
      [.command (.poke 0x0200 0xE8), .command (.poke 0x0201 0x02), .command .run]
    let running := (followAll orders begun).2
    let m := (followAll (orders ++ [.command .tick]) begun).2
    let past := sinceReset [] (orders ++ [.command .tick]) begun
    let fault := Fault.invalidOpcode 0x02 0x0201
    (running.state = .running ∧ m.state = .halted fault ∧ m.instructions = 1) ∧
      running.obey .run = (.nothing, running.report runningMessage) ∧
      fault ∈ past.filterMap Attempt.haltingFault? ∧
      m.instructions = past.countP (fun event => event.2.completed) ∧
      obeyAll [.step, .tick] m = ([.nothing, .alive false], m.report haltedMessage) := by
  intro begun orders running m past fault
  have hStates : running.state = .running ∧ m.state = .halted fault ∧ m.instructions = 1 := by
    decide +kernel
  have hProtocol := runState_protocol (κ := Array Text) (δ := Array (Address × Byte)) {}
    (Congruential.seeded 1) #[] #[]
  have hRunning := hProtocol orders
  have hHalted := hProtocol (orders ++ [.command .tick])
  refine ⟨hStates, ?_, ?_, ?_, ?_⟩
  · exact (hRunning.2.2.2.1 hStates.1).2
  · exact (hHalted.1.1 fault).mp hStates.2.1
  · exact hHalted.2.1
  · exact hHalted.2.2.1 fault hStates.2.1 _ (by decide)

end Machine
end Micro6502
