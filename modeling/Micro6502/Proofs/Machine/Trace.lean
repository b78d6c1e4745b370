import Micro6502.Proofs.Machine.Compile
import Micro6502.Proofs.Machine.History

/-! Tracing and what it shows. A traced instruction is read from memory as it is stored, so the
machine does the same work whether somebody looks on or not; two machines that are traced at
different times differ in the lines of their journals and in nothing else. -/

namespace Micro6502

-- Nothing here depends on what the decoding table holds.
attribute [local irreducible] Catalog.decode

/-- The line that a trace shows of the instruction at the program counter: the opcode as it is
fetched, and the two bytes that are stored behind it. -/
def Processor.shownLine {ρ δ : Type} [ByteSource ρ] (cpu : Processor ρ δ) : Text :=
  Listing.formatLine cpu.pc (Catalog.decode (cpu.read cpu.pc).1) {
    first := cpu.memory.stored (cpu.pc + 1)
    second := cpu.memory.stored (cpu.pc + 2) }

namespace Machine

variable {ρ δ κ : Type} [ByteSource ρ] [Screen δ] [Journal κ]

/-- The same machine with another journal, and with its trace switched as given. -/
def reportingTo (m : Machine ρ δ κ) (journal : κ) (trace : Bool) : Machine ρ δ κ :=
  { m with journal, config := { m.config with trace } }

/-- The lines of the instructions that are executed for an order. -/
def shownLines (m : Machine ρ δ κ) (order : Order) : List Text :=
  (m.attempts order).map fun attempt => attempt.cpu.shownLine

/-- One line for each instruction that is executed while the trace is switched on. -/
def tracedLines : List Order → Machine ρ δ κ → List Text
  | [], _ => []
  | order :: rest, m =>
    (if m.config.trace then m.shownLines order else []) ++ tracedLines rest (m.follow order).2

/-- A machine that tells `lines` if it is traced, and then `notices` in any case. Beyond that
its answer and what it comes to do not depend on the trace, nor on who listens. -/
def Tells {α : Type} (act : Machine ρ δ κ → α × Machine ρ δ κ) (m : Machine ρ δ κ)
    (lines notices : List Text) : Prop :=
  ∀ journal trace, act (m.reportingTo journal trace) =
    ((act m).1, (act m).2.reportingTo
      (((if trace then lines else []) ++ notices).foldl Journal.record journal) trace)

omit [Screen δ] in
/-- The journal has one line more if the machine is traced. -/
theorem tracedJournal_eq (m : Machine ρ δ κ) : m.tracedJournal =
    if m.config.trace then Journal.record m.journal m.cpu.shownLine else m.journal := by
  have hStored : ∀ address,
      m.cpu.fetchByte.2.memory.stored address = m.cpu.memory.stored address :=
    m.cpu.memory.stored_afterRead m.cpu.pc
  simp only [tracedJournal, traceLine, report, hStored]
  split <;> rfl

/-- An instruction is executed in the same way whether its line is told or not. -/
theorem stepInstruction_reportingTo (m : Machine ρ δ κ) (journal : κ) (trace : Bool) :
    (m.reportingTo journal trace).stepInstruction =
      let told := if trace then Journal.record journal m.cpu.shownLine else journal
      match m.stepInstruction with
      | .done _ next => .done () (next.reportingTo told trace)
      | .faulted fault next => .faulted fault (next.reportingTo told trace) := by
  rw [stepInstruction_eq, stepInstruction_eq, tracedJournal_eq]
  have hCpu : (m.reportingTo journal trace).cpu = m.cpu := rfl
  rw [hCpu]
  cases m.cpu.cycle with
  | done _ cpu => rfl
  | faulted fault cpu => rfl

/-- The lines of a batch come one after another, and what is said of a fault comes last. -/
theorem tells_runBatch (count : Nat) (m : Machine ρ δ κ) : ∃ notices,
    Tells (runBatch count) m ((m.batch count).map fun attempt => attempt.cpu.shownLine)
      notices := by
  induction count generalizing m with
  | zero =>
      refine ⟨[], ?_⟩
      intro journal trace
      cases trace <;> rfl
  | succ count ih =>
      cases hStep : m.stepInstruction with
      | done _ next =>
          obtain ⟨notices, hRest⟩ := ih next
          refine ⟨notices, ?_⟩
          intro journal trace
          rw [runBatch_succ, runBatch_succ, stepInstruction_reportingTo, batch_succ, hStep]
          dsimp only
          rw [hRest]
          cases trace <;> rfl
      | faulted fault next =>
          refine ⟨[fault.message, "Processing has been halted. RESET to continue.".toList], ?_⟩
          intro journal trace
          rw [runBatch_succ, runBatch_succ, stepInstruction_reportingTo, batch_succ, hStep]
          cases trace <;> rfl

omit [Journal κ] in
/-- The trace shows itself in no access to memory. -/
theorem reportingTo_simulation (journal : κ) (trace : Bool) :
    Bus.Simulation fun m other : Machine ρ δ κ => other = m.reportingTo journal trace where
  read := by
    rintro m _ rfl address
    exact ⟨rfl, rfl⟩
  write := by
    rintro m _ rfl address byte
    rfl

omit [ByteSource ρ] [Screen δ] in
/-- Nothing is told by what does the same for every journal and every trace. -/
theorem tells_silently {act : Machine ρ δ κ → Answer × Machine ρ δ κ} {m : Machine ρ δ κ}
    (h : ∀ journal trace, Agree (fun next other => other = next.reportingTo journal trace)
      (act m) (act (m.reportingTo journal trace))) : Tells act m [] [] := by
  intro journal trace
  obtain ⟨hAnswer, hNext⟩ := h journal trace
  rw [ite_self]
  exact Prod.ext hAnswer.symm hNext

omit [ByteSource ρ] [Screen δ] in
/-- What is said about an order that is refused is said in any case. -/
theorem tells_message {act : Machine ρ δ κ → Answer × Machine ρ δ κ} {m : Machine ρ δ κ}
    {message : Text} (h : ∀ journal trace, act (m.reportingTo journal trace) =
      (.nothing, (m.reportingTo journal trace).report message)) : Tells act m [] [message] := by
  intro journal trace
  have hSelf : act m = (.nothing, m.report message) := h m.journal m.config.trace
  rw [h, hSelf, ite_self]
  rfl

/-- Compiling says the same about a source, traced or not. -/
theorem tells_compile (m : Machine ρ δ κ) (assembler : Assembly.Assembler) (source : Text) :
    ∃ notices, Tells (fun m => m.obey (.compile assembler source)) m [] notices := by
  obtain ⟨messages, program?, hCompile⟩ :=
    exists_compile_eq (ρ := ρ) (δ := δ) (κ := κ) assembler source
  have hObey : ∀ m : Machine ρ δ κ, m.obey (.compile assembler source) =
      (.accepted program?.isSome,
        program?.elim (messages.foldl report m) (messages.foldl report m).accept) :=
    fun m => Prod.ext (congrArg Answer.accepted (hCompile m).1) (hCompile m).2
  cases program? with
  | none =>
      refine ⟨messages, ?_⟩
      intro journal trace
      simp only [hObey, Option.elim_none, foldl_report, ite_self]
      rfl
  | some program =>
      refine ⟨messages ++ ["Compilation complete.".toList, loadMessage program], ?_⟩
      intro journal trace
      simp only [hObey, Option.elim_some, foldl_report, accept_eq, ite_self, List.nil_append,
        List.foldl_append]
      rfl

theorem tells_stop (m : Machine ρ δ κ) : Tells (fun m => m.obey .stop) m [] [] := by
  apply tells_silently
  intro journal trace
  by_cases hState : m.state = .running
  · have hSame : (m.reportingTo journal trace).state = .running := hState
    simp only [obey, stop_of_running hState, stop_of_running hSame]
    exact ⟨rfl, rfl⟩
  · have hSame : (m.reportingTo journal trace).state ≠ .running := hState
    simp only [obey, stop_of_ne hState, stop_of_ne hSame]
    exact ⟨rfl, rfl⟩

/-- An order to run is silent if it is followed, and if it is not, the machine says why. -/
theorem tells_run (m : Machine ρ δ κ) : ∃ notices,
    Tells (fun m => m.obey .run) m [] notices := by
  cases hState : m.state with
  | idle =>
      refine ⟨[], tells_silently ?_⟩
      intro journal trace
      have hSame : (m.reportingTo journal trace).state = .idle := hState
      simp only [obey, run_of_idle hState, run_of_idle hSame]
      exact ⟨rfl, rfl⟩
  | running =>
      refine ⟨[runningMessage], tells_message ?_⟩
      intro journal trace
      exact congrArg (Prod.mk _) (run_of_running (m := m.reportingTo journal trace) hState)
  | halted fault =>
      refine ⟨[haltedMessage], tells_message ?_⟩
      intro journal trace
      exact congrArg (Prod.mk _) (run_of_halted (m := m.reportingTo journal trace) hState)

/-- A step tells of its instruction if the machine is traced, and of a fault or a refusal in any
case. -/
theorem tells_step (m : Machine ρ δ κ) : ∃ notices,
    Tells (fun m => m.obey .step) m (m.shownLines (.command .step)) notices := by
  cases hState : m.state with
  | idle =>
      obtain ⟨notices, hBatch⟩ := tells_runBatch 1 m
      refine ⟨notices, ?_⟩
      intro journal trace
      have hSame : (m.reportingTo journal trace).state = .idle := hState
      simp only [obey, step_of_idle hSame, step_of_idle hState, shownLines, attempts, hState,
        if_pos]
      rw [hBatch]
  | running =>
      have hNone : m.shownLines (.command .step) = [] := by simp [shownLines, attempts, hState]
      rw [hNone]
      refine ⟨[runningMessage], tells_message ?_⟩
      intro journal trace
      exact congrArg (Prod.mk _) (step_of_running (m := m.reportingTo journal trace) hState)
  | halted fault =>
      have hNone : m.shownLines (.command .step) = [] := by simp [shownLines, attempts, hState]
      rw [hNone]
      refine ⟨[haltedMessage], tells_message ?_⟩
      intro journal trace
      exact congrArg (Prod.mk _) (step_of_halted (m := m.reportingTo journal trace) hState)

/-- An instruction by itself tells its line and nothing else. Its fault is handed to the host. -/
theorem tells_stepInstruction (m : Machine ρ δ κ) :
    Tells (fun m => m.obey .stepInstruction) m (m.shownLines (.command .stepInstruction)) [] := by
  intro journal trace
  simp only [obey, shownLines, attempts, batch_succ]
  rw [stepInstruction_reportingTo]
  cases m.stepInstruction with
  | done _ next => cases trace <;> rfl
  | faulted fault next => cases trace <;> rfl

/-- A tick tells one line for each instruction of its batch, and of a fault in any case. -/
theorem tells_tick (m : Machine ρ δ κ) : ∃ notices,
    Tells (fun m => m.obey .tick) m (m.shownLines (.command .tick)) notices := by
  by_cases hState : m.state = .running
  · obtain ⟨notices, hBatch⟩ := tells_runBatch m.config.batchSize m
    refine ⟨notices, ?_⟩
    intro journal trace
    have hSame : (m.reportingTo journal trace).state = .running := hState
    have hSize : (m.reportingTo journal trace).config.batchSize = m.config.batchSize := rfl
    simp only [obey, tick_of_running hSame, tick_of_running hState, shownLines, attempts,
      if_pos hState]
    rw [hSize, hBatch]
  · have hNone : m.shownLines (.command .tick) = [] := by simp [shownLines, attempts, hState]
    rw [hNone]
    refine ⟨[], tells_silently ?_⟩
    intro journal trace
    have hSame : (m.reportingTo journal trace).state ≠ .running := hState
    simp only [obey, tick_of_ne hState, tick_of_ne hSame]
    exact ⟨rfl, rfl⟩

/-- Every command is obeyed in the same way whether its lines are told or not. -/
theorem tells_obey (m : Machine ρ δ κ) (command : Command) : ∃ notices,
    Tells (fun m => m.obey command) m (m.shownLines (.command command)) notices := by
  cases command with
  | poke address byte | peek address | set setting =>
      refine ⟨[], tells_silently ?_⟩
      intro journal trace
      exact ⟨rfl, rfl⟩
  | peekWord address =>
      refine ⟨[], tells_silently ?_⟩
      intro journal trace
      have hOther : m.reportingTo journal trace = m.reportingTo journal trace := rfl
      have hWord := (reportingTo_simulation journal trace).readWord hOther address
      exact ⟨congrArg Answer.word hWord.answer, hWord.state⟩
  | decompile start limit =>
      refine ⟨[], tells_silently ?_⟩
      intro journal trace
      have hOther : m.reportingTo journal trace = m.reportingTo journal trace := rfl
      have hText := (reportingTo_simulation journal trace).decompile hOther start limit
      exact ⟨congrArg Answer.listing hText.answer, hText.state⟩
  | dump start limit =>
      refine ⟨[], tells_silently ?_⟩
      intro journal trace
      have hOther : m.reportingTo journal trace = m.reportingTo journal trace := rfl
      have hText := (reportingTo_simulation journal trace).dump hOther start limit
      exact ⟨congrArg Answer.listing hText.answer, hText.state⟩
  | reset =>
      refine ⟨["CPU has been successfully reset.".toList], ?_⟩
      intro journal trace
      cases trace <;> rfl
  | stop => exact ⟨[], tells_stop m⟩
  | run => exact tells_run m
  | step => exact tells_step m
  | stepInstruction => exact ⟨[], tells_stepInstruction m⟩
  | tick => exact tells_tick m
  | compile assembler source => exact tells_compile m assembler source

end Machine

/-- The same orders, but for settings of the trace that come in between on either side. -/
inductive Order.SameButTrace : List Order → List Order → Prop
  | nil : SameButTrace [] []
  | cons (order : Order) {orders others : List Order} (h : SameButTrace orders others) :
      SameButTrace (order :: orders) (order :: others)
  | left (trace : Bool) {orders others : List Order} (h : SameButTrace orders others) :
      SameButTrace (.setTrace trace :: orders) others
  | right (trace : Bool) {orders others : List Order} (h : SameButTrace orders others) :
      SameButTrace orders (.setTrace trace :: others)

/-- One of two machines side by side. -/
inductive Side where
  | left
  | right

/-- What the journals of two machines are about. A notice is in both of them. The line of an
instruction is in the journals of those machines that were traced when they executed it. -/
inductive Remark where
  | notice (message : Text)
  | line (message : Text) (traced : Side → Bool)

namespace Remark

/-- What the journal on one side has of a remark. -/
def heard? (side : Side) : Remark → Option Text
  | notice message => some message
  | line message traced => if traced side then some message else none

/-- What the journal on one side has of a remark about an instruction. -/
def line? (side : Side) : Remark → Option Text
  | notice _ => none
  | line message traced => if traced side then some message else none

/-- The remarks about one order. -/
def ofOrder (lines notices : List Text) (traced : Side → Bool) : List Remark :=
  lines.map (line · traced) ++ notices.map notice

variable (lines notices : List Text) (traced : Side → Bool) (side : Side)

/-- The journal of a traced side has the lines of an order in front of its notices. -/
theorem heard_ofOrder : (ofOrder lines notices traced).filterMap (heard? side) =
    (if traced side then lines else []) ++ notices := by
  cases hTraced : traced side <;>
    simp [ofOrder, List.filterMap_append, List.filterMap_map, Function.comp_def, heard?, hTraced]

theorem line_ofOrder : (ofOrder lines notices traced).filterMap (line? side) =
    if traced side then lines else [] := by
  cases hTraced : traced side <;>
    simp [ofOrder, List.filterMap_append, List.filterMap_map, Function.comp_def, line?, hTraced]

end Remark

namespace Machine

variable {ρ δ κ : Type} [ByteSource ρ] [Screen δ] [Journal κ]

theorem batch_reportingTo (count : Nat) (m : Machine ρ δ κ) (journal : κ) (trace : Bool) :
    (m.reportingTo journal trace).batch count = m.batch count := by
  induction count generalizing m journal with
  | zero => rfl
  | succ count ih =>
      rw [batch_succ, batch_succ, stepInstruction_reportingTo]
      cases m.stepInstruction with
      | done _ next => exact congrArg (List.cons _) (ih next _)
      | faulted fault next => rfl

/-- The lines of an order are there to be told, whether they are or not. -/
theorem shownLines_reportingTo (m : Machine ρ δ κ) (journal : κ) (trace : Bool) (order : Order) :
    (m.reportingTo journal trace).shownLines order = m.shownLines order := by
  have hAttempts : (m.reportingTo journal trace).attempts order = m.attempts order := by
    unfold attempts
    split <;> simp only [batch_reportingTo] <;> rfl
  rw [shownLines, hAttempts, shownLines]

/-- A setting of the trace executes nothing, so it adds no line. -/
theorem tracedLines_setTrace (m : Machine ρ δ κ) (trace : Bool) (rest : List Order) :
    tracedLines (.setTrace trace :: rest) m = tracedLines rest (m.setTrace trace) := by
  simp [tracedLines, shownLines, attempts, follow]

theorem tracedLines_tellTime (m : Machine ρ δ κ) (now : Float) (rest : List Order) :
    tracedLines (.tellTime now :: rest) m = tracedLines rest (m.tellTime now) := by
  simp [tracedLines, shownLines, attempts, follow]

/-- The machine on the left, and the one on the right that listens elsewhere and is traced at
other times. -/
def traced (m : Machine ρ δ κ) (trace : Bool) : Side → Bool
  | .left => m.config.trace
  | .right => trace

/-- Two machines that started with nothing between them but journals and traces, and were
given the same orders but for the trace, have the same remarks made about them. -/
theorem followAll_reportingTo {orders others : List Order}
    (h : Order.SameButTrace orders others) (m : Machine ρ δ κ) (journal : κ) (trace : Bool) :
    ∃ (remarks : List Remark) (last : Bool),
      followAll others (m.reportingTo journal trace) = ((followAll orders m).1,
        (followAll orders m).2.reportingTo
          ((remarks.filterMap (Remark.heard? .right)).foldl Journal.record journal) last) ∧
      (followAll orders m).2.journal =
        (remarks.filterMap (Remark.heard? .left)).foldl Journal.record m.journal ∧
      remarks.filterMap (Remark.line? .left) = tracedLines orders m ∧
      remarks.filterMap (Remark.line? .right) =
        tracedLines others (m.reportingTo journal trace) := by
  induction h generalizing m journal trace with
  | nil => exact ⟨[], trace, rfl, rfl, rfl, rfl⟩
  | left setting _ ih =>
      rw [tracedLines_setTrace]
      exact ih (m.setTrace setting) journal trace
  | right setting _ ih =>
      rw [tracedLines_setTrace]
      exact ih m journal setting
  | cons order _ ih =>
      cases order with
      | setTrace setting =>
          rw [tracedLines_setTrace, tracedLines_setTrace]
          exact ih (m.setTrace setting) journal setting
      | tellTime now =>
          rw [tracedLines_tellTime, tracedLines_tellTime]
          exact ih (m.tellTime now) journal trace
      | command command =>
          obtain ⟨notices, hTells⟩ := tells_obey m command
          obtain ⟨remarks, last, hRight, hLeft, hLines, hOtherLines⟩ := ih (m.obey command).2
            (((if trace then m.shownLines (.command command) else []) ++ notices).foldl
              Journal.record journal) trace
          have hSelf : (m.obey command).2.journal =
              ((if m.config.trace then m.shownLines (.command command) else []) ++
                notices).foldl Journal.record m.journal :=
            congrArg (fun result => result.2.journal) (hTells m.journal m.config.trace)
          have hOther := hTells journal trace
          dsimp only at hOther
          refine ⟨Remark.ofOrder (m.shownLines (.command command)) notices (m.traced trace) ++
            remarks, last, ?_, ?_, ?_, ?_⟩
          · simp only [followAll, follow, hOther, hRight]
            simp only [List.filterMap_append, Remark.heard_ofOrder, List.foldl_append, traced]
            rfl
          · simp only [followAll, follow, hLeft, hSelf]
            simp only [List.filterMap_append, Remark.heard_ofOrder, List.foldl_append, traced]
            rfl
          · simp only [tracedLines, follow, hLines, List.filterMap_append,
              Remark.line_ofOrder, traced]
            rfl
          · simp only [tracedLines, follow, hOther, hOtherLines, List.filterMap_append,
              Remark.line_ofOrder, traced, shownLines_reportingTo]
            rfl

/-- Tracing is invisible to the machine. Two machines that differ in the setting of the trace
are given the same orders, with further settings of the trace in between on either side: they
give the same answers and come to differ in nothing but that setting and their journals. The
journals hold the same notices in the same order, and between them each has one line for each
instruction that its machine executed while it was traced. -/
theorem followAll_traced {orders others : List Order} (h : Order.SameButTrace orders others)
    (m : Machine ρ δ κ) (trace : Bool) :
    let (answers, after) := followAll orders m
    let (otherAnswers, otherAfter) := followAll others (m.setTrace trace)
    answers = otherAnswers ∧
      otherAfter = after.reportingTo otherAfter.journal otherAfter.config.trace ∧
      ∃ remarks : List Remark,
        after.journal =
          (remarks.filterMap (Remark.heard? .left)).foldl Journal.record m.journal ∧
        otherAfter.journal =
          (remarks.filterMap (Remark.heard? .right)).foldl Journal.record m.journal ∧
        remarks.filterMap (Remark.line? .left) = tracedLines orders m ∧
        remarks.filterMap (Remark.line? .right) = tracedLines others (m.setTrace trace) := by
  obtain ⟨remarks, last, hRight, hLeft, hLines, hOtherLines⟩ :=
    followAll_reportingTo h m m.journal trace
  have hOther : m.setTrace trace = m.reportingTo m.journal trace := rfl
  rw [hOther, hRight]
  exact ⟨rfl, rfl, remarks, hLeft, rfl, hLines, hOtherLines⟩

/-- A load from the random address, and then a byte that is no instruction. One machine traces
the load alone, and the other one the fault. -/
theorem followAll_traced_load :
    let m : Machine Congruential (Array (Address × Byte)) (Array Text) :=
      Bus.writeBytes (start {} (.seeded 1) #[] #[]) 0x0200 [0xA5, 0xFD, 0x02]
    let orders : List Order := [.setTrace true, .command .step, .setTrace false, .command .step,
      .command (.peek randomAddress)]
    let others : List Order := [.setTrace false, .command .step, .setTrace true, .command .step,
      .command (.peek randomAddress)]
    (tracedLines orders m = ["$0200: LDA $FD".toList] ∧
      tracedLines others (m.setTrace true) = ["$0202: ???".toList]) ∧
      Order.SameButTrace orders others ∧
      let (answers, after) := followAll orders m
      let (otherAnswers, otherAfter) := followAll others (m.setTrace true)
      answers = otherAnswers ∧
        otherAfter = after.reportingTo otherAfter.journal otherAfter.config.trace ∧
        ∃ remarks : List Remark,
          after.journal =
            (remarks.filterMap (Remark.heard? .left)).foldl Journal.record m.journal ∧
          otherAfter.journal =
            (remarks.filterMap (Remark.heard? .right)).foldl Journal.record m.journal ∧
          remarks.filterMap (Remark.line? .left) = tracedLines orders m ∧
          remarks.filterMap (Remark.line? .right) = tracedLines others (m.setTrace true) := by
  intro m orders others
  have hSame : Order.SameButTrace orders others :=
    .left _ (.right _ (.cons _ (.left _ (.right _ (.cons _ (.cons _ .nil))))))
  exact ⟨by decide +kernel, hSame, followAll_traced hSame m true⟩

end Machine
end Micro6502
