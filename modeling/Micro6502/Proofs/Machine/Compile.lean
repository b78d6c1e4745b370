import Micro6502.Machine.Compile
import Micro6502.Proofs.Assembly.Assembler

/-! Compiling into a machine. A source is loaded as a whole or leaves nothing behind but
messages, and which of the two happens depends on the source alone. -/

namespace Micro6502

open Assembly

namespace Machine

variable {ρ δ κ : Type} [ByteSource ρ] [Screen δ] [Journal κ]

def withMemory (m : Machine ρ δ κ) (memory : Memory ρ δ) : Machine ρ δ κ :=
  { m with cpu := { m.cpu with memory } }

omit [Journal κ] in
/-- Bytes that are stored through a machine are stored into its memory. -/
theorem writeBytes_eq (m : Machine ρ δ κ) (address : Address) (bytes : List Byte) :
    Bus.writeBytes m address bytes =
      m.withMemory (Bus.writeBytes m.cpu.memory address bytes) := by
  induction bytes generalizing m address with
  | nil => rfl
  | cons byte bytes ih => exact ih _ _

omit [Journal κ] in
/-- Loading a program through a machine changes its memory and nothing else. -/
theorem load_eq (m : Machine ρ δ κ) (program : Program) :
    program.load m = m.withMemory (program.load m.cpu.memory) := by
  unfold Program.load
  induction program.lines generalizing m with
  | nil => rfl
  | cons line rest ih =>
      rw [List.foldl_cons, List.foldl_cons, writeBytes_eq]
      exact ih _

omit [ByteSource ρ] [Screen δ] in
theorem foldl_report (m : Machine ρ δ κ) (messages : List Text) :
    messages.foldl report m = { m with journal := messages.foldl Journal.record m.journal } := by
  induction messages generalizing m with
  | nil => rfl
  | cons message rest ih => exact ih _

/-- An accepted program is in memory, the counter is where the program set it last, and two
messages more are in the journal. -/
theorem accept_eq (m : Machine ρ δ κ) (program : Program) :
    m.accept program = { m with
      cpu := { m.cpu with
        memory := program.load m.cpu.memory
        pc := program.origin.getD m.cpu.pc }
      journal := ["Compilation complete.".toList, loadMessage program].foldl Journal.record
        m.journal } := by
  unfold accept
  simp only [load_eq]
  cases program.origin with
  | none => rfl
  | some address => rfl

/-- What is said about a source and what is accepted of it depends on the source and on the
assembler, not on the machine. -/
theorem exists_compile_eq (assembler : Assembler) (source : Text) :
    ∃ (messages : List Text) (program? : Option Program), ∀ m : Machine ρ δ κ,
      (m.compile assembler source).1 = program?.isSome ∧ (m.compile assembler source).2.1 =
        program?.elim (messages.foldl report m) (messages.foldl report m).accept := by
  unfold compile assembleReported
  cases assembler.layOut source with
  | mk pass learnt =>
      cases pass with
      | error diagnostic =>
          exact ⟨["Starting compilation.".toList, "Starting compilation pass 1.".toList,
            diagnostic.message], none, fun m => ⟨rfl, rfl⟩⟩
      | ok layout =>
          dsimp only
          cases layout.fill with
          | error diagnostic =>
              exact ⟨["Starting compilation.".toList, "Starting compilation pass 1.".toList,
                layoutMessage layout, "Starting compilation pass 2.".toList,
                diagnostic.message], none, fun m => ⟨rfl, rfl⟩⟩
          | ok program =>
              exact ⟨["Starting compilation.".toList, "Starting compilation pass 1.".toList,
                layoutMessage layout, "Starting compilation pass 2.".toList],
                some program, fun m => ⟨rfl, rfl⟩⟩

variable {assembler : Assembler}

omit [ByteSource ρ] [Screen δ] in
/-- The two passes with their announcements find what they find without a machine. -/
theorem assembleReported_eq (h : assembler.Sound) (m : Machine ρ δ κ) (source : Text) :
    ∃ (messages : List Text) (learnt : Assembler), m.assembleReported assembler source =
      (Assembly.assemble source, messages.foldl report m, learnt) ∧ learnt.Sound := by
  have hPass := h.layOut source
  unfold assembleReported Assembly.assemble assembleWith
  rw [← hPass.1]
  generalize assembler.layOut source = pass at hPass
  obtain ⟨diagnostic | layout, learnt⟩ := pass
  · exact ⟨["Starting compilation pass 1.".toList], learnt, rfl, hPass.2⟩
  · exact ⟨["Starting compilation pass 1.".toList, layoutMessage layout,
      "Starting compilation pass 2.".toList], learnt, rfl, hPass.2⟩

/-- Compiling leaves a sound assembler, also if the source is rejected. -/
theorem sound_compile (h : assembler.Sound) (m : Machine ρ δ κ) (source : Text) :
    (m.compile assembler source).2.2.Sound := by
  obtain ⟨messages, learnt, hReported, hLearnt⟩ :=
    assembleReported_eq h (m.report "Starting compilation.".toList) source
  unfold compile
  dsimp only
  rw [hReported]
  cases Assembly.assemble source with
  | error diagnostic => exact hLearnt
  | ok program => exact hLearnt

end Machine

/-- The assemblers that come out of any series of uses, whether they succeeded or not. -/
inductive Assembly.Assembler.Reached : Assembler → Prop
  | fresh : Reached {}
  | assemble {assembler : Assembler} (h : Reached assembler) (source : Text) :
      Reached (assembler.assemble source).2
  | compile {ρ δ κ : Type} [ByteSource ρ] [Screen δ] [Journal κ] {assembler : Assembler}
      (h : Reached assembler) (m : Machine ρ δ κ) (source : Text) :
      Reached (m.compile assembler source).2.2

/-- Every assembler is sound, whatever it was used for. -/
theorem Assembly.Assembler.Reached.sound {assembler : Assembler} (h : assembler.Reached) :
    assembler.Sound := by
  induction h with
  | fresh => exact sound_fresh
  | assemble _ source ih => exact (ih.assemble source).2
  | compile _ m source ih => exact Machine.sound_compile ih m source

namespace Machine

variable {ρ δ κ : Type} [ByteSource ρ] [Screen δ] [Journal κ] {assembler : Assembler}

/-- An assembler answers as a fresh one, whatever it was used for before. A source that it
accepts changes the memory, the counter and the journal of a machine; one that it rejects
changes the journal, and the last message there says why. -/
theorem compile_of_reached (h : assembler.Reached) (m : Machine ρ δ κ) (source : Text) :
    (assembler.assemble source).1 = (({} : Assembler).assemble source).1 ∧
      (({} : Assembler).assemble source).1 = Assembly.assemble source ∧
      let (accepted, after, _) := m.compile assembler source
      match Assembly.assemble source with
      | .ok program => accepted = true ∧ ∃ messages : List Text, after = { m with
          cpu := { m.cpu with
            memory := program.load m.cpu.memory
            pc := program.origin.getD m.cpu.pc }
          journal := messages.foldl Journal.record m.journal }
      | .error diagnostic => accepted = false ∧ ∃ messages : List Text, after = { m with
          journal := (messages ++ [diagnostic.message]).foldl Journal.record m.journal } := by
  have hFresh := Assembler.sound_fresh.assemble source
  refine ⟨(h.sound.assemble source).1.trans hFresh.1.symm, hFresh.1, ?_⟩
  obtain ⟨messages, learnt, hReported, -⟩ :=
    assembleReported_eq h.sound (m.report "Starting compilation.".toList) source
  simp only [compile, hReported]
  cases Assembly.assemble source with
  | error diagnostic =>
      refine ⟨rfl, "Starting compilation.".toList :: messages, ?_⟩
      rw [List.foldl_append, foldl_report]
      rfl
  | ok program =>
      refine ⟨rfl, "Starting compilation.".toList :: messages ++
        ["Compilation complete.".toList, loadMessage program], ?_⟩
      refine (accept_eq _ program).trans ?_
      rw [List.foldl_append, foldl_report]
      rfl

/-- An assembler that has failed in the first pass over one source and in the second pass over
another. It has kept what it learnt from both. -/
theorem compile_of_reached_failed :
    let m : Machine Congruential (Array (Address × Byte)) (Array Text) :=
      start {} (.seeded 1) #[] #[]
    let failed := (({} : Assembler).assemble "LDA #1\nBAD".toList).2
    let assembler := (m.compile failed "INX\nJMP NOWHERE".toList).2.2
    let source := "AGAIN: INX\nJMP AGAIN".toList
    assembler.known.map Prod.fst = ["JMP".toList, "INX".toList, "LDA".toList] ∧
      assembler.Reached ∧
      (assembler.assemble source).1 = (({} : Assembler).assemble source).1 ∧
      (({} : Assembler).assemble source).1 = Assembly.assemble source ∧
      let (accepted, after, _) := m.compile assembler source
      match Assembly.assemble source with
      | .ok program => accepted = true ∧ ∃ messages : List Text, after = { m with
          cpu := { m.cpu with
            memory := program.load m.cpu.memory
            pc := program.origin.getD m.cpu.pc }
          journal := messages.foldl Journal.record m.journal }
      | .error diagnostic => accepted = false ∧ ∃ messages : List Text, after = { m with
          journal := (messages ++ [diagnostic.message]).foldl Journal.record m.journal } := by
  intro m failed assembler source
  have hReached : assembler.Reached := .compile (.assemble .fresh _) m _
  exact ⟨by decide +kernel, hReached, compile_of_reached hReached m source⟩

end Machine
end Micro6502
