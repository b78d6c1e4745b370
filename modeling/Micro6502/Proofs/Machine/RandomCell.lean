import Micro6502.Proofs.Machine.Screen
import Micro6502.Proofs.Machine.Session

/-! The byte that is stored at the random address. Writes reach it, and no read ever does:
unless a trace shows it, a host cannot learn what it is. -/

namespace Micro6502

-- A reset goes through the addresses of the window; the machine does not have to list them.
attribute [local irreducible] windowAddresses

namespace Memory

variable {ρ δ : Type}

/-- Equal up to the byte stored at the random address. -/
structure SameButRandom (memory other : Memory ρ δ) : Prop where
  stored : ∀ address, address ≠ randomAddress → memory.stored address = other.stored address
  source : memory.source = other.source
  screen : memory.screen = other.screen

variable [ByteSource ρ] [Screen δ] {memory other : Memory ρ δ}

/-- A read of the random address draws the same byte from equal sources; any other read finds the
same byte stored. -/
theorem SameButRandom.read (h : SameButRandom memory other) (address : Address) :
    Agree SameButRandom (Bus.read memory address) (Bus.read other address) := by
  show Agree SameButRandom (memory.value address, memory.afterRead address)
    (other.value address, other.afterRead address)
  by_cases hRandom : address = randomAddress
  · subst hRandom
    simp only [value, afterRead, if_pos, h.source]
    exact ⟨rfl, h.stored, rfl, h.screen⟩
  · rw [value_of_ne _ hRandom, value_of_ne _ hRandom, afterRead_of_ne _ hRandom,
      afterRead_of_ne _ hRandom]
    exact ⟨h.stored address hRandom, h⟩

omit [ByteSource ρ] in
/-- The same byte goes to the same address, and both screens are told of it or neither is. -/
theorem SameButRandom.write (h : SameButRandom memory other) (address : Address) (byte : Byte) :
    SameButRandom (memory.write address byte) (other.write address byte) where
  stored := by
    intro place hPlace
    rw [stored_write, stored_write, h.stored place hPlace]
  source := h.source
  screen := by simp only [Memory.write, h.screen]

omit [ByteSource ρ] in
/-- Different bytes may go to the random address. No screen is told of them. -/
theorem SameButRandom.writeRandom (h : SameButRandom memory other) (byte otherByte : Byte) :
    SameButRandom (memory.write randomAddress byte) (other.write randomAddress otherByte) where
  stored := by
    intro place hPlace
    rw [stored_write, stored_write, if_neg hPlace, if_neg hPlace, h.stored place hPlace]
  source := h.source
  screen := by
    simp only [Memory.write, inWindow_randomAddress, Bool.false_eq_true, ↓reduceIte, h.screen]

omit [ByteSource ρ] in
/-- A reset makes all bytes zero. The screens are darkened alike, for the random address is not in
the window. -/
theorem SameButRandom.clear (h : SameButRandom memory other) :
    SameButRandom memory.clear other.clear where
  stored := by
    intro place _
    rw [stored_clear, stored_clear]
  source := h.source
  screen := by
    have hWindow : ∀ address, inWindow address = true →
        memory.cells.get address = other.cells.get address := by
      intro address hIn
      refine h.stored address fun hRandom => ?_
      rw [hRandom, inWindow_randomAddress] at hIn
      cases hIn
    simp only [Memory.clear, h.screen]
    exact darken_congr _ hWindow

/-- Without a trace nothing reveals the byte stored at the random address. -/
theorem sameButRandom_simulation :
    Simulation false (SameButRandom : Memory ρ δ → Memory ρ δ → Prop) where
  read := SameButRandom.read
  write := SameButRandom.write
  clear := SameButRandom.clear
  shown := fun hTrace => absurd hTrace (by decide)

end Memory

/-- The same command, or two bytes that are stored at the random address. -/
inductive Command.SameButRandom : Command → Command → Prop
  | same (command : Command) : SameButRandom command command
  | poke (byte other : Byte) :
      SameButRandom (.poke randomAddress byte) (.poke randomAddress other)

namespace Machine

variable {ρ δ κ : Type} [ByteSource ρ] [Screen δ] [Journal κ]

/-- Machines that are equal up to the byte stored at the random address. -/
abbrev SameButRandom (config : Config) : Machine ρ δ κ → Machine ρ δ κ → Prop :=
  Alike Memory.SameButRandom config

variable {config : Config} {m other : Machine ρ δ κ}

/-- A command leaves the machines as equal as they were, also if each is given a byte of its own
for the random address. -/
theorem SameButRandom.obey (hTrace : config.trace = false) (h : SameButRandom config m other)
    {command otherCommand : Command} (hCommand : command.SameButRandom otherCommand) :
    Agree (SameButRandom config) (m.obey command) (other.obey otherCommand) := by
  cases hCommand with
  | same command =>
      exact Alike.obey (hTrace ▸ Memory.sameButRandom_simulation) h command
  | poke byte otherByte =>
      have hCpu : Processor.Alike Memory.SameButRandom (m.cpu.write randomAddress byte)
          (other.cpu.write randomAddress otherByte) :=
        ⟨h.cpu.registers, h.cpu.memory.writeRandom byte otherByte⟩
      exact ⟨rfl, { h with cpu := hCpu }⟩

/-- Two machines that may differ in the byte stored at the random address, and that are given
the same commands but for the bytes they store there, give the same answers, send the same
messages and paint the same bytes, and they do not come to differ in anything else. A read of
the random address never depends on a write to it. -/
theorem obeyAll_sameButRandom (hTrace : config.trace = false) (h : SameButRandom config m other)
    {commands others : List Command}
    (hCommands : List.Forall₂ Command.SameButRandom commands others) :
    Agree (SameButRandom config) (obeyAll commands m) (obeyAll others other) ∧
      ∀ byte, (Bus.read (Bus.write m randomAddress byte) randomAddress).1 =
        (Bus.read m randomAddress).1 := by
  refine ⟨?_, fun byte => ?_⟩
  · induction hCommands generalizing m other with
    | nil => exact ⟨rfl, h⟩
    | cons hCommand _ ih =>
        have hFirst := SameButRandom.obey hTrace h hCommand
        have hRest := ih hFirst.state
        exact ⟨congrArg₂ List.cons hFirst.answer hRest.answer, hRest.state⟩
  · rfl

/-- An instruction that lies across the random address, so that its operand is random, on two
machines that hold different bytes there and are given different bytes for it again. -/
theorem obeyAll_sameButRandom_executed :
    let start : Machine Congruential (Array (Address × Byte)) (Array Text) :=
      start {} (.seeded 1) #[] #[]
    let m := Bus.write start randomAddress 0x00
    let other := Bus.write start randomAddress 0xAA
    let commands (byte : Byte) : List Command :=
      [.poke 0x00FC 0xA9, .poke randomAddress byte, .set (.pc 0x00FC), .step,
        .peek randomAddress, .poke 0xFFFF 0x07, .reset]
    m.cpu.memory.stored randomAddress ≠ other.cpu.memory.stored randomAddress ∧
      SameButRandom {} m other ∧
      List.Forall₂ Command.SameButRandom (commands 0x55) (commands 0x66) ∧
      Agree (SameButRandom {}) (obeyAll (commands 0x55) m) (obeyAll (commands 0x66) other) ∧
      ∀ byte, (Bus.read (Bus.write m randomAddress byte) randomAddress).1 =
        (Bus.read m randomAddress).1 := by
  intro start m other commands
  have hStored : m.cpu.memory.stored randomAddress ≠ other.cpu.memory.stored randomAddress := by
    have hFirst : m.cpu.memory.stored randomAddress = 0x00 :=
      (Memory.stored_write start.cpu.memory _ _ _).trans (if_pos rfl)
    have hSecond : other.cpu.memory.stored randomAddress = 0xAA :=
      (Memory.stored_write start.cpu.memory _ _ _).trans (if_pos rfl)
    rw [hFirst, hSecond]
    decide
  have hStart : SameButRandom {} start start :=
    ⟨⟨rfl, fun _ _ => rfl, rfl, rfl⟩, rfl, rfl, rfl, rfl, rfl, rfl⟩
  have hAlike : SameButRandom {} m other := (hStart.obey rfl (.poke 0x00 0xAA)).state
  have hCommands : List.Forall₂ Command.SameButRandom (commands 0x55) (commands 0x66) :=
    .cons (.same _) (.cons (.poke _ _) (.cons (.same _) (.cons (.same _) (.cons (.same _)
      (.cons (.same _) (.cons (.same _) .nil))))))
  exact ⟨hStored, hAlike, hCommands, obeyAll_sameButRandom rfl hAlike hCommands⟩

end Machine
end Micro6502
