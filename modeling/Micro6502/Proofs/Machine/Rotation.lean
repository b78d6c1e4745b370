import Mathlib.Tactic.LinearCombination
import Micro6502.Proofs.Machine.Arithmetic
import Micro6502.Proofs.Machine.Frame

/-! Numbers of several bytes that are shifted by one bit. The carry flag takes the bit that leaves
one byte into the next: upwards from the least significant byte, to double the number, and
downwards from the most significant one, to halve it. Either undoes the other. -/

namespace Micro6502

-- Nothing here depends on what the decoding table holds.
attribute [local irreducible] Catalog.decode

namespace Arithmetic

theorem eq_of_toNat_eq : ∀ {carry other : Bool}, carry.toNat = other.toNat → carry = other := by
  decide

section

variable (byte : Byte) (carry : Bool)

theorem toNat_toUInt8 : carry.toUInt8.toNat = carry.toNat := by
  cases carry with
  | false | true => rfl

/-- The bit that comes in finds the lowest place free. -/
theorem rotateLeft_value :
    (rotateLeft byte carry).1.toNat + 256 * (rotateLeft byte carry).2.toNat =
      2 * byte.toNat + carry.toNat := by
  have hByte := byte.toNat_lt
  have hShifted : (byte <<< 1).toNat = 2 ^ 1 * (byte.toNat % 128) := by
    rw [UInt8.toNat_shiftLeft, Nat.shiftLeft_eq]
    simp only [UInt8.reduceToNat, Nat.reduceMod]
    omega
  have hIn : carry.toNat < 2 ^ 1 := carry.toNat_lt
  have hResult : (rotateLeft byte carry).1.toNat = 2 ^ 1 * (byte.toNat % 128) + carry.toNat := by
    rw [Nat.two_pow_add_eq_or_of_lt hIn, ← hShifted, ← toNat_toUInt8]
    exact UInt8.toNat_or _ _
  have hOut : (rotateLeft byte carry).2.toNat = if 128 ≤ byte.toNat then 1 else 0 :=
    toNat_decide (128 ≤ byte.toNat)
  rw [hResult, hOut]
  split <;> omega

/-- The bit that comes in finds the highest place free. -/
theorem rotateRight_value :
    2 * (rotateRight byte carry).1.toNat + (rotateRight byte carry).2.toNat =
      byte.toNat + 256 * carry.toNat := by
  have hByte := byte.toNat_lt
  have hShifted : (byte >>> 1).toNat = byte.toNat / 2 := by
    rw [UInt8.toNat_shiftRight, Nat.shiftRight_eq_div_pow]
    rfl
  have hTop : (carry.toUInt8 <<< 7).toNat = 2 ^ 7 * carry.toNat := by
    cases carry with
    | false | true => rfl
  have hResult : (rotateRight byte carry).1.toNat = 2 ^ 7 * carry.toNat + byte.toNat / 2 := by
    have hLow : byte.toNat / 2 < 2 ^ 7 := by omega
    rw [Nat.two_pow_add_eq_or_of_lt hLow, ← hTop, ← hShifted, Nat.or_comm]
    exact UInt8.toNat_or _ _
  have hOut : (rotateRight byte carry).2.toNat = byte.toNat % 2 := by
    simp only [rotateRight, toNat_decide, ← UInt8.toNat_inj, UInt8.toNat_mod, UInt8.reduceToNat]
    split <;> omega
  rw [hResult, hOut]
  omega

/-- A shift is a rotation that is given a zero. -/
theorem shiftLeft_eq : shiftLeft byte carry = rotateLeft byte false :=
  congrArg (·, decide (0x80 ≤ byte)) (UInt8.or_zero (a := byte <<< 1)).symm

end

/-- Shift bytes one after another; what goes out of one comes into the next. -/
def Shift.all (operation : Shift) : List Byte → Bool → List Byte × Bool
  | [], carry => ([], carry)
  | byte :: bytes, carry =>
    let (result, carry) := operation byte carry
    let (results, carry) := operation.all bytes carry
    (result :: results, carry)

section

variable (bytes : List Byte) (carry : Bool)

theorem Shift.length_all (operation : Shift) :
    (operation.all bytes carry).1.length = bytes.length := by
  induction bytes generalizing carry with
  | nil => rfl
  | cons byte bytes ih => exact congrArg (· + 1) (ih _)

/-- From the least significant byte up, a number is doubled. -/
theorem value_all_rotateLeft :
    Positional.binary.value (Shift.all rotateLeft bytes carry).1 +
        (Shift.all rotateLeft bytes carry).2.toNat * 256 ^ bytes.length =
      2 * Positional.binary.value bytes + carry.toNat := by
  induction bytes generalizing carry with
  | nil => simp [Shift.all, Positional.value]
  | cons byte bytes ih =>
      have hByte := rotateLeft_value byte carry
      have hRest := ih (rotateLeft byte carry).2
      have hBase : Positional.binary.base = 256 := rfl
      have hDigit : ∀ byte, Positional.binary.digit byte = byte.toNat := fun _ => rfl
      rw [Shift.all, Positional.value_cons, Positional.value_cons, hBase, hDigit, hDigit,
        List.length_cons, pow_succ]
      linear_combination hByte + 256 * hRest

/-- From the most significant byte down, a number is halved, with what comes in on top of it. -/
theorem value_all_rotateRight :
    2 * Positional.binary.value (Shift.all rotateRight bytes carry).1.reverse +
        (Shift.all rotateRight bytes carry).2.toNat =
      Positional.binary.value bytes.reverse + carry.toNat * 256 ^ bytes.length := by
  induction bytes generalizing carry with
  | nil => simp [Shift.all, Positional.value]
  | cons byte bytes ih =>
      have hByte := rotateRight_value byte carry
      have hRest := ih (rotateRight byte carry).2
      rw [Shift.all, List.reverse_cons, List.reverse_cons, binary_value_concat,
        binary_value_concat, List.length_reverse, List.length_reverse, Shift.length_all,
        List.length_cons, pow_succ]
      linear_combination 256 ^ bytes.length * hByte + hRest

/-- What is put on top of a byte or more does not make an even number odd. -/
theorem carried_mod_two (h : bytes ≠ []) :
    (Positional.binary.value bytes + carry.toNat * 256 ^ bytes.length) % 2 =
      Positional.binary.value bytes % 2 := by
  have hBase : 2 ∣ 256 := by decide
  have hPower : 256 ∣ 256 ^ bytes.length :=
    dvd_pow_self 256 (fun hNone => h (List.eq_nil_of_length_eq_zero hNone))
  have hEven : 2 ∣ carry.toNat * 256 ^ bytes.length := (hBase.trans hPower).mul_left _
  omega

/-- Bytes that are halved after they were doubled are the same again, and so is the carry. -/
theorem all_rotateRight_rotateLeft :
    let doubled := Shift.all rotateLeft bytes carry
    Shift.all rotateRight doubled.1.reverse doubled.2 = (bytes.reverse, carry) := by
  intro doubled
  have hUp := value_all_rotateLeft bytes carry
  have hDown := value_all_rotateRight doubled.1.reverse doubled.2
  have hCount : (Shift.all rotateRight doubled.1.reverse doubled.2).1.length = bytes.length := by
    rw [Shift.length_all, List.length_reverse, Shift.length_all]
  rw [List.length_reverse, Shift.length_all] at hDown
  rw [List.reverse_reverse, hUp] at hDown
  generalize Shift.all rotateRight doubled.1.reverse doubled.2 = back at *
  have hValue : Positional.binary.value back.1.reverse = Positional.binary.value bytes := by
    have hIn := carry.toNat_le
    have hOut := back.2.toNat_le
    omega
  have hBytes : back.1.reverse = bytes :=
    Positional.eq_of_value_eq (by rw [List.length_reverse, hCount]) (fun _ _ => trivial)
      (fun _ _ => trivial) hValue
  have hCarry : back.2 = carry := eq_of_toNat_eq (by omega)
  rw [← hBytes, List.reverse_reverse, ← hCarry]

/-- Bytes that are doubled after they were halved are the same again, and so is the carry. -/
theorem all_rotateLeft_rotateRight :
    let halved := Shift.all rotateRight bytes carry
    Shift.all rotateLeft halved.1.reverse halved.2 = (bytes.reverse, carry) := by
  intro halved
  have hDown := value_all_rotateRight bytes carry
  have hUp := value_all_rotateLeft halved.1.reverse halved.2
  have hCount : (Shift.all rotateLeft halved.1.reverse halved.2).1.length = bytes.length := by
    rw [Shift.length_all, List.length_reverse, Shift.length_all]
  have hBack := binary_value_lt (Shift.all rotateLeft halved.1.reverse halved.2).1
  have hStart := binary_value_lt bytes.reverse
  rw [List.length_reverse, Shift.length_all, hDown] at hUp
  rw [hCount] at hBack
  rw [List.length_reverse] at hStart
  generalize Shift.all rotateLeft halved.1.reverse halved.2 = back at *
  -- The carry is what stands above the bytes.
  have hCarry : back.2 = carry := by
    have hPower : 0 < 256 ^ bytes.length := pow_pos (by decide) _
    have hTop := congrArg (· / 256 ^ bytes.length) hUp
    simp only [Nat.add_mul_div_right _ _ hPower, Nat.div_eq_of_lt hBack, Nat.div_eq_of_lt hStart,
      zero_add] at hTop
    exact eq_of_toNat_eq hTop
  have hValue : Positional.binary.value back.1 = Positional.binary.value bytes.reverse := by
    rw [hCarry] at hUp
    exact Nat.add_right_cancel hUp
  have hBytes : back.1 = bytes.reverse :=
    Positional.eq_of_value_eq (by rw [hCount, List.length_reverse]) (fun _ _ => trivial)
      (fun _ _ => trivial) hValue
  rw [← hBytes, ← hCarry]

end
end Arithmetic

/-- Where a shift finds its byte, and where it leaves what comes of it. -/
inductive Place where
  | accumulator
  | cell (address : Address)
  deriving DecidableEq

namespace Processor

variable {ρ δ : Type}

def held (cpu : Processor ρ δ) : Place → Byte
  | .accumulator => cpu.a
  | .cell address => cpu.memory.stored address

variable [ByteSource ρ] [Screen δ]

/-- The place that the instruction at the program counter works on, if it is a shift. -/
def place (cpu : Processor ρ δ) : Place :=
  if cpu.instruction.mode = .implied then .accumulator else .cell cpu.operandAddress

/-- Away from the random address, the byte that an operand selects is the one that was stored
there from the beginning. -/
theorem operandValue_eq_stored {cpu : Processor ρ δ} {mode : AddressingMode}
    (h : (cpu.effectiveAddress mode).1 ≠ randomAddress) :
    (cpu.operandValue mode).1 = cpu.memory.stored (cpu.effectiveAddress mode).1 := by
  obtain ⟨source, hMemory⟩ := ((HasRead.refl cpu).effectiveAddress mode).memory
  have hRead : (cpu.operandValue mode).1 =
      (cpu.effectiveAddress mode).2.memory.value (cpu.effectiveAddress mode).1 := rfl
  rw [hRead, Memory.value_of_ne _ h, hMemory, Memory.stored_withSource]

end Processor

namespace Machine

open Arithmetic

variable {ρ δ κ : Type} [ByteSource ρ] [Screen δ] [Journal κ]

/-- The next instruction shifts a byte, which is in the accumulator or in memory, but not at the
random address. -/
structure Offers (m : Machine ρ δ κ) (operation : Operation) (byte : Byte) : Prop where
  operation : m.cpu.instruction.operation = operation
  place : m.cpu.place ≠ .cell randomAddress
  held : m.cpu.held m.cpu.place = byte

/-- One step of the machine makes one byte of another. -/
structure Shifts (m : Machine ρ δ κ) (operation : Operation) (byte result : Byte)
    (next : Machine ρ δ κ) : Prop where
  offers : m.Offers operation byte
  done : m.stepInstruction = .done () next
  held : next.cpu.held m.cpu.place = result

/-- Bytes are shifted one after another. Between two of them anything may be done that leaves the
carry flag as it is, to bring up the next byte or to put the last one away. -/
inductive ShiftsAll (operation : Operation) :
    Machine ρ δ κ → List Byte → List Byte → Machine ρ δ κ → Prop
  | nil (m : Machine ρ δ κ) : ShiftsAll operation m [] [] m
  | cons {m ready next last : Machine ρ δ κ} {byte result : Byte} {bytes results : List Byte}
      (hCarry : ready.cpu.p.carry = m.cpu.p.carry)
      (hStep : ready.Shifts operation byte result next)
      (hRest : ShiftsAll operation next bytes results last) :
      ShiftsAll operation m (byte :: bytes) (result :: results) last

variable {m next last : Machine ρ δ κ} {operation : Operation} {shift : Shift}
  {byte result : Byte} {bytes results : List Byte}

/-- A shift does not fail. The byte in its place is replaced, and the status register tells of the
new byte and of the bit that went out. -/
theorem exists_replaced (hAction : m.cpu.instruction.operation.action = .shift shift)
    (hPlace : m.cpu.place ≠ .cell randomAddress) :
    let result := shift (m.cpu.held m.cpu.place) m.cpu.p.carry
    ∃ next, m.stepInstruction = .done () next ∧ next.cpu.held m.cpu.place = result.1 ∧
      next.cpu.p = { m.cpu.p with carry := result.2 }.describe result.1 := by
  have hEffect : m.cpu.effect =
      (Action.shift shift).effect m.cpu.fetchByte.2 m.cpu.instruction := by
    rw [Processor.effect, hAction]
  unfold Processor.place at hPlace ⊢
  by_cases hMode : m.cpu.instruction.mode = .implied
  · rw [Action.effect, if_pos hMode] at hEffect
    rw [if_pos hMode]
    obtain ⟨next, source, hDone, hRegisters, -⟩ := exists_done hEffect
    exact ⟨next, hDone, congrArg Registers.a hRegisters, congrArg Registers.p hRegisters⟩
  · rw [Action.effect, if_neg hMode] at hEffect
    rw [if_neg hMode] at hPlace ⊢
    have hAddress : m.cpu.operandAddress ≠ randomAddress := fun h => hPlace (congrArg Place.cell h)
    have hByte : (m.cpu.fetchByte.2.operandValue m.cpu.instruction.mode).1 =
        m.cpu.memory.stored m.cpu.operandAddress :=
      (Processor.operandValue_eq_stored hAddress).trans (m.cpu.memory.stored_afterRead _ _)
    rw [hByte] at hEffect
    obtain ⟨next, source, hDone, hRegisters, hMemory⟩ := exists_done hEffect
    refine ⟨next, hDone, ?_, congrArg Registers.p hRegisters⟩
    rw [Processor.held, hMemory]
    exact (Memory.stored_write _ _ _ _).trans (if_pos rfl)

/-- A step that shifts a byte makes of it what the operation does, with the carry that it found. -/
theorem Shifts.eq_shift (h : m.Shifts operation byte result next)
    (hAction : operation.action = .shift shift) :
    (result, next.cpu.p.carry) = shift byte m.cpu.p.carry ∧ next.cpu.p.Describes result := by
  obtain ⟨⟨rfl, hPlace, rfl⟩, hDone, rfl⟩ := h
  obtain ⟨other, hOther, hHeld, hStatus⟩ := exists_replaced hAction hPlace
  obtain rfl : next = other := by
    rw [hDone] at hOther
    cases hOther
    rfl
  rw [hHeld, hStatus]
  exact ⟨rfl, Status.describes_describe _ _⟩

theorem Offers.exists_shifts (h : m.Offers operation byte)
    (hAction : operation.action = .shift shift) :
    ∃ result next, m.Shifts operation byte result next := by
  have hFound : m.cpu.instruction.operation.action = .shift shift := by rw [h.operation, hAction]
  obtain ⟨next, hDone, -⟩ := exists_replaced hFound h.place
  exact ⟨_, next, h, hDone, rfl⟩

/-- A machine can shift its byte in one way only. -/
theorem Shifts.unique {other : Byte} {after : Machine ρ δ κ}
    (h : m.Shifts operation byte result next) (hOther : m.Shifts operation byte other after) :
    other = result ∧ after = next := by
  have hSame := hOther.done.symm.trans h.done
  cases hSame
  exact ⟨hOther.held.symm.trans h.held, rfl⟩

theorem ShiftsAll.concat {ready : Machine ρ δ κ} (h : ShiftsAll operation m bytes results last)
    (hCarry : ready.cpu.p.carry = last.cpu.p.carry)
    (hStep : ready.Shifts operation byte result next) :
    ShiftsAll operation m (bytes ++ [byte]) (results ++ [result]) next := by
  induction h with
  | nil m => exact .cons hCarry hStep (.nil _)
  | cons hFirst hBefore hRest ih => exact .cons hFirst hBefore (ih hCarry)

/-- A series of steps comes to what its shifts come to. -/
theorem ShiftsAll.eq_all (h : ShiftsAll operation m bytes results last)
    (hAction : operation.action = .shift shift) :
    (results, last.cpu.p.carry) = shift.all bytes m.cpu.p.carry := by
  induction h with
  | nil m => rfl
  | cons hCarry hStep hRest ih =>
      obtain ⟨hStepped, -⟩ := hStep.eq_shift hAction
      rw [Shift.all, ← hCarry, ← hStepped]
      dsimp only
      rw [← ih]

/-- The flags describe the last of the bytes, also behind one that was shifted before. -/
theorem ShiftsAll.describes_cons (h : ShiftsAll operation m bytes results last)
    (hAction : operation.action = .shift shift) (hResult : m.cpu.p.Describes result) :
    ∀ byte ∈ (result :: results).getLast?, last.cpu.p.Describes byte := by
  induction h generalizing result with
  | nil m =>
      rintro byte ⟨⟩
      exact hResult
  | cons hCarry hStep hRest ih =>
      rw [List.getLast?_cons_cons]
      exact ih (hStep.eq_shift hAction).2

/-- Behind a series, the flags describe the byte that was shifted last. -/
theorem ShiftsAll.describes (h : ShiftsAll operation m bytes results last)
    (hAction : operation.action = .shift shift) :
    ∀ byte ∈ results.getLast?, last.cpu.p.Describes byte := by
  cases h with
  | nil => simp
  | cons hCarry hStep hRest => exact hRest.describes_cons hAction (hStep.eq_shift hAction).2

/-- A number that is doubled, and then may be halved again. -/
theorem ShiftsAll.doubled (h : ShiftsAll .rol m bytes results last) :
    results.length = bytes.length ∧
      Positional.binary.value results + last.cpu.p.carry.toNat * 256 ^ bytes.length =
        2 * Positional.binary.value bytes + m.cpu.p.carry.toNat ∧
      ∀ back final, ShiftsAll .ror last results.reverse back final →
        back = bytes.reverse ∧ final.cpu.p.carry = m.cpu.p.carry := by
  have hAll := h.eq_all rfl
  have hLength := Shift.length_all bytes m.cpu.p.carry rotateLeft
  have hValue := value_all_rotateLeft bytes m.cpu.p.carry
  have hUndone := all_rotateRight_rotateLeft bytes m.cpu.p.carry
  rw [← hAll] at hLength hValue hUndone
  refine ⟨hLength, hValue, fun back final hBack => ?_⟩
  exact Prod.mk.inj ((hBack.eq_all rfl).trans hUndone)

/-- The first byte may be shifted instead; the number is doubled as if the carry were clear. -/
theorem ShiftsAll.doubled_cons (hFirst : m.Shifts .asl byte result next)
    (h : ShiftsAll .rol next bytes results last) :
    results.length = bytes.length ∧
      Positional.binary.value (result :: results) +
          last.cpu.p.carry.toNat * 256 ^ (bytes.length + 1) =
        2 * Positional.binary.value (byte :: bytes) := by
  obtain ⟨hStep, -⟩ := hFirst.eq_shift rfl
  have hAll : (result :: results, last.cpu.p.carry) =
      Shift.all rotateLeft (byte :: bytes) false := by
    rw [Shift.all, ← shiftLeft_eq byte m.cpu.p.carry, ← hStep]
    dsimp only
    rw [← h.eq_all rfl]
  have hValue := value_all_rotateLeft (byte :: bytes) false
  rw [← hAll] at hValue
  exact ⟨h.doubled.1, hValue⟩

/-- A number that is halved, and then may be doubled again. -/
theorem ShiftsAll.halved (h : ShiftsAll .ror m bytes.reverse results.reverse last) :
    let total := Positional.binary.value bytes + m.cpu.p.carry.toNat * 256 ^ bytes.length
    results.length = bytes.length ∧ Positional.binary.value results = total / 2 ∧
      last.cpu.p.carry.toNat = total % 2 ∧
      ∀ back final, ShiftsAll .rol last results back final →
        back = bytes ∧ final.cpu.p.carry = m.cpu.p.carry := by
  intro total
  have hAll := h.eq_all rfl
  have hLength := Shift.length_all bytes.reverse m.cpu.p.carry rotateRight
  have hValue := value_all_rotateRight bytes.reverse m.cpu.p.carry
  have hUndone := all_rotateLeft_rotateRight bytes.reverse m.cpu.p.carry
  rw [← hAll] at hLength hValue hUndone
  simp only [List.reverse_reverse, List.length_reverse] at hLength hValue hUndone
  have hBit := last.cpu.p.carry.toNat_lt
  refine ⟨hLength, by omega, by omega, fun back final hBack => ?_⟩
  exact Prod.mk.inj ((hBack.eq_all rfl).trans hUndone)

/-- An instruction that shifts a byte up, or rotates it, does not fail, whether it finds the byte
in the accumulator or in memory; the flags describe what it makes of it, and a series goes on with
it. So numbers of any length are doubled from the least significant byte up and halved from the
most significant byte down, exactly, with the carry for the bit that comes in and for the bit that
is left over. A number that was doubled is halved again to what it was, and the other way round. -/
theorem doubling_and_halving (m last : Machine ρ δ κ) (bytes out : List Byte) :
    let n := bytes.length
    let value := Positional.binary.value
    let carry := fun m : Machine ρ δ κ => m.cpu.p.carry.toNat
    (∀ operation ∈ [Operation.asl, .rol, .ror], ∀ (ready : Machine ρ δ κ) byte,
      ready.Offers operation byte →
        ∃ result next, ready.Shifts operation byte result next ∧ next.cpu.p.Describes result ∧
          (ShiftsAll operation m bytes out last → ready.cpu.p.carry = last.cpu.p.carry →
            ShiftsAll operation m (bytes ++ [byte]) (out ++ [result]) next)) ∧
    (ShiftsAll .rol m bytes out last →
      out.length = n ∧ value out + carry last * 256 ^ n = 2 * value bytes + carry m ∧
        (∀ byte ∈ out.getLast?, last.cpu.p.Describes byte) ∧
        ∀ back final, ShiftsAll .ror last out.reverse back.reverse final →
          back = bytes ∧ final.cpu.p.carry = m.cpu.p.carry) ∧
    (∀ first result middle, m.Shifts .asl first result middle →
      ShiftsAll .rol middle bytes out last →
        out.length = n ∧
          value (result :: out) + carry last * 256 ^ (n + 1) = 2 * value (first :: bytes) ∧
          ∀ byte ∈ (result :: out).getLast?, last.cpu.p.Describes byte) ∧
    (ShiftsAll .ror m bytes.reverse out.reverse last →
      out.length = n ∧ value out = (value bytes + carry m * 256 ^ n) / 2 ∧
        carry last = (value bytes + carry m * 256 ^ n) % 2 ∧
        (bytes ≠ [] → carry last = value bytes % 2) ∧
        (∀ byte ∈ out.head?, last.cpu.p.Describes byte) ∧
        ∀ back final, ShiftsAll .rol last out back final →
          back = bytes ∧ final.cpu.p.carry = m.cpu.p.carry) := by
  intro n value carry
  refine ⟨fun operation hOperation ready byte hOffers => ?_, fun hUp => ?_,
    fun first result middle hFirst hUp => ?_, fun hDown => ?_⟩
  · obtain ⟨shift, hAction⟩ : ∃ shift, operation.action = .shift shift := by
      simp only [List.mem_cons, List.not_mem_nil, or_false] at hOperation
      rcases hOperation with rfl | rfl | rfl <;> exact ⟨_, rfl⟩
    obtain ⟨result, next, hStep⟩ := hOffers.exists_shifts hAction
    exact ⟨result, next, hStep, (hStep.eq_shift hAction).2, fun hAll hCarry =>
      hAll.concat hCarry hStep⟩
  · obtain ⟨hLength, hValue, hUndone⟩ := hUp.doubled
    refine ⟨hLength, hValue, hUp.describes rfl, fun back final hBack => ?_⟩
    obtain ⟨hBytes, hCarry⟩ := hUndone _ _ hBack
    exact ⟨List.reverse_injective hBytes, hCarry⟩
  · obtain ⟨hLength, hValue⟩ := hUp.doubled_cons hFirst
    exact ⟨hLength, hValue, hUp.describes_cons rfl (hFirst.eq_shift rfl).2⟩
  · obtain ⟨hLength, hHalf, hRest, hUndone⟩ := hDown.halved
    have hDescribes := hDown.describes rfl
    rw [List.getLast?_reverse] at hDescribes
    exact ⟨hLength, hHalf, hRest, fun hSome => hRest.trans (carried_mod_two _ _ hSome), hDescribes,
      hUndone⟩

/-- The bytes $81 and $C0, in memory and in the accumulator, with the carry set: doubled, halved
again, doubled once more, and shifted at last. -/
theorem doubling_and_halving_word :
    ∃ m doubled halved again middle shifted : Machine Congruential (Array (Address × Byte)) Unit,
      m.cpu.p.carry = true ∧
      ShiftsAll .rol m [0x81, 0xC0] [0x03, 0x81] doubled ∧ doubled.cpu.p.Describes 0x81 ∧
      ShiftsAll .ror doubled [0x81, 0x03] [0xC0, 0x81] halved ∧ halved.cpu.p.Describes 0x81 ∧
      ShiftsAll .rol halved [0x81, 0xC0] [0x03, 0x81] again ∧
      doubled.cpu.p.carry = true ∧ halved.cpu.p.carry = true ∧
      halved.cpu.p.carry = m.cpu.p.carry ∧ again.cpu.p.carry = doubled.cpu.p.carry ∧
      again.Shifts .asl 0x03 0x06 middle ∧ middle.cpu.p.Describes 0x06 ∧
      ShiftsAll .rol middle [0x81] [0x02] shifted ∧ shifted.cpu.p.Describes 0x02 ∧
      shifted.cpu.p.carry = true := by
  let next := fun m : Machine Congruential (Array (Address × Byte)) Unit => m.stepInstruction.state
  let steps : List (Nat × Operation × Byte × Byte) :=
    [(0, .rol, 0x81, 0x03), (1, .rol, 0xC0, 0x81), (2, .ror, 0x81, 0xC0), (3, .ror, 0x03, 0x81),
      (4, .rol, 0x81, 0x03), (5, .rol, 0xC0, 0x81), (6, .asl, 0x03, 0x06), (7, .rol, 0x81, 0x02)]
  obtain ⟨m, hSet, hSteps⟩ :
      ∃ m : Machine Congruential (Array (Address × Byte)) Unit, m.cpu.p.carry = true ∧
        ∀ step ∈ steps, let ready := next^[step.1] m
          ready.stepInstruction.fault? = none ∧
            ready.cpu.instruction.operation = step.2.1 ∧
            ready.cpu.place ≠ .cell randomAddress ∧ ready.cpu.held ready.cpu.place = step.2.2.1 ∧
            (next ready).cpu.held ready.cpu.place = step.2.2.2 := by
    let idle : Machine Congruential (Array (Address × Byte)) Unit :=
      around { a := 0xC0, p := { carry := true }, memory := .zero (.seeded 1) #[] } ()
    refine ⟨Bus.writeBytes (Bus.writeBytes idle 0x0010 [0x81]) 0x0200
      [0x26, 0x10, 0x2A, 0x6A, 0x66, 0x10, 0x26, 0x10, 0x2A, 0x06, 0x10, 0x2A], ?_⟩
    decide +kernel
  have hShifts : ∀ step ∈ steps, (next^[step.1] m).Shifts step.2.1 step.2.2.1 step.2.2.2
      (next (next^[step.1] m)) := by
    intro step hStep
    obtain ⟨hDone, hOperation, hPlace, hHeld, hResult⟩ := hSteps step hStep
    exact ⟨⟨hOperation, hPlace, hHeld⟩, Outcome.eq_done_of_fault? hDone, hResult⟩
  simp only [steps, List.forall_mem_cons] at hShifts
  obtain ⟨hFirst, hSecond, hThird, hFourth, hFifth, hSixth, hSeventh, hEighth, -⟩ := hShifts
  have hUp : ShiftsAll .rol m [0x81, 0xC0] [0x03, 0x81] (next^[2] m) :=
    .cons rfl hFirst (.cons rfl hSecond (.nil _))
  have hDown : ShiftsAll .ror (next^[2] m) [0x81, 0x03] [0xC0, 0x81] (next^[4] m) :=
    .cons rfl hThird (.cons rfl hFourth (.nil _))
  have hLast : ShiftsAll .rol (next^[7] m) [0x81] [0x02] (next^[8] m) :=
    .cons rfl hEighth (.nil _)
  obtain ⟨-, hDoubling, -⟩ := doubling_and_halving m (next^[2] m) [0x81, 0xC0] [0x03, 0x81]
  obtain ⟨-, -, -, hHalving⟩ :=
    doubling_and_halving (next^[2] m) (next^[4] m) [0x03, 0x81] [0x81, 0xC0]
  obtain ⟨hGoesOn, -⟩ := doubling_and_halving (next^[4] m) (next^[5] m) [0x81] [0x03]
  obtain ⟨hMoves, -, hShifting, -⟩ :=
    doubling_and_halving (next^[6] m) (next^[8] m) [0x81] [0x02]
  obtain ⟨-, hValue, hDoubled, hUndone⟩ := hDoubling hUp
  obtain ⟨-, -, -, hLow, hHalved, hRedone⟩ := hHalving hDown
  obtain ⟨-, hShiftedValue, hShifted⟩ := hShifting _ _ _ hSeventh hLast
  obtain ⟨_, _, hOnce, -, hExtended⟩ := hGoesOn .rol (by decide) _ 0xC0 hSixth.offers
  obtain ⟨rfl, rfl⟩ := hSixth.unique hOnce
  have hAgain : ShiftsAll .rol (next^[4] m) [0x81, 0xC0] [0x03, 0x81] (next^[6] m) :=
    hExtended (.cons rfl hFifth (.nil _)) rfl
  obtain ⟨_, _, hMiddle, hDescribes, -⟩ := hMoves .asl (by decide) _ 0x03 hSeventh.offers
  obtain ⟨rfl, rfl⟩ := hSeventh.unique hMiddle
  have hOut : (next^[2] m).cpu.p.carry = true := by
    have hSum : 0x8103 + (next^[2] m).cpu.p.carry.toNat * 256 ^ 2 =
        2 * 0xC081 + m.cpu.p.carry.toNat := hValue
    rw [hSet] at hSum
    exact eq_of_toNat_eq (Nat.eq_of_mul_eq_mul_right (by decide) (Nat.add_left_cancel hSum))
  have hShiftedOut : (next^[8] m).cpu.p.carry = true := by
    have hSum : 0x0206 + (next^[8] m).cpu.p.carry.toNat * 256 ^ 2 = 2 * 0x8103 := hShiftedValue
    exact eq_of_toNat_eq (Nat.eq_of_mul_eq_mul_right (by decide) (Nat.add_left_cancel hSum))
  have hHalvedOut : (next^[4] m).cpu.p.carry = true := eq_of_toNat_eq (hLow (by decide))
  obtain ⟨-, hBack⟩ := hUndone [0x81, 0xC0] _ hDown
  obtain ⟨-, hForth⟩ := hRedone _ _ hAgain
  exact ⟨m, _, _, _, _, _, hSet, hUp, hDoubled _ rfl, hDown, hHalved _ rfl, hAgain, hOut,
    hHalvedOut, hBack, hForth, hSeventh, hDescribes, hLast, hShifted _ rfl, hShiftedOut⟩

end Machine
end Micro6502
