import Micro6502.Proofs.Machine.Flow
import Micro6502.Proofs.Machine.History

/-! The stack and its page. Whatever a host or a program does to the stack pointer, it never
leaves the page by more than the one place that stands for an empty stack; so every byte that
is pushed or popped lies in the page. -/

namespace Micro6502

-- Nothing here depends on what the decoding table holds.
attribute [local irreducible] Catalog.decode

/-- One byte that goes to the stack or comes from it. -/
inductive Transfer where
  | push (byte : Byte)
  | pop

namespace Processor

variable {ρ δ : Type} [ByteSource ρ] [Screen δ]

/-- There are between none and 256 free places on the stack. -/
def StackBounded (cpu : Processor ρ δ) : Prop := cpu.sp ≤ stackEmpty

def transfer (cpu : Processor ρ δ) : Transfer → Outcome (Processor ρ δ) Unit
  | .push byte => cpu.push byte
  | .pop => cpu.pop.andThen fun _ cpu => .done () cpu

/-- Make transfers one after another, unless one of them fails. -/
def transferAll : List Transfer → Processor ρ δ → Outcome (Processor ρ δ) Unit
  | [], cpu => .done () cpu
  | transfer :: rest, cpu => (cpu.transfer transfer).andThen fun _ cpu => transferAll rest cpu

/-- The transfers that are attempted in this way, each with the processor in front of it. -/
def transfersTried : List Transfer → Processor ρ δ → List (Processor ρ δ × Transfer)
  | [], _ => []
  | transfer :: rest, cpu => (cpu, transfer) :: match cpu.transfer transfer with
    | .done _ next => transfersTried rest next
    | .faulted _ _ => []

end Processor

namespace Action

variable {ρ δ : Type} [ByteSource ρ] [Screen δ]

/-- The families that push or pop. -/
def usesStack : Action → Bool
  | push _ | pull _ | call | ret => true
  | _ => false

/-- The transfers that a family makes, and the processor when it begins with them. -/
def stackWork (cpu : Processor ρ δ) : Action → Processor ρ δ × List Transfer
  | push source => (cpu, [.push (source cpu.toRegisters)])
  | pull _ => (cpu, [.pop])
  | call =>
    let (_, cpu) := cpu.fetchWord
    (cpu, [.push (highByte (cpu.pc - 1)), .push (lowByte (cpu.pc - 1))])
  | ret => (cpu, [.pop, .pop])
  | _ => (cpu, [])

/-- What a family does to the registers does not take the stack pointer out of its bounds. -/
def KeepsStack : Action → Prop
  | operand change | pull change => ∀ byte r, (change byte r).sp = r.sp
  | registers change => ∀ r : Registers, r.sp ≤ stackEmpty → (change r).sp ≤ stackEmpty
  | _ => True

theorem toUInt16_le_stackEmpty (byte : Byte) : byte.toUInt16 ≤ stackEmpty := by
  have hByte := byte.toNat_lt
  simp only [UInt16.le_iff_toNat_le, UInt8.toNat_toUInt16, stackEmpty, UInt16.reduceToNat]
  omega

/-- Only a transfer from X sets the stack pointer, and X has one byte. -/
theorem keepsStack (operation : Operation) : operation.action.KeepsStack := by
  cases operation with
  | txs => exact fun r _ => toUInt16_le_stackEmpty r.x
  | _ => first | trivial | exact fun _ _ => rfl | exact fun _ h => h

end Action

namespace Processor

variable {ρ δ : Type} [ByteSource ρ] [Screen δ] {cpu next : Processor ρ δ}

/-- Finding an operand does not move the stack pointer. -/
theorem sp_effectiveAddress (cpu : Processor ρ δ) (mode : AddressingMode) :
    (cpu.effectiveAddress mode).2.sp = cpu.sp := by
  cases mode <;> rfl

/-- A place of the stack, where neither a read nor a write has an effect of its own. -/
structure OnStackPage (address : Address) : Prop where
  low : 0x100 ≤ address.toNat
  high : address.toNat ≤ 0x1FF
  stored : address ≠ randomAddress
  hidden : inWindow address = false

/-- How a push and a pop end. They fail when there is no place or no item; if they do not, the
byte lies in the stack page, and the stack pointer moves by one without wrapping. -/
def StaysInPage (cpu : Processor ρ δ) (transfer : Transfer) : Prop :=
  match transfer with
  | .push byte =>
    cpu.sp = 0 ∧ cpu.push byte = .faulted .stackOverflow cpu ∨
      cpu.sp ≠ 0 ∧ ∃ sp address : UInt16, sp.toNat + 1 = cpu.sp.toNat ∧
        address.toNat = 0x100 + sp.toNat ∧ OnStackPage address ∧
        cpu.push byte = .done () { cpu with sp, memory := cpu.memory.write address byte }
  | .pop =>
    cpu.sp = stackEmpty ∧ cpu.pop = .faulted .stackUnderflow cpu ∨
      cpu.sp ≠ stackEmpty ∧ ∃ sp address : UInt16, sp.toNat = cpu.sp.toNat + 1 ∧
        address.toNat = 0x100 + cpu.sp.toNat ∧ OnStackPage address ∧
        cpu.pop = .done (cpu.memory.stored address) { cpu with sp }

/-- The stack page is apart from the random address and from the display window. -/
theorem onStackPage {offset : UInt16} (h : offset.toNat < 0x100) :
    (stackBase + offset).toNat = 0x100 + offset.toNat ∧ OnStackPage (stackBase + offset) := by
  have hAddress : (stackBase + offset).toNat = 0x100 + offset.toNat := by
    simp only [stackBase, UInt16.toNat_add, UInt16.reduceToNat]
    omega
  refine ⟨hAddress, by omega, by omega, ?_, ?_⟩
  · intro hSame
    have hNat := congrArg UInt16.toNat hSame
    simp only [randomAddress, UInt16.reduceToNat] at hNat
    omega
  · simp only [inWindow, windowStart, decide_eq_false_iff_not, UInt16.le_iff_toNat_le,
      UInt16.reduceToNat]
    omega

/-- Within the bounds, a push fails or uses the place below the stack pointer, and a pop fails or
takes the item at it. -/
theorem StackBounded.staysInPage (h : cpu.StackBounded) (transfer : Transfer) :
    cpu.StaysInPage transfer := by
  have hBound : cpu.sp.toNat ≤ 0x100 := UInt16.le_iff_toNat_le.mp h
  cases transfer with
  | push byte =>
      by_cases hFull : cpu.sp = 0
      · exact .inl ⟨hFull, if_pos hFull⟩
      · have hSome : cpu.sp.toNat ≠ 0 := fun hZero => hFull (UInt16.toNat_inj.mp hZero)
        have hNext : (cpu.sp - 1).toNat + 1 = cpu.sp.toNat := by
          rw [UInt16.toNat_sub_of_le _ _ (UInt16.le_iff_toNat_le.mpr (by simp; omega))]
          simp
          omega
        have hLess : (cpu.sp - 1).toNat < 0x100 := by omega
        obtain ⟨hAddress, hPage⟩ := onStackPage hLess
        exact .inr ⟨hFull, _, _, hNext, hAddress, hPage, if_neg hFull⟩
  | pop =>
      by_cases hEmpty : cpu.sp = stackEmpty
      · exact .inl ⟨hEmpty, if_pos (hEmpty ▸ UInt16.le_refl _)⟩
      · have hItem : cpu.sp.toNat ≠ 0x100 := fun hSame => hEmpty (UInt16.toNat_inj.mp hSame)
        have hLess : ¬ stackEmpty ≤ cpu.sp := by
          simp only [UInt16.le_iff_toNat_le, stackEmpty, UInt16.reduceToNat]
          omega
        have hNext : (cpu.sp + 1).toNat = cpu.sp.toNat + 1 := by
          simp only [UInt16.toNat_add, UInt16.reduceToNat]
          omega
        have hPlace : cpu.sp.toNat < 0x100 := by omega
        obtain ⟨hAddress, hPage⟩ := onStackPage hPlace
        refine .inr ⟨hEmpty, _, _, hNext, hAddress, hPage, ?_⟩
        rw [pop, if_neg hLess, read_eq hPage.stored]

theorem StackBounded.push (h : cpu.StackBounded) (byte : Byte) :
    (cpu.push byte).state.StackBounded := by
  have hBound : cpu.sp.toNat ≤ 0x100 := UInt16.le_iff_toNat_le.mp h
  rcases h.staysInPage (.push byte) with ⟨-, hPush⟩ | ⟨-, sp, address, hNext, -, -, hPush⟩
  · rw [hPush]
    exact h
  · rw [hPush]
    have hLess : sp.toNat ≤ 0x100 := by omega
    exact UInt16.le_iff_toNat_le.mpr hLess

theorem StackBounded.pop (h : cpu.StackBounded) : cpu.pop.state.StackBounded := by
  rcases h.staysInPage .pop with ⟨-, hPop⟩ | ⟨-, sp, address, hNext, hAddress, hPage, hPop⟩
  · rw [hPop]
    exact h
  · rw [hPop]
    have hLess : sp.toNat ≤ 0x100 := by
      have hHigh := hPage.high
      omega
    exact UInt16.le_iff_toNat_le.mpr hLess

omit [ByteSource ρ] [Screen δ] in
/-- Two attempts in a row keep the bounds if each of them does. -/
theorem StackBounded.andThen {α β : Type} {outcome : Outcome (Processor ρ δ) α}
    {following : α → Processor ρ δ → Outcome (Processor ρ δ) β}
    (h : outcome.state.StackBounded)
    (hNext : ∀ value middle, middle.StackBounded → (following value middle).state.StackBounded) :
    (outcome.andThen following).state.StackBounded := by
  cases outcome with
  | done value middle => exact hNext value middle h
  | faulted fault middle => exact h

/-- Either kind of transfer keeps the bounds. -/
theorem StackBounded.transfer (h : cpu.StackBounded) (transfer : Transfer) :
    (cpu.transfer transfer).state.StackBounded := by
  cases transfer with
  | push byte => exact h.push byte
  | pop => exact h.pop.andThen fun _ _ hMiddle => hMiddle

/-- Every family keeps the bounds. Those without transfers leave the stack pointer to their change
of the registers. -/
theorem StackBounded.perform (h : cpu.StackBounded) {d : Descriptor} {action : Action}
    (hKeeps : action.KeepsStack) : (action.perform cpu d).state.StackBounded := by
  have hFound : (cpu.effectiveAddress d.mode).2.StackBounded := by
    unfold StackBounded
    rw [sp_effectiveAddress]
    exact h
  cases action with
  | operand change =>
      show ((change _ _).sp ≤ stackEmpty)
      rw [hKeeps]
      exact hFound
  | store source => exact hFound
  | replace change => exact hFound
  | shift operation =>
      show (cpu.shift d.mode operation).StackBounded
      unfold Processor.shift
      split
      · exact h
      · exact hFound
  | registers change => exact hKeeps _ h
  | branch test =>
      show (cpu.branchIf test).StackBounded
      simp only [branchIf]
      split
      · exact h
      · exact h
  | jump => exact hFound
  | call =>
      have hFetched : cpu.fetchWord.2.StackBounded := h
      exact (hFetched.push _).andThen fun _ _ hHigh =>
        (hHigh.push _).andThen fun _ _ hLow => hLow
  | ret => exact h.pop.andThen fun _ _ hLow => hLow.pop.andThen fun _ _ hHigh => hHigh
  | push source => exact h.push _
  | pull change =>
      refine h.pop.andThen fun byte middle hMiddle => ?_
      show ((change byte _).sp ≤ stackEmpty)
      rw [hKeeps]
      exact hMiddle
  | refuse => exact h

/-- No host and no program takes the stack pointer out of its bounds. -/
theorem stackBounded_invariant :
    Processor.Invariant (StackBounded : Processor ρ δ → Prop) where
  read := fun h _ => h
  write := fun h _ _ => h
  cycle := by
    intro cpu h
    have hFetched : cpu.fetchByte.2.StackBounded := h
    unfold cycle
    dsimp only
    rw [Action.execute_eq_perform]
    exact hFetched.perform (Action.keepsStack _)
  set := by
    intro cpu h setting
    cases setting with
    | sp offset =>
        show (if offset ≤ stackEmpty then offset else stackEmpty) ≤ stackEmpty
        split
        · assumption
        · exact UInt16.le_refl _
    | _ => exact h
  reset := fun _ _ => UInt16.le_refl _

/-- The stack pointer is in its bounds whenever a transfer is attempted. -/
theorem StackBounded.transfersTried (h : cpu.StackBounded) {transfers : List Transfer}
    {middle : Processor ρ δ} {transfer : Transfer}
    (hTried : (middle, transfer) ∈ transfersTried transfers cpu) : middle.StackBounded := by
  induction transfers generalizing cpu with
  | nil => cases hTried
  | cons first rest ih =>
      rcases List.mem_cons.mp hTried with hFirst | hRest
      · cases hFirst
        exact h
      · have hNext := h.transfer first
        generalize cpu.transfer first = outcome at hNext hRest
        cases outcome with
        | done _ next => exact ih hNext hRest
        | faulted fault next => cases hRest

/-- The family of the instruction at the program counter. -/
def nextAction (cpu : Processor ρ δ) : Action :=
  (Catalog.decode cpu.fetchByte.1).operation.action

/-- The transfers of the instruction at the program counter, and the processor when it begins
with them. -/
def nextStackWork (cpu : Processor ρ δ) : Processor ρ δ × List Transfer :=
  cpu.nextAction.stackWork cpu.fetchByte.2

/-- Equal stacks: the same stack pointer over the same memory. -/
structure SameStack (cpu other : Processor ρ δ) : Prop where
  sp : cpu.sp = other.sp
  memory : cpu.memory = other.memory

/-- A family that works with the stack leaves there what its transfers leave, also when one of
them fails. -/
theorem sameStack_perform (cpu : Processor ρ δ) (d : Descriptor) {action : Action}
    (hKeeps : action.KeepsStack) (h : action.usesStack = true) :
    Outcome.Agree SameStack (action.perform cpu d)
      (transferAll (action.stackWork cpu).2 (action.stackWork cpu).1) := by
  cases action with
  | push source =>
      simp only [Action.perform, Action.stackWork, transferAll, transfer]
      cases cpu.push (source cpu.toRegisters) with
      | done _ next => exact .done ⟨rfl, rfl⟩
      | faulted fault next => exact .faulted ⟨rfl, rfl⟩
  | pull change =>
      simp only [Action.perform, Action.stackWork, transferAll, transfer, pull]
      cases cpu.pop with
      | done byte next => exact .done ⟨hKeeps byte _, rfl⟩
      | faulted fault next => exact .faulted ⟨rfl, rfl⟩
  | call =>
      simp only [Action.perform, Action.stackWork, transferAll, transfer, call]
      cases cpu.fetchWord.2.push (highByte (cpu.fetchWord.2.pc - 1)) with
      | done _ middle =>
          simp only [Outcome.andThen]
          cases middle.push (lowByte (cpu.fetchWord.2.pc - 1)) with
          | done _ next => exact .done ⟨rfl, rfl⟩
          | faulted fault next => exact .faulted ⟨rfl, rfl⟩
      | faulted fault middle => exact .faulted ⟨rfl, rfl⟩
  | ret =>
      simp only [Action.perform, Action.stackWork, transferAll, transfer, ret]
      cases cpu.pop with
      | done low middle =>
          simp only [Outcome.andThen]
          cases middle.pop with
          | done high next => exact .done ⟨rfl, rfl⟩
          | faulted fault next => exact .faulted ⟨rfl, rfl⟩
      | faulted fault middle => exact .faulted ⟨rfl, rfl⟩
  | operand | store | replace | shift | registers | branch | jump | refuse => cases h

/-- An instruction that works with the stack does there what its transfers do, one after another. -/
theorem sameStack_cycle (cpu : Processor ρ δ) (h : cpu.nextAction.usesStack = true) :
    Outcome.Agree SameStack cpu.cycle
      (transferAll cpu.nextStackWork.2 cpu.nextStackWork.1) := by
  unfold cycle
  dsimp only
  rw [Action.execute_eq_perform]
  exact sameStack_perform _ _ (Action.keepsStack _) h

omit [Screen δ] in
/-- When the transfers begin, only operand bytes have been read, so the bounds are kept. -/
theorem StackBounded.nextStackWork (h : cpu.StackBounded) :
    cpu.nextStackWork.1.StackBounded := by
  unfold Processor.nextStackWork
  generalize cpu.nextAction = action
  cases action <;> exact h

end Processor

namespace Machine

variable {ρ δ κ : Type} [ByteSource ρ] [Screen δ] [Journal κ]

/-- The stack pointer never leaves the stack page. Whatever a machine was told since it was
started, a push would fail just when no place is left and a pop just when there is no item,
and otherwise the byte lies in the stack page. The same holds in front of every transfer that
an instruction attempts, between the two bytes of a call or a return too; and such an
instruction does nothing to the stack but its transfers. -/
theorem stack_in_page (config : Config) (source : ρ) (screen : δ) (journal : κ)
    (orders : List Order) :
    let m := (followAll orders (start config source screen journal)).2
    m.cpu.sp ≤ stackEmpty ∧ (∀ transfer, m.cpu.StaysInPage transfer) ∧
      ∀ order, ∀ attempt ∈ m.attempts order,
        let (begun, transfers) := attempt.cpu.nextStackWork
        (∀ cpu transfer, (cpu, transfer) ∈ Processor.transfersTried transfers begun →
          cpu.sp ≤ stackEmpty ∧ cpu.StaysInPage transfer) ∧
        (attempt.cpu.nextAction.usesStack = true → Outcome.Agree Processor.SameStack
          attempt.cpu.cycle (Processor.transferAll transfers begun)) := by
  intro m
  have hInvariant := Processor.stackBounded_invariant (ρ := ρ) (δ := δ)
  have hBounded : m.cpu.StackBounded :=
    hInvariant.followAll (m := start config source screen journal) (UInt16.le_refl _) orders
  refine ⟨hBounded, hBounded.staysInPage, ?_⟩
  intro order attempt hAttempt
  have hFront : attempt.cpu.StackBounded := hInvariant.attempts hBounded hAttempt
  constructor
  · intro cpu transfer hTried
    have hMiddle := hFront.nextStackWork.transfersTried hTried
    exact ⟨hMiddle, hMiddle.staysInPage transfer⟩
  · exact Processor.sameStack_cycle attempt.cpu

/-- A call for which the stack has one place left. The second of its bytes finds the stack
pointer at zero. -/
theorem stack_in_page_call :
    let orders : List Order := [.command (.poke 0x0200 0x20), .command (.set (.sp 1))]
    let m : Machine Congruential (Array (Address × Byte)) (Array Text) :=
      (followAll orders (start {} (.seeded 1) #[] #[])).2
    ∃ attempt ∈ m.attempts (.command .stepInstruction),
      let (begun, transfers) := attempt.cpu.nextStackWork
      ∃ tried ∈ Processor.transfersTried transfers begun, tried.1.sp = 0 ∧
        attempt.fault? = some .stackOverflow ∧ attempt.cpu.nextAction.usesStack = true ∧
        tried.1.StaysInPage tried.2 ∧
        Outcome.Agree Processor.SameStack attempt.cpu.cycle
          (Processor.transferAll transfers begun) := by
  intro orders m
  have hCall : ∃ attempt ∈ m.attempts (.command .stepInstruction),
      ∃ tried ∈ Processor.transfersTried attempt.cpu.nextStackWork.2
        attempt.cpu.nextStackWork.1, tried.1.sp = 0 ∧ attempt.fault? = some .stackOverflow ∧
          attempt.cpu.nextAction.usesStack = true := by
    decide +kernel
  obtain ⟨attempt, hAttempt, tried, hTried, hFull, hFault, hUses⟩ := hCall
  have hPage := (stack_in_page {} (.seeded 1) #[] #[] orders).2.2 _ attempt hAttempt
  exact ⟨attempt, hAttempt, tried, hTried, hFull, hFault, hUses,
    (hPage.1 tried.1 tried.2 hTried).2, hPage.2 hUses⟩

end Machine
end Micro6502
