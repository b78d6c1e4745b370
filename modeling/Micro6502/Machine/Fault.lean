import Micro6502.Text.Numeral

/-! What stops the machine, and how an attempt that may be stopped ends. -/

namespace Micro6502

/-- The reasons for which an instruction cannot be carried out. -/
inductive Fault where
  /-- The byte fetched from `address` is the opcode of no instruction. -/
  | invalidOpcode (opcode : Byte) (address : Address)
  /-- A push found the stack full. -/
  | stackOverflow
  /-- A pop found the stack empty. -/
  | stackUnderflow
  deriving DecidableEq

def Fault.message : Fault → Text
  | invalidOpcode opcode address =>
    "Invalid op code 0x".toList ++ Text.hexByte opcode ++ " encountered at $".toList ++
      Text.hexWord address
  | stackOverflow => "Stack overflow.".toList
  | stackUnderflow => "Tried to pop empty stack.".toList

/-- The end of an attempt. Even where a fault stopped it, the part that was done
before the fault remains in the state. -/
inductive Outcome (σ α : Type) where
  | done (value : α) (state : σ)
  | faulted (fault : Fault) (state : σ)

namespace Outcome

variable {σ α β : Type}

def state : Outcome σ α → σ
  | done _ state => state
  | faulted _ state => state

def fault? : Outcome σ α → Option Fault
  | done _ _ => none
  | faulted fault _ => some fault

/-- Continue an attempt that has come through so far. -/
def andThen (outcome : Outcome σ α) (next : α → σ → Outcome σ β) : Outcome σ β :=
  match outcome with
  | done value state => next value state
  | faulted fault state => faulted fault state

end Outcome
end Micro6502
