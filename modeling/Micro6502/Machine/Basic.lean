import Micro6502.Instruction.Catalog
import Micro6502.Listing.Format
import Micro6502.Machine.Clock
import Micro6502.Machine.Execution
import Micro6502.Machine.Journal

/-! The machine as its host sees it: a processor that is idle, runs in batches, or
has been halted by a fault, and that reports what happens to a journal. A fault
never reaches the host in another way; it halts the machine until the next reset. -/

namespace Micro6502

/-- Whether the machine executes instructions. -/
inductive RunState where
  /-- Ready to step or to run. -/
  | idle
  /-- Executing batches. -/
  | running
  /-- Stopped by a fault. Only a reset leads out of this state. -/
  | halted (fault : Fault)
  deriving DecidableEq

structure Config where
  /-- The program counter after a reset. -/
  startAddress : Address := programStart
  /-- The number of instructions in a batch. -/
  batchSize : Nat := 255
  /-- Whether every instruction is reported when it is executed. -/
  trace : Bool := false
  deriving DecidableEq

/-- A processor with what surrounds it. `instructions` counts the instructions
that were executed without a fault since the last reset. -/
structure Machine (ρ δ κ : Type) where
  cpu : Processor ρ δ
  journal : κ
  state : RunState
  config : Config
  instructions : Nat
  clock : Clock

namespace Machine

variable {ρ δ κ : Type} [ByteSource ρ] [Screen δ] [Journal κ]

def report (m : Machine ρ δ κ) (message : Text) : Machine ρ δ κ :=
  { m with journal := Journal.record m.journal message }

/-- Zero the registers and the memory, darken the display, and leave any state. -/
def reset (m : Machine ρ δ κ) : Machine ρ δ κ :=
  report { m with
    cpu := { pc := m.config.startAddress, memory := m.cpu.memory.clear }
    state := .idle
    instructions := 0
    clock := {} } "CPU has been successfully reset.".toList

def start (config : Config) (source : ρ) (screen : δ) (journal : κ) : Machine ρ δ κ :=
  reset {
    cpu := { memory := .zero source screen }
    journal
    state := .idle
    config
    instructions := 0
    clock := {} }

def halt (m : Machine ρ δ κ) (fault : Fault) : Machine ρ δ κ :=
  let m := (m.report fault.message).report
    "Processing has been halted. RESET to continue.".toList
  { m with state := .halted fault }

/-- Report an instruction that has been fetched from `address`. Its operand is
shown as it is stored, without a read that could draw a random byte. -/
def traceLine (m : Machine ρ δ κ) (address : Address) (d : Descriptor) : Machine ρ δ κ :=
  if m.config.trace then
    m.report (Listing.formatLine address d {
      first := m.cpu.memory.stored (address + 1)
      second := m.cpu.memory.stored (address + 2) })
  else m

/-- Fetch, decode and execute one instruction, in whatever state the machine is. A
fault is handed to the caller and does not halt the machine. -/
def stepInstruction (m : Machine ρ δ κ) : Outcome (Machine ρ δ κ) Unit :=
  let address := m.cpu.pc
  let (opcode, cpu) := m.cpu.fetchByte
  let d := Catalog.decode opcode
  let m := { m with cpu }.traceLine address d
  match m.cpu.execute d with
  | .done _ cpu =>
    .done () { m with cpu, instructions := m.instructions + 1, clock := m.clock.count }
  | .faulted fault cpu => .faulted fault { m with cpu }

def step (m : Machine ρ δ κ) : Machine ρ δ κ :=
  match m.state with
  | .idle => match m.stepInstruction with
    | .done _ m => m
    | .faulted fault m => m.halt fault
  | .running => m.report "Already running.".toList
  | .halted _ => m.report "Cannot run in error state. Please RESET first.".toList

/-- Start to run if the machine is idle. The host then asks for batches. -/
def run (m : Machine ρ δ κ) : Machine ρ δ κ :=
  match m.state with
  | .idle => { m with state := .running, clock := m.clock.restart }
  | .running => m.report "Already running.".toList
  | .halted _ => m.report "Cannot run in error state. Please RESET first.".toList

def stop (m : Machine ρ δ κ) : Machine ρ δ κ :=
  match m.state with
  | .running => { m with state := .idle }
  | _ => m

/-- Execute `count` instructions unless a fault halts the machine, and say whether
none did. -/
def runBatch : Nat → Machine ρ δ κ → Bool × Machine ρ δ κ
  | 0, m => (true, m)
  | count + 1, m => match m.stepInstruction with
    | .done _ m => runBatch count m
    | .faulted fault m => (false, m.halt fault)

/-- Execute a batch if the machine is running, and say whether it still is. -/
def tick (m : Machine ρ δ κ) : Bool × Machine ρ δ κ :=
  match m.state with
  | .running => runBatch m.config.batchSize m
  | _ => (false, m)

def tellTime (m : Machine ρ δ κ) (now : Float) : Machine ρ δ κ :=
  { m with clock := m.clock.tell now }

def setTrace (m : Machine ρ δ κ) (trace : Bool) : Machine ρ δ κ :=
  { m with config := { m.config with trace } }

def withRegisters (m : Machine ρ δ κ) (change : Registers → Registers) : Machine ρ δ κ :=
  { m with cpu := m.cpu.withRegisters change }

def registers (m : Machine ρ δ κ) : Registers := m.cpu.toRegisters

instance : Bus (Machine ρ δ κ) where
  read m address :=
    let (byte, cpu) := m.cpu.read address
    (byte, { m with cpu })
  write m address byte := { m with cpu := m.cpu.write address byte }

end Machine
end Micro6502
