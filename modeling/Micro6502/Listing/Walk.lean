import Micro6502.Bus
import Micro6502.Instruction.Catalog
import Micro6502.Listing.Format

/-! Walks through memory that list what lies there: instruction by instruction,
or in rows of bytes. A walk never starts a line beyond the top of memory. -/

namespace Micro6502.Listing

open Text

variable {β : Type} [Bus β]

/-- An instruction at its place in memory. -/
structure Instruction where
  address : Address
  descriptor : Descriptor
  operand : OperandBytes
  deriving DecidableEq

namespace Instruction

def size (instruction : Instruction) : Nat := instruction.descriptor.size

def display (instruction : Instruction) : Text :=
  formatLine instruction.address instruction.descriptor instruction.operand

end Instruction

/-- The longest listing that is made unless another limit is given. -/
def defaultLimit : Nat := 50

def rowBytes : Nat := 8

/-- What separates the lines of a listing. -/
def lineBreak : Text := "\r\n".toList

/-- Decode the instruction at an address. Every byte decodes to something; the
bytes behind the top of memory are those at its bottom. -/
def decodeAt (bus : β) (address : Address) : Instruction × β :=
  let (opcode, bus) := Bus.read bus address
  let (first, bus) := Bus.read bus (address + 1)
  let (second, bus) := Bus.read bus (address + 2)
  ({ address, descriptor := Catalog.decode opcode, operand := { first, second } }, bus)

/-- Decode at most `limit` instructions, the first of which starts at `place`. -/
def disassembleFrom (place : Nat) (bus : β) : Nat → List Instruction × β
  | 0 => ([], bus)
  | limit + 1 =>
    if place < 0x10000 then
      let (instruction, bus) := decodeAt bus (.ofNat place)
      let (rest, bus) := disassembleFrom (place + instruction.size) bus limit
      (instruction :: rest, bus)
    else ([], bus)

/-- Decode at most `limit` instructions from an address onwards. -/
def disassemble (bus : β) (start : Address) (limit : Nat) : List Instruction × β :=
  disassembleFrom start.toNat bus limit

def decompile (bus : β) (start : Address) (limit : Nat) : Text × β :=
  let (instructions, bus) := disassemble bus start limit
  (joinWith lineBreak (instructions.map Instruction.display), bus)

/-- At most `limit` rows of bytes, the first of which starts at `place`. -/
def rowsFrom (place : Nat) (bus : β) : Nat → List Text × β
  | 0 => ([], bus)
  | limit + 1 =>
    if place < 0x10000 then
      let (bytes, bus) := Bus.readBytes bus (.ofNat place) rowBytes
      let (rest, bus) := rowsFrom (place + rowBytes) bus limit
      (formatRow (.ofNat place) bytes :: rest, bus)
    else ([], bus)

/-- Rows of bytes as text, one per line. -/
def dump (bus : β) (start : Address) (limit : Nat) : Text × β :=
  let (rows, bus) := rowsFrom start.toNat bus limit
  (joinWith lineBreak rows, bus)

end Micro6502.Listing
