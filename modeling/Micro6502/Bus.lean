import Micro6502.Word

/-! Access to memory byte by byte. A read may change what it reads from, since
one address of the machine yields a fresh random byte each time. -/

namespace Micro6502

/-- Something that has a byte at every address. -/
class Bus (β : Type) where
  /-- The byte at an address, and what the read leaves behind. -/
  read : β → Address → Byte × β
  /-- Store a byte. -/
  write : β → Address → Byte → β

namespace Bus

/-- A fixed assignment of bytes to addresses. Reads leave it as it is. -/
instance : Bus (Address → Byte) where
  read image address := (image address, image)
  write image address value := fun a => if a = address then value else image a

variable {β : Type} [Bus β]

/-- Read a little-endian word. It may wrap at the top of memory. -/
def readWord (bus : β) (address : Address) : Address × β :=
  let (low, bus) := read bus address
  let (high, bus) := read bus (address + 1)
  (word low high, bus)

/-- Read `count` successive bytes, wrapping at the top of memory. -/
def readBytes (bus : β) (address : Address) : Nat → List Byte × β
  | 0 => ([], bus)
  | count + 1 =>
    let (byte, bus) := read bus address
    let (bytes, bus) := readBytes bus (address + 1) count
    (byte :: bytes, bus)

/-- Store successive bytes, wrapping at the top of memory. -/
def writeBytes (bus : β) (address : Address) : List Byte → β
  | [] => bus
  | byte :: bytes => writeBytes (write bus address byte) (address + 1) bytes

end Bus
end Micro6502
