import Micro6502.Bus
import Micro6502.Machine.ByteSource
import Micro6502.Machine.Screen

/-! The memory of the machine. Two parts of it are special: one address yields
random bytes when it is read, and what is stored into the display window is also
painted on the screen. -/

namespace Micro6502

/-- One byte for every address. -/
abbrev Cells := Vector Byte 0x10000

namespace Cells

def zero : Cells := .replicate 0x10000 0

def get (cells : Cells) (address : Address) : Byte :=
  have hAddress : address.toNat < 0x10000 := address.toNat_lt
  cells[address.toNat]

def put (cells : Cells) (address : Address) (value : Byte) : Cells :=
  cells.set address.toNat value address.toNat_lt

@[simp] theorem get_zero (address : Address) : zero.get address = 0 := by
  simp [zero, get]

/-- A cell keeps its byte until another one is put there. -/
theorem get_put (cells : Cells) (address other : Address) (value : Byte) :
    (cells.put address value).get other = if other = address then value else cells.get other := by
  by_cases h : other = address
  · simp [put, get, h]
  · have hNat : address.toNat ≠ other.toNat := fun he => h (UInt16.toNat_inj.mp he.symm)
    simp [put, get, h, hNat]

end Cells

/-- The address that yields a random byte whenever it is read. -/
def randomAddress : Address := 0x00FD

/-- The stored bytes, the source of random bytes, and the screen. -/
structure Memory (ρ δ : Type) where
  cells : Cells
  source : ρ
  screen : δ

namespace Memory

variable {ρ δ : Type}

def zero (source : ρ) (screen : δ) : Memory ρ δ := { cells := .zero, source, screen }

/-- The byte stored at an address, the random address included. -/
def stored (memory : Memory ρ δ) (address : Address) : Byte := memory.cells.get address

/-- The byte that a read of an address yields. -/
def value [ByteSource ρ] (memory : Memory ρ δ) (address : Address) : Byte :=
  if address = randomAddress then (ByteSource.next memory.source).1 else memory.stored address

/-- The memory after a read of an address: a random byte is drawn only once. -/
def afterRead [ByteSource ρ] (memory : Memory ρ δ) (address : Address) : Memory ρ δ :=
  if address = randomAddress then
    { memory with source := (ByteSource.next memory.source).2 }
  else memory

/-- Store a byte, also at the random address, and paint it if the address lies in
the display window. -/
def write [Screen δ] (memory : Memory ρ δ) (address : Address) (byte : Byte) : Memory ρ δ :=
  { memory with
    cells := memory.cells.put address byte
    screen := if inWindow address then Screen.paint memory.screen address byte
      else memory.screen }

/-- Report every lit pixel as dark, in ascending order. -/
def darken [Screen δ] (cells : Cells) (screen : δ) : δ :=
  windowAddresses.foldl
    (fun screen address => if cells.get address = 0 then screen else Screen.paint screen address 0)
    screen

/-- Make every byte zero. The random source goes on from where it is. -/
def clear [Screen δ] (memory : Memory ρ δ) : Memory ρ δ :=
  { memory with cells := .zero, screen := darken memory.cells memory.screen }

instance [ByteSource ρ] [Screen δ] : Bus (Memory ρ δ) where
  read memory address := (memory.value address, memory.afterRead address)
  write := write

@[simp] theorem stored_write [Screen δ] (memory : Memory ρ δ) (address other : Address)
    (byte : Byte) : (memory.write address byte).stored other =
      if other = address then byte else memory.stored other :=
  Cells.get_put memory.cells address other byte

/-- To draw a random byte changes no stored one. -/
@[simp] theorem stored_afterRead [ByteSource ρ] (memory : Memory ρ δ)
    (address other : Address) : (memory.afterRead address).stored other = memory.stored other := by
  unfold afterRead
  split <;> rfl

@[simp] theorem stored_clear [Screen δ] (memory : Memory ρ δ) (address : Address) :
    memory.clear.stored address = 0 :=
  Cells.get_zero address

/-- Elsewhere than at the random address, what is read is what is stored. -/
theorem value_of_ne [ByteSource ρ] (memory : Memory ρ δ) {address : Address}
    (h : address ≠ randomAddress) : memory.value address = memory.stored address :=
  if_neg h

theorem afterRead_of_ne [ByteSource ρ] (memory : Memory ρ δ) {address : Address}
    (h : address ≠ randomAddress) : memory.afterRead address = memory :=
  if_neg h

end Memory
end Micro6502
