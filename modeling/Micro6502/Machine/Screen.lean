import Micro6502.Word

/-! The display window and what may stand behind it. The machine reports every
byte that it stores into the top kilobyte of memory. -/

namespace Micro6502

/-- The first address of the display window, which reaches to the top of memory. -/
def windowStart : Address := 0xFC00

abbrev windowSize : Nat := 0x400

def inWindow (address : Address) : Bool := windowStart ≤ address

def windowAddresses : List Address :=
  (List.range windowSize).map fun offset => windowStart + .ofNat offset

/-- A receiver of the bytes that are stored into the display window. -/
class Screen (δ : Type) where
  /-- Take in a byte stored at an address of the window. -/
  paint : δ → Address → Byte → δ

namespace Screen

/-- A machine without a display. -/
instance : Screen Unit where
  paint screen _ _ := screen

/-- A record of all that was painted, in order. -/
instance : Screen (Array (Address × Byte)) where
  paint record address value := record.push (address, value)

/-- Two receivers of the same bytes. -/
instance {δ ε : Type} [Screen δ] [Screen ε] : Screen (δ × ε) where
  paint screens address value :=
    (paint screens.1 address value, paint screens.2 address value)

end Screen
end Micro6502
