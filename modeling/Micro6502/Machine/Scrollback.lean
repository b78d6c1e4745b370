import Micro6502.Machine.Journal

/-! A console that keeps the newest messages and lets the older ones scroll off. -/

namespace Micro6502

/-- At most `capacity` messages, oldest first. -/
structure Scrollback where
  capacity : Nat
  lines : List Text := []
  deriving DecidableEq

namespace Scrollback

/-- The number of lines of a console for which none is given. -/
def defaultCapacity : Nat := 100

/-- An empty console. It has room for one line at least. -/
def ofCapacity (capacity : Nat) : Scrollback := { capacity := max capacity 1 }

def last? (console : Scrollback) : Option Text := console.lines.getLast?

def contains (console : Scrollback) (needle : Text) : Bool :=
  console.lines.any (Text.occursIn needle)

def clear (console : Scrollback) : Scrollback := { console with lines := [] }

/-- Append a line. If there is no room for it, the oldest ones go. -/
def append (console : Scrollback) (line : Text) : Scrollback :=
  let lines := console.lines ++ [line]
  { console with lines := lines.drop (lines.length - console.capacity) }

instance : Journal Scrollback where
  record := append

end Scrollback
end Micro6502
