import Mathlib.Data.List.DropRight

/-! Series of calls to a receiver. Some of them bring something, and each of the others takes away
all that was brought before it. -/

namespace Micro6502

variable {α β : Type}

/-- What was brought since something was last taken away, the oldest first. -/
def recent (brought? : α → Option β) (calls : List α) : List β :=
  (calls.rtakeWhile fun call => (brought? call).isSome).filterMap brought?

variable (brought? : α → Option β) (calls : List α) {call : α}

/-- What the last call has brought comes last. -/
theorem recent_concat_of_some {item : β} (h : brought? call = some item) :
    recent brought? (calls ++ [call]) = recent brought? calls ++ [item] := by
  simp [recent, h]

/-- A last call that brings nothing has taken all away. -/
theorem recent_concat_of_none (h : brought? call = none) :
    recent brought? (calls ++ [call]) = [] := by
  simp [recent, h]

end Micro6502
