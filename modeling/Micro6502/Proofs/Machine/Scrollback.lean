import Mathlib.Data.List.Induction
import Micro6502.Machine.Scrollback
import Micro6502.Proofs.Machine.Recent

/-! The lines that a console has kept. They are the newest messages, as many as there is room for,
and clearing starts afresh. -/

namespace Micro6502

namespace Text

theorem occursIn_iff {needle text : Text} : occursIn needle text = true ↔ needle <:+: text := by
  induction text with
  | nil => simp [occursIn]
  | cons c rest ih =>
      rw [occursIn, Bool.or_eq_true, List.isPrefixOf_iff_prefix, ih, List.infix_cons_iff]

end Text

namespace Scrollback

/-- What may be asked of a console: to take in a message, or to forget all of them. -/
inductive Call where
  | record (message : Text)
  | clear

def Call.message? : Call → Option Text
  | record message => some message
  | clear => none

def meet (console : Scrollback) : Call → Scrollback
  | .record message => Journal.record console message
  | .clear => console.clear

section

variable (messages : List Text) (room : Nat)

/-- A message that has scrolled off would have scrolled off later, too. -/
theorem rtake_concat (message : Text) :
    (messages.rtake room ++ [message]).rtake room = (messages ++ [message]).rtake room := by
  cases room with
  | zero => rw [List.rtake_zero, List.rtake_zero]
  | succ room =>
      have hTwice : (messages.rtake (room + 1)).rtake room = messages.rtake room := by
        simp [List.rtake_eq_reverse_take_reverse, List.take_take]
      rw [List.rtake_concat_succ, List.rtake_concat_succ, hTwice]

theorem length_rtake : (messages.rtake room).length = min room messages.length := by
  simp [List.rtake_eq_reverse_take_reverse]

theorem getLast?_rtake (h : 0 < room) : (messages.rtake room).getLast? = messages.getLast? := by
  rw [List.rtake, List.getLast?_drop]
  split
  next hShort =>
    have hNil : messages = [] := List.eq_nil_of_length_eq_zero (by omega)
    rw [hNil, List.getLast?_nil]
  next => rfl

end

/-- A console has kept what there was room for of the messages since it was last cleared. -/
structure Kept (room : Nat) (calls : List Call) (console : Scrollback) : Prop where
  capacity : console.capacity = room
  lines : console.lines = (recent Call.message? calls).rtake room

/-- A call leaves what there is room for: a message comes last and may push out the first, and
clearing leaves nothing. -/
theorem Kept.meet {room : Nat} {calls : List Call} {console : Scrollback}
    (h : Kept room calls console) (call : Call) :
    Kept room (calls ++ [call]) (console.meet call) := by
  refine ⟨?_, ?_⟩
  · cases call with
    | record | clear => exact h.capacity
  · cases call with
    | record message =>
        rw [recent_concat_of_some Call.message? calls rfl, ← rtake_concat, ← h.lines, ← h.capacity]
        rfl
    | clear =>
        rw [recent_concat_of_none Call.message? calls rfl, List.rtake_nil]
        rfl

/-- Any series of calls is kept. Without room there is still room for one line. -/
theorem kept_of_calls (capacity : Nat) (calls : List Call) :
    Kept (max capacity 1) calls (calls.foldl Scrollback.meet (ofCapacity capacity)) := by
  induction calls using List.reverseRecOn with
  | nil => exact ⟨rfl, (List.rtake_nil _).symm⟩
  | append_singleton calls call ih =>
      rw [List.foldl_append]
      exact ih.meet call

/-- A text is found if it occurs in one of the lines. -/
theorem contains_iff {console : Scrollback} {needle : Text} :
    console.contains needle = true ↔ ∃ line ∈ console.lines, needle <:+: line := by
  simp only [contains, List.any_eq_true, Text.occursIn_iff]

/-- After any series of calls, the lines of a console are the newest of the messages since it was
last cleared, in order: all of them, or as many as it has room for, which is one line at least. The
last line is the last message; and a text is found if it occurs in one of the lines. -/
theorem lines_of_calls (capacity : Nat) (calls : List Call) :
    let console := calls.foldl Scrollback.meet (ofCapacity capacity)
    let messages := recent Call.message? calls
    let room := max capacity 1
    console.lines = messages.rtake room ∧ console.lines.length = min room messages.length ∧
      console.lines.length ≤ room ∧ console.last? = messages.getLast? ∧
      ∀ needle, console.contains needle = true ↔
        ∃ line ∈ messages.rtake room, needle <:+: line := by
  intro console messages room
  have hLines : console.lines = messages.rtake room := (kept_of_calls capacity calls).lines
  have hLength : console.lines.length = min room messages.length := by
    rw [hLines, length_rtake]
  have hLast : console.last? = messages.getLast? := by
    rw [last?, hLines, getLast?_rtake _ _ (by omega)]
  refine ⟨hLines, hLength, hLength ▸ Nat.min_le_left _ _, hLast, fun needle => ?_⟩
  rw [contains_iff, hLines]

/-- Without room a console still has its last message. -/
example :
    let calls : List Call := [.record "ONE".toList, .clear, .record "TWO".toList,
      .record "THREE".toList]
    let console := calls.foldl Scrollback.meet (ofCapacity 0)
    console.lines = ["THREE".toList] ∧ console.contains "WO".toList = false ∧
      console.contains "HR".toList = true := by
  decide

end Scrollback
end Micro6502
