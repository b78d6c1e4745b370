/-! Throughput. The host tells the time in milliseconds as often as it likes; the
rate is brought up to date once a second. -/

namespace Micro6502

/-- The first time told since the machine was started, the time at which the
current window began, and what was found so far. -/
structure Clock where
  started : Option Float := none
  windowStart : Option Float := none
  /-- Instructions executed in the current window. -/
  windowCount : Nat := 0
  /-- Milliseconds from the first time told to the last one. -/
  elapsed : Float := 0.0
  /-- Instructions per second in the last complete window. -/
  rate : UInt64 := 0

namespace Clock

def count (clock : Clock) : Clock := { clock with windowCount := clock.windowCount + 1 }

/-- Begin anew when the machine is started. What was found before remains until a
time is told. -/
def restart (clock : Clock) : Clock :=
  { clock with started := none, windowStart := none, windowCount := 0 }

def windowLength : Float := 1000.0

/-- Take in the time `now`. A window that has lasted long enough ends here. -/
def tell (clock : Clock) (now : Float) : Clock :=
  let started := clock.started.getD now
  let windowStart := clock.windowStart.getD now
  let window := now - windowStart
  if windowLength ≤ window then
    { started := some started
      windowStart := some now
      windowCount := 0
      elapsed := now - started
      rate := (clock.windowCount.toFloat * windowLength / window).toUInt64 }
  else
    { clock with
      started := some started
      windowStart := some windowStart
      elapsed := now - started }

end Clock
end Micro6502
