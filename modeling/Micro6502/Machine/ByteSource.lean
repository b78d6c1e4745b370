import Micro6502.Word

/-! Where the random bytes of the machine come from. The machine works with any
source; one simple generator is given here. -/

namespace Micro6502

/-- A state machine that yields one byte per draw. -/
class ByteSource (ρ : Type) where
  next : ρ → Byte × ρ

/-- A linear congruential generator of 64 bits. Its low bits have short periods,
so a draw takes the top byte. -/
structure Congruential where
  state : UInt64
  deriving DecidableEq

namespace Congruential

/-- The generator that a seed selects. -/
def seeded (seed : UInt64) : Congruential := { state := seed }

/-- The next state. The multiplier is one more than a multiple of four and the
increment is odd, so all states lie on one cycle. -/
def advance (generator : Congruential) : Congruential :=
  { state := generator.state * 6364136223846793005 + 1442695040888963407 }

instance : ByteSource Congruential where
  next generator :=
    let generator := generator.advance
    ((generator.state >>> 56).toUInt8, generator)

/-- The seed of a machine for which none is given. -/
def defaultSeed : UInt64 := 0x6502

end Congruential
end Micro6502
