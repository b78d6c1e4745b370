import Micro6502.Text.Numeral
import Micro6502.Machine.Status

/-! The registers of the processor. -/

namespace Micro6502

def stackEmpty : UInt16 := 0x100

/-- The stack pointer is an offset into the stack page: the top item lies at that
offset, and `stackEmpty` means that there is none. -/
structure Registers where
  a : Byte := 0
  x : Byte := 0
  y : Byte := 0
  p : Status := {}
  pc : Address := programStart
  sp : UInt16 := stackEmpty
  deriving DecidableEq

namespace Registers

/-- Set the stack pointer. Offsets beyond the stack page count as empty. -/
def setStack (r : Registers) (sp : UInt16) : Registers := { r with sp := min sp stackEmpty }

def display (r : Registers) : Text :=
  "A=$".toList ++ Text.hexByte r.a ++ " X=$".toList ++ Text.hexByte r.x ++
    " Y=$".toList ++ Text.hexByte r.y ++ " P=".toList ++ Text.binaryByte r.p.toByte ++
    " PC=$".toList ++ Text.hexWord r.pc ++ " SP=$".toList ++ Text.hexWord r.sp

end Registers
end Micro6502
