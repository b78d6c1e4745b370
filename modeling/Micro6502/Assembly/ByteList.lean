import Micro6502.Assembly.Cause

/-! The value list of the byte directive: numbers separated by commas, each in
its own radix. -/

namespace Micro6502.Assembly

open Text

/-- Read one entry of the list `text`. The whole list is reported when the entry
is not a number. -/
def parseByte (text entry : Text) : Except Cause Byte :=
  match readMarked? (trim entry) with
  | none => .error (.invalidDirective text)
  | some value => if value ≤ 0xFF then .ok (.ofNat value) else .error (.outOfRange value)

/-- Read a value list. Its first bad entry decides what is reported. -/
def parseByteList (text : Text) : Except Cause (List Byte) :=
  (fields ',' text).mapM (parseByte text)

end Micro6502.Assembly
