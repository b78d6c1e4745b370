import Micro6502.Instruction.Branch
import Micro6502.Instruction.Descriptor
import Micro6502.Assembly.Operand

/-! The code of one source line, and the filling in of a label that was not
known when the line was encoded. -/

namespace Micro6502.Assembly

/-- A label whose address is still to be filled into a line. -/
structure LabelRef where
  name : Text
  select : ByteSelect
  deriving DecidableEq

/-- The bytes of one source line and where they go. The size of the descriptor
of a byte directive is the number of bytes in its list. -/
structure CodeLine where
  address : Address
  bytes : List Byte
  descriptor : Descriptor
  line : Nat
  pending : Option LabelRef
  deriving DecidableEq

namespace CodeLine

/-- Which half of an address a one-byte field of the line takes. -/
def select (code : CodeLine) : ByteSelect :=
  match code.pending with
  | none => .low
  | some reference => reference.select

/-- Fill in the address of the pending label: as a distance in a branch, as one
half in a line of two bytes, in full in a line of three. -/
def fill (code : CodeLine) (target : Address) : Except Cause CodeLine :=
  match code.bytes with
  | [opcode, _] =>
    if code.descriptor.mode = .relative then
      .ok { code with
        bytes := [opcode, branchOffset code.address target.toNat], pending := none }
    else .ok { code with bytes := [opcode, code.select.apply target], pending := none }
  | [opcode, _, _] =>
    .ok { code with bytes := [opcode, lowByte target, highByte target], pending := none }
  | bytes => .error (.unimplementedPatch bytes.length)

end CodeLine
end Micro6502.Assembly
