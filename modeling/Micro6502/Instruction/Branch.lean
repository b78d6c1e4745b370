import Micro6502.Word

/-! Relative branches. The operand byte counts from the end of the two-byte
branch, forwards up to `0x7F` and backwards above. -/

namespace Micro6502

/-- The operand byte of a branch at `address` to `target`. Backwards it counts down from
`0xFF`, the last byte of the branch itself; forwards it passes over the two bytes of the
branch. A distance that does not fit in a signed byte loses its upper part without notice. -/
def branchOffset (address : Address) (target : Nat) : Byte :=
  if target ≤ address.toNat then .ofInt (0xFF - ((address.toNat : Int) + 1 - target))
  else .ofInt ((target : Int) - address.toNat - 2)

/-- Where a branch leads whose operand byte is `offset` and whose end is `base`. -/
def branchTarget (base : Address) (offset : Byte) : Address :=
  if 0x7F < offset then base - (0x100 - offset.toUInt16) else base + offset.toUInt16

end Micro6502
