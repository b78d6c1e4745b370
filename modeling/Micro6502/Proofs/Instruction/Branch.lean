import Micro6502.Instruction.Branch

/-! The offset of a branch against the place that it leads to. An offset is a distance without
its upper part, and a branch takes it for a signed byte. So each offset comes back from the place
that it leads to, and a target is reached just if it is no further than a signed byte can say. -/

namespace Micro6502

/-- The offset is the distance from the end of the branch, without its upper part. -/
theorem toNat_branchOffset (address : Address) (target : Nat) :
    ((branchOffset address target).toNat : Int) = ((target : Int) - address.toNat - 2) % 256 := by
  unfold branchOffset
  split
  next hBack =>
    -- `0xFF - (address + 1 - target)` and the distance differ by 256.
    simp only [UInt8.ofInt, UInt8.toNat_ofNat']
    omega
  next hAhead =>
    simp only [UInt8.ofInt, UInt8.toNat_ofNat']
    omega

/-- A branch goes from its end as far as its offset says as a signed byte, around the end of
memory if need be. -/
theorem toNat_branchTarget (base : Address) (offset : Byte) :
    ((branchTarget base offset).toNat : Int) =
      (base.toNat + (offset.toNat : Int).bmod 256) % 65536 := by
  have hByte := offset.toNat_lt
  rw [Int.bmod_def]
  unfold branchTarget
  split
  next hBack =>
    simp only [UInt8.lt_iff_toNat_lt, UInt8.reduceToNat] at hBack
    rw [if_neg (by omega)]
    simp only [UInt16.toNat_sub, UInt8.toNat_toUInt16, UInt16.reduceToNat]
    omega
  next hAhead =>
    simp only [UInt8.lt_iff_toNat_lt, UInt8.reduceToNat] at hAhead
    rw [if_pos (by omega)]
    simp only [UInt16.toNat_add, UInt8.toNat_toUInt16]
    omega

section

variable (address target : Address)

/-- The place that a branch leads to has the offset of the branch, also if the way goes
around the end of memory. -/
theorem branchOffset_branchTarget (offset : Byte) :
    branchOffset address (branchTarget (address + 2) offset).toNat = offset := by
  have hEnd : (address + 2).toNat = (address.toNat + 2) % 65536 := UInt16.toNat_add address 2
  have hTarget := toNat_branchTarget (address + 2) offset
  have hOffset := toNat_branchOffset address (branchTarget (address + 2) offset).toNat
  have hSigned : (offset.toNat : Int).bmod 256 % 256 = offset.toNat % 256 := Int.bmod_emod
  have hByte := offset.toNat_lt
  apply UInt8.toNat_inj.mp
  omega

/-- With the offset of a target a branch goes as far as the lower part of the distance says. -/
theorem toNat_branchTarget_branchOffset :
    ((branchTarget (address + 2) (branchOffset address target.toNat)).toNat : Int) =
      (address.toNat + 2 + ((target.toNat : Int) - address.toNat - 2).bmod 256) % 65536 := by
  have hEnd : (address + 2).toNat = (address.toNat + 2) % 65536 := UInt16.toNat_add address 2
  have hSigned : (((target.toNat : Int) - address.toNat - 2) % 256).bmod 256 =
      ((target.toNat : Int) - address.toNat - 2).bmod 256 := Int.emod_bmod _ 256
  rw [toNat_branchTarget, toNat_branchOffset, hSigned, hEnd]
  omega

/-- A branch leads to its target just if the distance, taken around the end of memory, fits
in a signed byte. -/
theorem branchTarget_branchOffset_eq_iff :
    branchTarget (address + 2) (branchOffset address target.toNat) = target ↔
      ((target.toNat : Int) - address.toNat - 2) % 65536 ≤ 127 ∨
        65408 ≤ ((target.toNat : Int) - address.toNat - 2) % 65536 := by
  have hLands := toNat_branchTarget_branchOffset address target
  have hTarget := target.toNat_lt
  rw [← UInt16.toNat_inj]
  rw [Int.bmod_def] at hLands
  split at hLands
  next hAhead => omega
  next hBack => omega

/-- A branch leads to its target if the distance fits in a signed byte. -/
theorem branchTarget_branchOffset
    (hBack : -128 ≤ ((target.toNat : Int) - address.toNat - 2).bmod 65536)
    (hAhead : ((target.toNat : Int) - address.toNat - 2).bmod 65536 ≤ 127) :
    branchTarget (address + 2) (branchOffset address target.toNat) = target := by
  have hDistance : ((target.toNat : Int) - address.toNat - 2).bmod 65536 % 65536 =
      ((target.toNat : Int) - address.toNat - 2) % 65536 := Int.bmod_emod
  rw [branchTarget_branchOffset_eq_iff]
  omega

/-- A branch that misses its target misses it by whole pages. -/
theorem branchTarget_branchOffset_mod_page :
    (branchTarget (address + 2) (branchOffset address target.toNat)).toNat % 256 =
      target.toNat % 256 := by
  have hLands := toNat_branchTarget_branchOffset address target
  have hDistance : ((target.toNat : Int) - address.toNat - 2).bmod 256 % 256 =
      ((target.toNat : Int) - address.toNat - 2) % 256 := Int.bmod_emod
  omega

end

/-- The offset of a branch is its distance modulo 256, to any target at all. Each offset is that
of the place to which it leads; and a target is the place to which its offset leads just if it
is at most 127 bytes past the end of the branch or 128 bytes before, around the end of memory. A
branch that misses its target leads to the same place of another page. -/
theorem branchOffset_inverse_branchTarget :
    (∀ (address : Address) (target : Nat),
      ((branchOffset address target).toNat : Int) =
        ((target : Int) - address.toNat - 2) % 256) ∧
    (∀ (address : Address) (offset : Byte),
      branchOffset address (branchTarget (address + 2) offset).toNat = offset) ∧
    ∀ address target : Address,
      (branchTarget (address + 2) (branchOffset address target.toNat) = target ↔
        ((target.toNat : Int) - address.toNat - 2) % 65536 ≤ 127 ∨
          65408 ≤ ((target.toNat : Int) - address.toNat - 2) % 65536) ∧
      (branchTarget (address + 2) (branchOffset address target.toNat)).toNat % 256 =
        target.toNat % 256 := by
  refine ⟨toNat_branchOffset, branchOffset_branchTarget, fun address target => ⟨?_, ?_⟩⟩
  · exact branchTarget_branchOffset_eq_iff address target
  · exact branchTarget_branchOffset_mod_page address target

/-- In the last byte of memory a branch still reaches itself; a target one byte too far is
missed by a page. -/
example :
    branchTarget (0xFFFF + 2) (branchOffset 0xFFFF 0xFFFF) = 0xFFFF ∧
      branchTarget 0x0202 (branchOffset 0x0200 0x0281) = 0x0281 ∧
      branchTarget 0x0202 (branchOffset 0x0200 0x0282) = 0x0182 := by
  decide

end Micro6502
