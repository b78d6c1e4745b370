import Mathlib.Data.List.Basic
import Micro6502.Machine.Memory

/-! The display window: where its addresses lie, and what a screen that is darkened gets to see
of memory. -/

namespace Micro6502

/-- An address in the window as a number. The window ends with memory, so adding a place in it
to its start never wraps. -/
theorem toNat_windowStart_add {offset : Nat} (h : offset < windowSize) :
    (windowStart + .ofNat offset : Address).toNat = 0xFC00 + offset := by
  simp only [windowSize] at h
  have hStart : windowStart.toNat = 0xFC00 := rfl
  rw [UInt16.toNat_add, UInt16.toNat_ofNat', hStart]
  omega

/-- The list has the addresses of the window, all of them and no others. -/
theorem mem_windowAddresses {address : Address} :
    address ∈ windowAddresses ↔ inWindow address = true := by
  have hStart : windowStart.toNat = 0xFC00 := rfl
  have hTop := address.toNat_lt
  simp only [windowAddresses, List.mem_map, List.mem_range, inWindow, decide_eq_true_eq,
    UInt16.le_iff_toNat_le, hStart]
  constructor
  · rintro ⟨offset, hOffset, rfl⟩
    rw [toNat_windowStart_add hOffset]
    exact Nat.le_add_right _ _
  · intro hIn
    have hOffset : address.toNat - 0xFC00 < windowSize := by
      simp only [windowSize]
      omega
    refine ⟨address.toNat - 0xFC00, hOffset, UInt16.toNat_inj.mp ?_⟩
    rw [toNat_windowStart_add hOffset]
    omega

/-- The random address lies below the window, so what is stored there is never painted. -/
theorem inWindow_randomAddress : inWindow randomAddress = false := rfl

namespace Memory

variable {δ : Type} [Screen δ]

/-- A screen is darkened by what the window holds and by nothing else. -/
theorem darken_congr {cells others : Cells} (screen : δ)
    (h : ∀ address, inWindow address = true → cells.get address = others.get address) :
    darken cells screen = darken others screen := by
  refine List.foldl_ext _ _ _ fun screen address hMem => ?_
  rw [h address (mem_windowAddresses.mp hMem)]

end Memory
end Micro6502
