import Micro6502.Machine.Framebuffer
import Micro6502.Proofs.Machine.Screen
import Micro6502.Proofs.Machine.Session

/-! A picture behind the display window. It is told of writes alone, and of a reset only for
the pixels that were lit; still it shows at every moment what the window holds. -/

namespace Micro6502

namespace Framebuffer

@[simp] theorem pixel_blank (index : PixelIndex) : blank.pixel index = 0 := by
  simp [blank, pixel]

theorem pixel_set (buffer : Framebuffer) (index other : PixelIndex) (value : Byte) :
    (buffer.set index value).pixel other = if other = index then value else buffer.pixel other := by
  have hPixels : (buffer.set index value).pixels = buffer.pixels.set index.val value := by
    unfold set
    split <;> rfl
  simp only [pixel, hPixels, Fin.getElem_fin, Vector.getElem_set, Fin.ext_iff, eq_comm]

theorem isBlank_eq_true {buffer : Framebuffer} (h : ∀ index, buffer.pixel index = 0) :
    buffer.isBlank = true := by
  simp only [isBlank, Vector.all_eq_true, beq_iff_eq]
  exact fun i hi => h ⟨i, hi⟩

end Framebuffer

namespace PixelIndex

/-- The address of the byte that a pixel shows. -/
def address (index : PixelIndex) : Address := windowStart + .ofNat index.val

/-- The byte of a pixel lies in the window. -/
theorem inWindow_address (index : PixelIndex) : inWindow index.address = true :=
  mem_windowAddresses.mp (List.mem_map_of_mem (List.mem_range.mpr index.isLt))

/-- A pixel is told of the byte at its own address, and of no other byte of the window. -/
theorem eq_ofAddress_iff {index : PixelIndex} {place : Address} (h : inWindow place = true) :
    index = ofAddress place ↔ index.address = place := by
  have hStart : 0xFC00 ≤ place.toNat := by
    simp only [inWindow, decide_eq_true_eq, UInt16.le_iff_toNat_le] at h
    exact h
  have hTop := place.toNat_lt
  have hAddress := toNat_windowStart_add index.isLt
  simp only [Fin.ext_iff, ofAddress, address, ← UInt16.toNat_inj, hAddress, windowSize]
  have hIndex : index.val < 0x400 := index.isLt
  omega

end PixelIndex

-- A reset goes through the addresses of the window; the machine does not have to list them.
attribute [local irreducible] windowAddresses

namespace Memory

variable {ρ : Type}

/-- Every pixel shows the byte at its address. -/
def Mirrors (memory : Memory ρ Framebuffer) : Prop :=
  ∀ index : PixelIndex, memory.screen.pixel index = memory.stored index.address

/-- Report the pixel at an address as dark, if it is lit. -/
def darkenAt {δ : Type} [Screen δ] (cells : Cells) (screen : δ) (address : Address) : δ :=
  if cells.get address = 0 then screen else Screen.paint screen address 0

/-- A reset tells the screen, address by address, to darken what was not zero. -/
theorem screen_clear {δ : Type} [Screen δ] (memory : Memory ρ δ) :
    memory.clear.screen = windowAddresses.foldl (darkenAt memory.cells) memory.screen := rfl

/-- A pixel is dark in the end, or the cells at its addresses were all zero and it shows what
it showed before. -/
theorem pixel_foldl_darkenAt (cells : Cells) (index : PixelIndex) (addresses : List Address)
    (buffer : Framebuffer) :
    (addresses.foldl (darkenAt cells) buffer).pixel index = 0 ∨
      (addresses.foldl (darkenAt cells) buffer).pixel index = buffer.pixel index ∧
        ∀ address ∈ addresses, index = .ofAddress address → cells.get address = 0 := by
  induction addresses generalizing buffer with
  | nil => exact .inr ⟨rfl, by simp⟩
  | cons address rest ih =>
      rw [List.foldl_cons]
      rcases ih (darkenAt cells buffer address) with hZero | ⟨hSame, hRest⟩
      · exact .inl hZero
      · rw [hSame]
        simp only [List.forall_mem_cons]
        by_cases hDark : cells.get address = 0
        · rw [darkenAt, if_pos hDark]
          exact .inr ⟨rfl, fun _ => hDark, hRest⟩
        · have hPaint := Framebuffer.pixel_set buffer (.ofAddress address) index 0
          rw [darkenAt, if_neg hDark]
          by_cases hIndex : index = .ofAddress address
          · exact .inl (hPaint.trans (if_pos hIndex))
          · exact .inr ⟨hPaint.trans (if_neg hIndex), fun h => absurd h hIndex, hRest⟩

/-- It is enough to darken the pixels whose bytes are not zero, when the picture is true. -/
theorem Mirrors.pixel_clear {memory : Memory ρ Framebuffer} (h : memory.Mirrors)
    (index : PixelIndex) : memory.clear.screen.pixel index = 0 := by
  rw [screen_clear]
  rcases pixel_foldl_darkenAt memory.cells index windowAddresses memory.screen with
    hZero | ⟨hSame, hDark⟩
  · exact hZero
  · have hCell := hDark index.address (mem_windowAddresses.mpr index.inWindow_address)
      ((PixelIndex.eq_ofAddress_iff index.inWindow_address).mpr rfl)
    exact hSame.trans ((h index).trans hCell)

/-- A write to the window is painted at the pixel of its address. The picture is not told of any
other write, and need not be. -/
theorem Mirrors.write {memory : Memory ρ Framebuffer} (h : memory.Mirrors) (address : Address)
    (byte : Byte) : (memory.write address byte).Mirrors := by
  intro index
  rw [stored_write]
  by_cases hIn : inWindow address = true
  · have hScreen : (memory.write address byte).screen =
        memory.screen.set (.ofAddress address) byte := if_pos hIn
    rw [hScreen, Framebuffer.pixel_set, h index]
    simp only [PixelIndex.eq_ofAddress_iff hIn]
  · have hScreen : (memory.write address byte).screen = memory.screen := if_neg hIn
    have hOther : index.address ≠ address := fun hSame => hIn (hSame ▸ index.inWindow_address)
    rw [hScreen, h index, if_neg hOther]

/-- The picture stays true whatever is done to memory. -/
theorem mirrors_invariant [ByteSource ρ] :
    Memory.Invariant (Mirrors : Memory ρ Framebuffer → Prop) where
  afterRead := by
    intro memory h address index
    have hScreen : (memory.afterRead address).screen = memory.screen := by
      unfold afterRead
      split <;> rfl
    rw [hScreen, stored_afterRead]
    exact h index
  write := Mirrors.write
  clear := by
    intro memory h index
    rw [stored_clear]
    exact h.pixel_clear index

end Memory

namespace Machine

variable {ρ κ : Type} [ByteSource ρ] [Journal κ]

/-- What may happen to a machine with a picture: a command of the host, or a renderer that
takes the list of painted pixels. -/
inductive Event where
  | command (command : Command)
  | takeDirty

def meet (m : Machine ρ Framebuffer κ) : Event → Machine ρ Framebuffer κ
  | .command command => (m.obey command).2
  | .takeDirty =>
    let memory := { m.cpu.memory with screen := m.cpu.memory.screen.takeDirty.2 }
    { m with cpu := { m.cpu with memory } }

/-- No event makes the picture untrue. Taking the list of painted pixels changes no pixel. -/
theorem mirrors_meet {m : Machine ρ Framebuffer κ} (h : m.cpu.memory.Mirrors) (event : Event) :
    (m.meet event).cpu.memory.Mirrors := by
  cases event with
  | command command => exact memory_obey Memory.mirrors_invariant h command
  | takeDirty => exact h

/-- Nor does any number of events. -/
theorem mirrors_foldl_meet {m : Machine ρ Framebuffer κ} (h : m.cpu.memory.Mirrors)
    (events : List Event) : (events.foldl meet m).cpu.memory.Mirrors := by
  induction events generalizing m with
  | nil => exact h
  | cons event rest ih => exact ih (mirrors_meet h event)

/-- A machine that is started with a blank picture shows in it, after any number of events,
the bytes of the display window; and a reset leaves the picture blank. -/
theorem mirrors_after_events (config : Config) (source : ρ) (journal : κ) (events : List Event) :
    let m := events.foldl meet (start config source Framebuffer.blank journal)
    m.cpu.memory.Mirrors ∧ m.reset.cpu.memory.screen.isBlank = true := by
  have hBlank : (Memory.zero source Framebuffer.blank).Mirrors := fun index =>
    (Framebuffer.pixel_blank index).trans (Cells.get_zero _).symm
  have hStart : (start config source Framebuffer.blank journal).cpu.memory.Mirrors :=
    Memory.mirrors_invariant.clear hBlank
  have hEvents := mirrors_foldl_meet hStart events
  exact ⟨hEvents, Framebuffer.isBlank_eq_true hEvents.pixel_clear⟩

end Machine
end Micro6502
