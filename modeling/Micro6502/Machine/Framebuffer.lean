import Micro6502.Machine.Screen

/-! A picture of the display window: 32 rows of 32 pixels, one byte each, together
with the pixels that were painted since a renderer last asked for them. -/

namespace Micro6502

def screenWidth : Nat := 0x20

def screenHeight : Nat := 0x20

/-- A pixel by its place in the window, row by row. -/
abbrev PixelIndex := Fin windowSize

/-- The pixel that shows the byte at an address. -/
def PixelIndex.ofAddress (address : Address) : PixelIndex :=
  ⟨address.toNat % windowSize, Nat.mod_lt _ (by decide)⟩

/-- The pixel in a column and a row. Coordinates wrap inside the picture. -/
def PixelIndex.ofPosition (column row : Nat) : PixelIndex :=
  ⟨row % screenHeight * screenWidth + column % screenWidth, by
    have hRow := Nat.mod_lt row (show screenHeight > 0 by decide)
    have hColumn := Nat.mod_lt column (show screenWidth > 0 by decide)
    simp only [screenHeight, screenWidth, windowSize] at *
    omega⟩

/-- The picture. `dirty` lists the painted pixels in the order in which each was
first painted, and `pending` marks the pixels that are on the list. -/
structure Framebuffer where
  pixels : Vector Byte windowSize
  dirty : Array PixelIndex
  pending : Vector Bool windowSize
  deriving DecidableEq

namespace Framebuffer

/-- A picture that is all zero and of which nothing has been painted. -/
def blank : Framebuffer where
  pixels := .replicate windowSize 0
  dirty := #[]
  pending := .replicate windowSize false

def pixel (buffer : Framebuffer) (index : PixelIndex) : Byte := buffer.pixels[index]

def isPending (buffer : Framebuffer) (index : PixelIndex) : Bool := buffer.pending[index]

def isBlank (buffer : Framebuffer) : Bool := buffer.pixels.all (· == 0)

/-- Paint a pixel. It enters the list unless it is already there. -/
def set (buffer : Framebuffer) (index : PixelIndex) (value : Byte) : Framebuffer :=
  let pixels := buffer.pixels.set index.val value
  if buffer.pending[index] then { buffer with pixels }
  else {
    pixels
    dirty := buffer.dirty.push index
    pending := buffer.pending.set index.val true }

/-- The list of painted pixels, and the buffer with an empty list. -/
def takeDirty (buffer : Framebuffer) : List PixelIndex × Framebuffer :=
  let dirty := buffer.dirty.toList
  (dirty, { buffer with
    dirty := #[]
    pending := dirty.foldl (fun pending index => pending.set index.val false) buffer.pending })

instance : Screen Framebuffer where
  paint buffer address value := buffer.set (.ofAddress address) value

end Framebuffer
end Micro6502
