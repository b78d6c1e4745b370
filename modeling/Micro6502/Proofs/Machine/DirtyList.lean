import Mathlib.Data.Fintype.Card
import Mathlib.Data.List.Induction
import Micro6502.Proofs.Machine.Display
import Micro6502.Proofs.Machine.Recent

/-! The painted pixels of a picture. They are kept twice, as a list and as a mark on each pixel;
over any series of calls the two agree, so that nothing is listed twice and nothing is forgotten. A
renderer that repaints what it is told of shows the picture. -/

namespace Micro6502

namespace Framebuffer

/-- What may be asked of a picture: to take in a byte for the display window, or to hand out the
list of painted pixels. -/
inductive Call where
  | paint (address : Address) (value : Byte)
  | takeDirty

/-- The pixel that a call paints, and the byte that it gets. -/
def Call.stroke? : Call → Option (PixelIndex × Byte)
  | paint address value => some (.ofAddress address, value)
  | takeDirty => none

/-- The pixels that were painted since the list was last taken, each as often as it was painted. -/
def painted (calls : List Call) : List PixelIndex := (recent Call.stroke? calls).map Prod.fst

/-- The byte that a pixel was painted with last. -/
def lastByte? (calls : List Call) (index : PixelIndex) : Option Byte :=
  ((calls.filterMap Call.stroke?).reverse.find? fun stroke => stroke.1 = index).map Prod.snd

/-- A picture, and what a renderer shows of it. -/
structure Viewing where
  buffer : Framebuffer
  shown : Vector Byte windowSize

namespace Viewing

/-- A blank picture, which is shown as it is. -/
def blank : Viewing := { buffer := .blank, shown := Framebuffer.blank.pixels }

/-- The renderer looks at nothing but the list; it repaints the pixels on it. -/
def meet (viewing : Viewing) : Call → Viewing
  | .paint address value => { viewing with buffer := Screen.paint viewing.buffer address value }
  | .takeDirty =>
    let (dirty, buffer) := viewing.buffer.takeDirty
    { buffer, shown := dirty.foldl
        (fun shown index => shown.set index.val (buffer.pixel index) index.isLt) viewing.shown }

end Viewing

/-- Entries that are replaced one after another, each by what belongs at its place. -/
theorem get_foldl_set {α : Type} (entry : PixelIndex → α) (indices : List PixelIndex)
    (entries : Vector α windowSize) (index : PixelIndex) :
    (indices.foldl (fun entries index => entries.set index.val (entry index) index.isLt)
      entries).get index = if index ∈ indices then entry index else entries.get index := by
  induction indices generalizing entries with
  | nil => simp
  | cons first rest ih =>
      have hSet : (entries.set first.val (entry first) first.isLt).get index =
          if first.val = index.val then entry first else entries.get index :=
        Vector.getElem_set first.isLt index.isLt
      rw [List.foldl_cons, ih, hSet]
      by_cases hRest : index ∈ rest
      · simp [hRest]
      · simp only [hRest, List.mem_cons, or_false, Fin.ext_iff, if_false]
        by_cases hFirst : first.val = index.val
        · obtain rfl := Fin.ext hFirst
          simp
        · rw [if_neg hFirst, if_neg (Ne.symm hFirst)]

/-- A new last entry stays just if it is not in the list. -/
theorem eraseDups_concat {α : Type} [DecidableEq α] (list : List α) (entry : α) :
    (list ++ [entry]).eraseDups =
      if entry ∈ list then list.eraseDups else list.eraseDups ++ [entry] := by
  rw [List.eraseDups_append]
  split
  next h => simp [List.removeAll, h]
  next h => simp [List.removeAll, h, List.eraseDups_cons]

theorem nodup_eraseDups {α : Type} [DecidableEq α] (list : List α) : list.eraseDups.Nodup := by
  induction list using List.reverseRecOn with
  | nil => simp
  | append_singleton list entry ih =>
      rw [eraseDups_concat]
      split
      · exact ih
      next hNew =>
        have hErased : entry ∉ list.eraseDups := fun h => hNew (List.mem_eraseDups.mp h)
        exact List.nodup_append_comm.mp (List.nodup_cons.mpr ⟨hErased, ih⟩)

/-- The marks are on the listed pixels and on no others. -/
def Consistent (buffer : Framebuffer) : Prop :=
  ∀ index, buffer.isPending index = true ↔ index ∈ buffer.dirty

section

variable {buffer : Framebuffer} {index other : PixelIndex}

/-- A pixel that has its mark gets the byte and nothing else. -/
theorem set_of_pending (h : buffer.isPending index = true) (value : Byte) :
    buffer.set index value =
      { buffer with pixels := buffer.pixels.set index.val value index.isLt } :=
  if_pos h

/-- A pixel without a mark gets the byte, its mark and a place at the end of the list. -/
theorem set_of_not_pending (h : ¬ buffer.isPending index = true) (value : Byte) :
    buffer.set index value = {
      pixels := buffer.pixels.set index.val value index.isLt
      dirty := buffer.dirty.push index
      pending := buffer.pending.set index.val true index.isLt } :=
  if_neg h

/-- A pixel that is painted has its mark, and the others keep or lack theirs. -/
theorem isPending_set (value : Byte) : (buffer.set index value).isPending other = true ↔
    buffer.isPending other = true ∨ other = index := by
  by_cases hMarked : buffer.isPending index = true
  · have hSame : (buffer.set index value).isPending other = buffer.isPending other := by
      rw [set_of_pending hMarked]
      rfl
    rw [hSame]
    refine ⟨.inl, ?_⟩
    rintro (h | rfl)
    · exact h
    · exact hMarked
  · rw [set_of_not_pending hMarked, isPending, isPending, Fin.getElem_fin, Vector.getElem_set]
    by_cases hOther : other = index
    · simp [hOther]
    · simp [hOther, Fin.val_inj, Ne.symm hOther]

/-- A pixel that is on the list is not put there again. -/
theorem Consistent.dirty_set (h : buffer.Consistent) (index : PixelIndex) (value : Byte) :
    (buffer.set index value).dirty =
      if index ∈ buffer.dirty then buffer.dirty else buffer.dirty.push index := by
  split
  next hListed => rw [set_of_pending ((h index).mpr hListed)]
  next hNew => rw [set_of_not_pending (mt (h index).mp hNew)]

/-- Painting puts its own pixel on the list and takes none away. -/
theorem Consistent.mem_dirty_set (h : buffer.Consistent) (value : Byte) :
    other ∈ (buffer.set index value).dirty ↔ other ∈ buffer.dirty ∨ other = index := by
  rw [h.dirty_set]
  split
  next hListed => exact ⟨.inl, fun hOr => hOr.elim id fun hSame => hSame ▸ hListed⟩
  next => exact Array.mem_push

/-- Marks and list go together, so they still agree after painting. -/
theorem Consistent.set (h : buffer.Consistent) (index : PixelIndex) (value : Byte) :
    (buffer.set index value).Consistent := by
  intro other
  rw [isPending_set, h.mem_dirty_set, h other]

theorem consistent_blank : blank.Consistent := by
  intro index
  simp [blank, isPending]

/-- The marks are wiped off the pixels that are handed out, which are all that have one. -/
theorem Consistent.takeDirty (h : buffer.Consistent) : buffer.takeDirty.2.Consistent := by
  intro index
  have hMark : buffer.takeDirty.2.isPending index =
      if index ∈ buffer.dirty.toList then false else buffer.isPending index :=
    get_foldl_set (fun _ => false) buffer.dirty.toList buffer.pending index
  have hEmpty : buffer.takeDirty.2.dirty = #[] := rfl
  rw [hMark, hEmpty]
  split
  next => simp
  next hClean =>
    rw [Array.mem_toList_iff, ← h index] at hClean
    simpa using hClean

end

variable {calls : List Call} {viewing : Viewing}

/-- A call to paint adds its pixel, also if that has been painted before. -/
theorem painted_paint (calls : List Call) (address : Address) (value : Byte) :
    painted (calls ++ [.paint address value]) = painted calls ++ [.ofAddress address] := by
  rw [painted, recent_concat_of_some Call.stroke? calls rfl, List.map_append]
  rfl

theorem painted_takeDirty (calls : List Call) : painted (calls ++ [.takeDirty]) = [] := by
  rw [painted, recent_concat_of_none Call.stroke? calls rfl, List.map_nil]

/-- The last stroke counts for its pixel. -/
theorem lastByte?_paint (calls : List Call) (address : Address) (value : Byte)
    (index : PixelIndex) : lastByte? (calls ++ [.paint address value]) index =
      if index = .ofAddress address then some value else lastByte? calls index := by
  by_cases h : index = .ofAddress address
  · simp [lastByte?, Call.stroke?, h]
  · simp [lastByte?, Call.stroke?, h, Ne.symm h]

theorem lastByte?_takeDirty (calls : List Call) (index : PixelIndex) :
    lastByte? (calls ++ [.takeDirty]) index = lastByte? calls index := by
  rw [lastByte?, List.filterMap_append]
  simp only [List.filterMap_cons, Call.stroke?, List.filterMap_nil, List.append_nil]
  rfl

/-- What a picture and its renderer have kept of a series of calls. -/
structure Kept (calls : List Call) (viewing : Viewing) : Prop where
  consistent : viewing.buffer.Consistent
  dirty : viewing.buffer.dirty.toList = (painted calls).eraseDups
  pixel : ∀ index, viewing.buffer.pixel index = (lastByte? calls index).getD 0
  shown : ∀ index : PixelIndex, index ∉ viewing.buffer.dirty →
    viewing.shown.get index = viewing.buffer.pixel index

theorem kept_blank : Kept [] .blank where
  consistent := consistent_blank
  dirty := rfl
  pixel := pixel_blank
  shown := fun _ _ => rfl

/-- Just the pixels that were painted since the list was last taken are on it. -/
theorem Kept.mem_dirty (h : Kept calls viewing) {index : PixelIndex} :
    index ∈ viewing.buffer.dirty ↔ index ∈ painted calls := by
  rw [← Array.mem_toList_iff, h.dirty, List.mem_eraseDups]

/-- Painting keeps it all. The pixel is listed from now on, so the renderer may be behind on it. -/
theorem Kept.paint (h : Kept calls viewing) (address : Address) (value : Byte) :
    Kept (calls ++ [.paint address value]) (viewing.meet (.paint address value)) where
  consistent := h.consistent.set _ value
  dirty := by
    show (viewing.buffer.set (.ofAddress address) value).dirty.toList = _
    rw [h.consistent.dirty_set, painted_paint, eraseDups_concat, ← h.dirty]
    simp only [h.mem_dirty]
    split
    · rfl
    · exact Array.toList_push
  pixel := by
    intro index
    show (viewing.buffer.set (.ofAddress address) value).pixel index = _
    rw [pixel_set, lastByte?_paint, h.pixel]
    split <;> rfl
  shown := by
    intro index hClean
    show viewing.shown.get index = (viewing.buffer.set (.ofAddress address) value).pixel index
    obtain ⟨hBefore, hOther⟩ := not_or.mp (mt (h.consistent.mem_dirty_set value).mpr hClean)
    rw [pixel_set, if_neg hOther, h.shown index hBefore]

/-- The renderer has caught up. -/
theorem Kept.shown_takeDirty (h : Kept calls viewing) :
    (viewing.meet .takeDirty).shown = viewing.buffer.pixels := by
  refine Vector.ext fun i hi => ?_
  have hRepainted := get_foldl_set viewing.buffer.pixel viewing.buffer.dirty.toList
    viewing.shown ⟨i, hi⟩
  refine hRepainted.trans ?_
  split
  next => rfl
  next hClean => exact h.shown ⟨i, hi⟩ (mt Array.mem_toList_iff.mpr hClean)

/-- Taking the list keeps it all. Nothing is listed any more, and the renderer is behind on no
pixel. -/
theorem Kept.takeDirty (h : Kept calls viewing) :
    Kept (calls ++ [.takeDirty]) (viewing.meet .takeDirty) where
  consistent := h.consistent.takeDirty
  dirty := by
    rw [painted_takeDirty]
    rfl
  pixel := by
    intro index
    rw [lastByte?_takeDirty]
    exact h.pixel index
  shown := by
    intro index _
    rw [h.shown_takeDirty]
    rfl

/-- Any series of calls is kept, by induction from call to call. -/
theorem kept_of_calls (calls : List Call) : Kept calls (calls.foldl Viewing.meet .blank) := by
  induction calls using List.reverseRecOn with
  | nil => exact kept_blank
  | append_singleton calls call ih =>
      rw [List.foldl_append]
      cases call with
      | paint address value => exact ih.paint address value
      | takeDirty => exact ih.takeDirty

/-- After any series of calls, the list that is handed out has the pixels that were painted since
the list was last taken, each of them once and in the order in which they were first painted. The
marks are on the listed pixels. Every pixel has the byte that it was painted with last, and zero if
it never was; and a renderer that has repainted the listed pixels, now and every time before, shows
the picture. -/
theorem takeDirty_of_calls (calls : List Call) :
    let viewing := calls.foldl Viewing.meet .blank
    let buffer := viewing.buffer
    let dirty := buffer.takeDirty.1
    dirty = (painted calls).eraseDups ∧ dirty.Nodup ∧ dirty.length ≤ windowSize ∧
      (∀ index, buffer.isPending index = true ↔ index ∈ buffer.dirty) ∧
      (∀ index, buffer.pixel index = (lastByte? calls index).getD 0) ∧
      (viewing.meet .takeDirty).shown = buffer.pixels := by
  intro viewing buffer dirty
  have hKept := kept_of_calls calls
  have hDirty : dirty = (painted calls).eraseDups := hKept.dirty
  have hNodup : dirty.Nodup := hDirty ▸ nodup_eraseDups (painted calls)
  have hLength : dirty.length ≤ Fintype.card PixelIndex := hNodup.length_le_card
  rw [Fintype.card_fin] at hLength
  exact ⟨hDirty, hNodup, hLength, hKept.consistent, hKept.pixel, hKept.shown_takeDirty⟩

/-- Two addresses of one pixel, and another pixel after the list has been taken. -/
example :
    let calls : List Call := [.paint 0xFC05 1, .paint 0xFC07 2, .paint 0x0005 3]
    let viewing := calls.foldl Viewing.meet .blank
    viewing.buffer.takeDirty.1 = [5, 7] ∧ viewing.buffer.pixel 5 = 3 ∧
      ((viewing.meet .takeDirty).meet (.paint 0xFC07 4)).buffer.takeDirty.1 = [7] := by
  decide +kernel

end Framebuffer
end Micro6502
