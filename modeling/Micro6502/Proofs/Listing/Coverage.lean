import Mathlib.Data.List.Chain
import Micro6502.Proofs.Listing.Walk
import Micro6502.Proofs.Machine.Load
import Micro6502.Proofs.Text.Numeral

/-! What a listing covers. The instructions of a listing lie in memory one behind the other and
so do the rows of a dump; both go on to the top of memory unless they reach their limit, and a
listing may be cut at any instruction and taken up again there. -/

namespace Micro6502

namespace Bus

variable {β : Type} [Bus β]

/-- The bytes do not change when they are read: whatever was read before, a read of an address
yields the byte that the image has there. -/
def Answers (bus : β) (image : Address → Byte) : Prop :=
  ∀ (before : List Address) (address : Address),
    (read (before.foldl (fun bus place => (read bus place).2) bus) address).1 = image address

theorem answers_image (image : Address → Byte) : Answers image image := by
  intro before address
  induction before with
  | nil => rfl
  | cons place rest ih => exact ih

namespace Answers

variable {bus : β} {image : Address → Byte}

theorem byte (h : Answers bus image) (address : Address) : (read bus address).1 = image address :=
  h [] address

/-- A bus that has been read answers as before. -/
theorem afterRead (h : Answers bus image) (address : Address) :
    Answers (read bus address).2 image :=
  fun before => h (address :: before)

theorem readBytes (h : Answers bus image) (address : Address) (count : Nat) :
    (Bus.readBytes bus address count).1 =
        (List.range count).map (fun offset => image (address + .ofNat offset)) ∧
      Answers (Bus.readBytes bus address count).2 image := by
  induction count generalizing bus address with
  | zero => exact ⟨rfl, h⟩
  | succ count ih =>
      obtain ⟨hBytes, hAfter⟩ := ih (h.afterRead address) (address + 1)
      refine ⟨?_, hAfter⟩
      simp only [Memory.add_one_add_ofNat] at hBytes
      rw [Bus.readBytes, List.range_succ_eq_map]
      simp [hBytes, h.byte, Function.comp_def]

/-- The listing shows the image: the opcode and both of the following bytes, wrapped at the top of
memory. -/
theorem decodeAt (h : Answers bus image) (address : Address) :
    (Listing.decodeAt bus address).1 = {
      address
      descriptor := Catalog.decode (image address)
      operand := { first := image (address + 1), second := image (address + 2) } } ∧
      Answers (Listing.decodeAt bus address).2 image := by
  have hFirst := h.afterRead address
  have hSecond := hFirst.afterRead (address + 1)
  refine ⟨?_, hSecond.afterRead (address + 2)⟩
  rw [← h.byte address, ← hFirst.byte (address + 1), ← hSecond.byte (address + 2)]
  rfl

end Answers
end Bus

namespace Listing

open Text

/-- Where the next instruction starts, behind instructions of which the first starts at `place`. -/
def nextPlace (place : Nat) (listing : List Instruction) : Nat :=
  match listing.getLast? with
  | none => place
  | some last => last.address.toNat + last.size

@[simp] theorem nextPlace_nil (place : Nat) : nextPlace place [] = place := rfl

/-- Behind a first instruction, the rest is a listing from where that one ends. -/
theorem nextPlace_cons (place : Nat) (first : Instruction) (rest : List Instruction) :
    nextPlace place (first :: rest) = nextPlace (first.address.toNat + first.size) rest := by
  cases rest with
  | nil => rfl
  | cons second others => rfl

/-- What a listing of at most `limit` instructions from `place` onwards is, where memory has these
bytes. Places are numbers here, so none of them has wrapped. -/
structure Sweeps (image : Address → Byte) (place limit : Nat) (listing : List Instruction) :
    Prop where
  length_le : listing.length ≤ limit
  first : ∀ i ∈ listing.head?, i.address.toNat = place
  adjoin : listing.IsChain fun i j => j.address.toNat = i.address.toNat + i.size
  inside : ∀ i ∈ listing, place ≤ i.address.toNat ∧ i.address.toNat ≤ 0xFFFF
  descriptor : ∀ i ∈ listing, i.descriptor = Catalog.decode (image i.address)
  operand : ∀ i ∈ listing, i.operand = ⟨image (i.address + 1), image (i.address + 2)⟩
  full : listing.length < limit → 0xFFFF < nextPlace place listing

section

variable {image : Address → Byte} {place limit : Nat}

/-- An empty listing is right if none was asked for or if there is no place in memory. -/
theorem sweeps_nil (h : 0 < limit → 0xFFFF < place) : Sweeps image place limit [] where
  length_le := Nat.zero_le _
  first := by simp
  adjoin := .nil
  inside := by simp
  descriptor := by simp
  operand := by simp
  full := h

/-- An instruction in front of a listing that starts where the instruction ends. -/
theorem Sweeps.cons {i : Instruction} {rest : List Instruction} (hAddress : i.address.toNat = place)
    (hDescriptor : i.descriptor = Catalog.decode (image i.address))
    (hOperand : i.operand = ⟨image (i.address + 1), image (i.address + 2)⟩)
    (h : Sweeps image (place + i.size) limit rest) :
    Sweeps image place (limit + 1) (i :: rest) where
  length_le := Nat.succ_le_succ h.length_le
  first := by simpa using hAddress
  adjoin := List.isChain_cons.mpr ⟨fun j hj => hAddress ▸ h.first j hj, h.adjoin⟩
  inside := List.forall_mem_cons.mpr
    ⟨⟨hAddress.ge, Nat.le_of_lt_succ i.address.toNat_lt⟩,
      fun j hj => (h.inside j hj).imp (Nat.le_trans (Nat.le_add_right place i.size)) id⟩
  descriptor := List.forall_mem_cons.mpr ⟨hDescriptor, h.descriptor⟩
  operand := List.forall_mem_cons.mpr ⟨hOperand, h.operand⟩
  full := by
    intro hLength
    rw [nextPlace_cons, hAddress]
    exact h.full (Nat.lt_of_succ_lt_succ hLength)

end

section

variable {β γ : Type} [Bus β] [Bus γ] {bus : β} {other : γ} {image : Address → Byte}

/-- The listing follows its specification, by induction on the limit and from each instruction to
the next. -/
theorem sweeps_disassembleFrom (h : Bus.Answers bus image) (place limit : Nat) :
    Sweeps image place limit (disassembleFrom place bus limit).1 := by
  induction limit generalizing place bus with
  | zero => exact sweeps_nil fun hLimit => absurd hLimit (Nat.lt_irrefl 0)
  | succ limit ih =>
      rcases Nat.lt_or_ge place 0x10000 with hPlace | hPlace
      · obtain ⟨hFirst, hAfter⟩ := h.decodeAt (.ofNat place)
        have hAddress : (UInt16.ofNat place).toNat = place := by
          rw [UInt16.toNat_ofNat', Nat.mod_eq_of_lt hPlace]
        have hRest := ih hAfter (place + (decodeAt bus (.ofNat place)).1.size)
        rw [disassembleFrom_succ hPlace]
        rw [hFirst] at hRest ⊢
        exact hRest.cons hAddress rfl rfl
      · rw [disassembleFrom_of_le hPlace]
        exact sweeps_nil fun _ => hPlace

/-- Listings of the same bytes are the same. -/
theorem disassembleFrom_congr (h : Bus.Answers bus image) (hOther : Bus.Answers other image)
    (place limit : Nat) :
    (disassembleFrom place bus limit).1 = (disassembleFrom place other limit).1 := by
  induction limit generalizing place bus other with
  | zero => rfl
  | succ limit ih =>
      rcases Nat.lt_or_ge place 0x10000 with hPlace | hPlace
      · obtain ⟨hFirst, hAfter⟩ := h.decodeAt (.ofNat place)
        obtain ⟨hSame, hOtherAfter⟩ := hOther.decodeAt (.ofNat place)
        rw [disassembleFrom_succ hPlace, disassembleFrom_succ hPlace, hFirst, hSame,
          ih hAfter hOtherAfter]
      · rw [disassembleFrom_of_le hPlace, disassembleFrom_of_le hPlace]

/-- A longer listing begins with a shorter one, and goes on where that one ends. -/
theorem disassembleFrom_add (h : Bus.Answers bus image) (place limit more : Nat) :
    (disassembleFrom place bus (limit + more)).1 =
      (disassembleFrom place bus limit).1 ++
        (disassembleFrom (nextPlace place (disassembleFrom place bus limit).1) bus more).1 := by
  induction limit generalizing place bus with
  | zero => rw [Nat.zero_add]; rfl
  | succ limit ih =>
      rcases Nat.lt_or_ge place 0x10000 with hPlace | hPlace
      · obtain ⟨hFirst, hAfter⟩ := h.decodeAt (.ofNat place)
        have hAddress : (decodeAt bus (.ofNat place)).1.address.toNat = place := by
          rw [address_decodeAt, UInt16.toNat_ofNat', Nat.mod_eq_of_lt hPlace]
        -- The bus behind the first part has been read from, and lists the rest as it would before.
        rw [Nat.add_right_comm, disassembleFrom_succ hPlace, disassembleFrom_succ hPlace,
          ih hAfter, disassembleFrom_congr hAfter h _ more, nextPlace_cons, hAddress,
          List.cons_append]
      · rw [disassembleFrom_of_le hPlace, disassembleFrom_of_le hPlace, nextPlace_nil,
          disassembleFrom_of_le hPlace, List.append_nil]

end

/-- The row of a dump that starts at `place`. The bytes behind the top of memory are those at its
bottom. -/
def row (image : Address → Byte) (place : Nat) : Text :=
  formatRow (.ofNat place) ((List.range 8).map fun offset => image (.ofNat (place + offset)))

section

variable {β : Type} [Bus β] {bus : β} {image : Address → Byte}

/-- The rows of a dump start eight bytes apart. There are as many as were asked for, or as it
takes to reach the top of memory. -/
theorem rowsFrom_eq (h : Bus.Answers bus image) (place limit : Nat) :
    (rowsFrom place bus limit).1 =
      (List.range (min limit ((0x10000 - place + 7) / 8))).map
        fun i => row image (place + 8 * i) := by
  induction limit generalizing place bus with
  | zero => simp [rowsFrom]
  | succ limit ih =>
      rw [rowsFrom]
      split
      next hPlace =>
        obtain ⟨hBytes, hAfter⟩ := h.readBytes (.ofNat place) rowBytes
        have hRow : formatRow (.ofNat place) (Bus.readBytes bus (.ofNat place) rowBytes).1 =
            row image place := by
          simp only [hBytes, row, UInt16.ofNat_add]
          rfl
        have hCount : min (limit + 1) ((0x10000 - place + 7) / 8) =
            min limit ((0x10000 - (place + rowBytes) + 7) / 8) + 1 := by
          rw [rowBytes]
          omega
        have hPlaces : ∀ i, place + rowBytes + 8 * i = place + 8 * (i + 1) := by
          intro i
          rw [rowBytes]
          omega
        rw [hCount, List.range_succ_eq_map]
        simp only [hRow, ih hAfter, hPlaces, List.map_cons, List.map_map, Function.comp_def,
          Nat.mul_zero, Nat.add_zero]
      next hPlace =>
        have hCount : min (limit + 1) ((0x10000 - place + 7) / 8) = 0 := by omega
        rw [hCount]
        rfl

end

/-- The characters of a row. A line break is none of them. -/
theorem row_subset (image : Address → Byte) (place : Nat) :
    row image place ⊆ '$' :: ':' :: ' ' :: hexDigits := by
  have hDigits : hexDigits ⊆ '$' :: ':' :: ' ' :: hexDigits :=
    List.subset_append_right "$: ".toList _
  refine List.append_subset.mpr ⟨List.append_subset.mpr ⟨?_, ?_⟩, joinWith_subset ?_ ?_⟩
  · exact List.cons_subset.mpr
      ⟨List.mem_cons_self, List.Subset.trans (hexWord_subset _) hDigits⟩
  · exact List.all_iff_forall_prop.mp (by decide)
  · exact List.all_iff_forall_prop.mp (by decide)
  · intro piece hPiece
    obtain ⟨byte, -, rfl⟩ := List.mem_map.mp hPiece
    exact List.Subset.trans (hexByte_subset byte) hDigits

/-- A listing lies in memory without gaps, without overlaps and within bounds: each instruction
starts where the one before it ends, it is what decoding yields there, and there are as many as
were asked for unless the next one would start beyond the top of memory. A longer listing goes on
from that next place. The rows of a dump start eight bytes apart, up to the top of memory. -/
theorem listings_cover {β : Type} [Bus β] {bus : β} {image : Address → Byte}
    (h : Bus.Answers bus image) (start : Address) (limit more : Nat) :
    let listing := (disassemble bus start limit).1
    let next := nextPlace start.toNat listing
    let rows := (List.range (min limit ((0x10000 - start.toNat + 7) / 8))).map fun i =>
      row image (start.toNat + 8 * i)
    Sweeps image start.toNat limit listing ∧ (0 < limit → listing ≠ []) ∧
      (disassemble bus start (limit + more)).1 =
        listing ++ (if next ≤ 0xFFFF then (disassemble bus (.ofNat next) more).1 else []) ∧
      (dump bus start limit).1 = joinWith lineBreak rows ∧
      ∀ row ∈ rows, ∀ c ∈ lineBreak, c ∉ row := by
  intro listing next rows
  have hSweeps : Sweeps image start.toNat limit listing := sweeps_disassembleFrom h _ _
  have hAdd : (disassemble bus start (limit + more)).1 =
      listing ++ (disassembleFrom next bus more).1 := disassembleFrom_add h start.toNat limit more
  refine ⟨hSweeps, fun hLimit hNone => ?_, ?_, ?_, fun row hRow c hBreak hMem => ?_⟩
  · have hFull := hSweeps.full (by rwa [hNone])
    rw [hNone, nextPlace_nil] at hFull
    exact absurd start.toNat_lt (Nat.not_lt.mpr hFull)
  · rw [hAdd]
    split
    next hNext => rw [disassemble, UInt16.toNat_ofNat', Nat.mod_eq_of_lt (Nat.lt_succ_of_le hNext)]
    next hNext => rw [disassembleFrom_of_le (Nat.lt_of_not_le hNext)]
  · exact congrArg (joinWith lineBreak) (rowsFrom_eq h start.toNat limit)
  · obtain ⟨i, -, rfl⟩ := List.mem_map.mp hRow
    have hOther : ∀ c ∈ lineBreak, c ∉ '$' :: ':' :: ' ' :: hexDigits :=
      List.all_iff_forall_prop.mp (by decide)
    exact hOther c hBreak (row_subset image _ hMem)

/-- A listing that is cut in front of an instruction that lies across the top of memory, and a row
that goes around it. -/
theorem listings_cover_top :
    ∃ image : Address → Byte, Bus.Answers image image ∧
      (disassemble image 0xFFFD 1).1.map Instruction.display = ["$FFFD: LDA #$05".toList] ∧
      Sweeps image 0xFFFD 1 (disassemble image 0xFFFD 1).1 ∧
      (disassemble image 0xFFFD 5).1 =
        (disassemble image 0xFFFD 1).1 ++ (disassemble image 0xFFFF 4).1 ∧
      (disassemble image 0xFFFF 4).1.map Instruction.display = ["$FFFF: JMP ($1234)".toList] ∧
      (dump image 0xFFFD 5).1 = "$FFFD: A9 05 6C 34 12 00 00 00".toList := by
  let image : Address → Byte :=
    Bus.writeBytes (fun _ => (0 : Byte)) 0xFFFD [0xA9, 0x05, 0x6C, 0x34, 0x12]
  obtain ⟨hSweeps, -, hAdd, -⟩ := listings_cover (Bus.answers_image image) 0xFFFD 1 4
  obtain ⟨-, -, -, hDump, -⟩ := listings_cover (Bus.answers_image image) 0xFFFD 5 0
  refine ⟨image, Bus.answers_image image, by decide +kernel, hSweeps, ?_, by decide +kernel, ?_⟩
  · have hNext : nextPlace 0xFFFD (disassemble image 0xFFFD 1).1 = 0xFFFF := by decide +kernel
    simpa [hNext] using hAdd
  · rw [hDump]
    decide +kernel

end Listing
end Micro6502
