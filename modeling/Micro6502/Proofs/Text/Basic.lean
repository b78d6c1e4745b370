import Mathlib.Data.Bool.AllAny
import Mathlib.Data.List.TakeWhile
import Micro6502.Text.Basic

/-! Texts that reading leaves alone: nothing is trimmed where no blank stands at an end, and
lines that have been joined come apart again. Blanks that have been put around a text are not
seen. -/

namespace Micro6502.Text

/-- No character of the text is a blank. -/
def Solid (text : Text) : Prop := ∀ c ∈ text, isBlank c = false

instance (text : Text) : Decidable (Solid text) := List.decidableBAll _ text

theorem Solid.append {front back : Text} (hFront : Solid front) (hBack : Solid back) :
    Solid (front ++ back) :=
  List.forall_mem_append.mpr ⟨hFront, hBack⟩

/-- Nothing comes off in front of a text that does not start with a blank. -/
theorem trimStart_eq_self {text : Text} (h : ∀ c ∈ text.head?, isBlank c = false) :
    trimStart text = text := by
  cases text with
  | nil => rfl
  | cons c rest => exact List.dropWhile_cons_of_neg (by simpa using h c rfl)

/-- A text keeps its blanks inside. Only those at its two ends would come off. -/
theorem trim_eq_self {text : Text} (hFront : ∀ c ∈ text.head?, isBlank c = false)
    (hBack : ∀ c ∈ text.getLast?, isBlank c = false) : trim text = text := by
  have hReverse : trimStart text.reverse = text.reverse :=
    trimStart_eq_self (by rwa [List.head?_reverse])
  calc trim text
      = (trimStart text.reverse).reverse := by rw [trim, trimStart_eq_self hFront]; rfl
    _ = text := by rw [hReverse, List.reverse_reverse]

/-- A text without blanks is left alone. -/
theorem Solid.trim_eq {text : Text} (h : Solid text) : trim text = text :=
  trim_eq_self (fun c hFirst => h c (List.mem_of_mem_head? hFirst))
    (fun c hLast => h c (List.mem_of_mem_getLast? hLast))

/-- Blanks in front of a text come off, whatever follows them. -/
theorem trim_cons_blank {c : Char} (h : isBlank c = true) (text : Text) :
    trim (c :: text) = trim text := by
  rw [trim, trimStart, List.dropWhile_cons_of_pos h]
  rfl

/-- All characters of the text are blanks. -/
def Blank (text : Text) : Prop := ∀ c ∈ text, isBlank c = true

instance (text : Text) : Decidable (Blank text) := List.decidableBAll _ text

theorem Blank.append {front back : Text} (hFront : Blank front) (hBack : Blank back) :
    Blank (front ++ back) :=
  List.forall_mem_append.mpr ⟨hFront, hBack⟩

theorem trim_blank_append {front : Text} (h : Blank front) (text : Text) :
    trim (front ++ text) = trim text := by
  rw [trim, trim, trimStart, List.dropWhile_append_of_pos h]
  rfl

/-- Blanks behind a text come off, also if it ends with blanks of its own. -/
theorem trimEnd_append_blank {back : Text} (h : Blank back) (text : Text) :
    trimEnd (text ++ back) = trimEnd text := by
  have hBack : ∀ c ∈ back.reverse, isBlank c = true := fun c hc => h c (List.mem_reverse.mp hc)
  rw [trimEnd, trimEnd, List.reverse_append, List.dropWhile_append_of_pos hBack]

/-- Blanks behind a text come off. Where the text itself is all blanks, they come off in front. -/
theorem trim_append_blank {back : Text} (h : Blank back) (text : Text) :
    trim (text ++ back) = trim text := by
  by_cases hText : (text.dropWhile isBlank).isEmpty
  · have hNone : back.dropWhile isBlank = [] := List.dropWhile_eq_nil_iff.mpr h
    rw [trim, trim, trimStart, trimStart, List.dropWhile_append, if_pos hText, hNone,
      List.isEmpty_iff.mp hText]
  · rw [trim, trimStart, List.dropWhile_append, if_neg hText]
    exact trimEnd_append_blank h _

theorem exists_trimEnd (text : Text) : ∃ back, Blank back ∧ text = trimEnd text ++ back := by
  refine ⟨(text.reverse.takeWhile isBlank).reverse,
    fun c hc => List.mem_takeWhile_imp (List.mem_reverse.mp hc), ?_⟩
  rw [trimEnd, ← List.reverse_append, List.takeWhile_append_dropWhile, List.reverse_reverse]

/-- Trimming takes off blanks, and nothing but blanks. -/
theorem exists_trim (text : Text) :
    ∃ front back, Blank front ∧ Blank back ∧ text = front ++ trim text ++ back := by
  obtain ⟨back, hBack, hText⟩ := exists_trimEnd (trimStart text)
  refine ⟨text.takeWhile isBlank, back, fun _ hc => List.mem_takeWhile_imp hc, hBack, ?_⟩
  rw [List.append_assoc, trim, ← hText, trimStart, List.takeWhile_append_dropWhile]

/-- Trimming brings in no new characters. -/
theorem trimEnd_subset (text : Text) : trimEnd text ⊆ text := by
  obtain ⟨back, -, hText⟩ := exists_trimEnd text
  intro c hc
  rw [hText]
  exact List.mem_append_left _ hc

theorem trim_trimEnd (text : Text) : trim (trimEnd text) = trim text := by
  obtain ⟨back, hBack, hText⟩ := exists_trimEnd text
  rw [← trim_append_blank hBack, ← hText]

/-- A text that begins with a word keeps its front. -/
theorem Solid.trim_append {front : Text} (h : Solid front) (hFront : front ≠ []) (text : Text) :
    trim (front ++ text) = front ++ trimEnd text := by
  have hStart : trimStart (front ++ text) = front ++ text := by
    obtain ⟨first, rest, rfl⟩ := List.exists_cons_of_ne_nil hFront
    exact trimStart_eq_self fun c hc => by
      cases hc
      exact h first List.mem_cons_self
  have hEnd : front.reverse.dropWhile isBlank = front.reverse :=
    trimStart_eq_self fun c hc => h c (List.mem_reverse.mp (List.mem_of_mem_head? hc))
  rw [trim, hStart, trimEnd, trimEnd, List.reverse_append, List.dropWhile_append]
  split
  next hNone => rw [hEnd, List.reverse_reverse, List.isEmpty_iff.mp hNone, List.reverse_nil,
    List.append_nil]
  next => rw [List.reverse_append, List.reverse_reverse]

/-- A text that has been trimmed has no blank at either end. -/
theorem trim_trim (text : Text) : trim (trim text) = trim text := by
  obtain ⟨front, back, hFront, hBack, hText⟩ := exists_trim text
  calc trim (trim text)
      = trim (front ++ trim text ++ back) := by
        rw [trim_append_blank hBack, trim_blank_append hFront]
    _ = trim text := by rw [← hText]

/-- What is left of a text without blanks that stands between blanks. -/
theorem Solid.trim_eq_iff {core : Text} (h : Solid core) {text : Text} :
    trim text = core ↔ ∃ front back, Blank front ∧ Blank back ∧ text = front ++ core ++ back := by
  constructor
  · rintro rfl
    exact exists_trim text
  · rintro ⟨front, back, hFront, hBack, rfl⟩
    rw [trim_append_blank hBack, trim_blank_append hFront, h.trim_eq]

theorem length_trim_le (text : Text) : (trim text).length ≤ text.length := by
  obtain ⟨front, back, -, -, hText⟩ := exists_trim text
  have hLength := congrArg List.length hText
  simp only [List.length_append] at hLength
  omega

theorem blank_of_trim_eq_nil {text : Text} (h : trim text = []) : Blank text := by
  obtain ⟨front, back, hFront, hBack, hText⟩ := exists_trim text
  rw [hText, h, List.append_nil]
  exact hFront.append hBack

/-- No blank stands at the end of a text that is left alone. -/
theorem eq_nil_of_trim_append {text back : Text} (h : trim (text ++ back) = text ++ back)
    (hBack : Blank back) : back = [] := by
  have hLength := length_trim_le text
  rw [trim_append_blank hBack] at h
  rw [h, List.length_append] at hLength
  exact List.eq_nil_of_length_eq_zero (by omega)

/-- No blank stands in front of a text that is left alone. -/
theorem eq_nil_of_trim_blank_append {front text : Text}
    (h : trim (front ++ text) = front ++ text) (hFront : Blank front) : front = [] := by
  have hLength := length_trim_le text
  rw [trim_blank_append hFront] at h
  rw [h, List.length_append] at hLength
  exact List.eq_nil_of_length_eq_zero (by omega)

/-- The end of a text that is left alone has no blanks around it but those in front. -/
theorem exists_blank_append {front back : Text} (h : trim (front ++ back) = front ++ back) :
    ∃ w core, Blank w ∧ back = w ++ core ∧ trim back = core := by
  obtain ⟨w, x, hw, hx, hBack⟩ := exists_trim back
  have hText : front ++ back = (front ++ w ++ trim back) ++ x := by
    rw [List.append_assoc, List.append_assoc, ← List.append_assoc w, ← hBack]
  rw [hText] at h
  rw [eq_nil_of_trim_append h hx, List.append_nil] at hBack
  exact ⟨w, trim back, hw, hBack, rfl⟩

theorem Blank.notMem {text : Text} (h : Blank text) {c : Char} (hc : isBlank c = false) :
    c ∉ text := by
  intro hMem
  rw [h c hMem] at hc
  cases hc

/-- A blank is no letter, and it starts no comment. -/
theorem toUpper_of_isBlank {c : Char} (h : isBlank c = true) : c.toUpper = c ∧ c ≠ ';' := by
  constructor
  · apply dif_neg
    rintro ⟨hLow, hHigh⟩
    simp only [isBlank, Bool.or_eq_true, Bool.and_eq_true, decide_eq_true_eq, beq_iff_eq] at h
    have hLow : 97 ≤ c.toNat := hLow
    have hHigh : c.toNat ≤ 122 := hHigh
    omega
  · rintro rfl
    cases h

theorem Blank.upper_eq {text : Text} (h : Blank text) : upper text = text := by
  rw [upper, List.map_congr_left fun c hc => (toUpper_of_isBlank (h c hc)).1, List.map_id']

theorem upper_append (front back : Text) : upper (front ++ back) = upper front ++ upper back :=
  List.map_append

theorem after?_eq_none {c : Char} {text : Text} (h : c ∉ text) : after? c text = none := by
  cases text with
  | nil => rfl
  | cons d rest =>
      rw [List.mem_cons, not_or] at h
      exact if_neg (Ne.symm h.1)

/-- A mark is looked for at the front of the text only, so what follows it is all the rest. -/
theorem eq_cons_of_after? {c : Char} {text rest : Text} (h : after? c text = some rest) :
    text = c :: rest := by
  cases text with
  | nil => cases h
  | cons d tail =>
      rw [after?] at h
      split at h
      next hSame => rw [hSame, Option.some.inj h]
      next => contradiction

theorem fields_eq_singleton {separator : Char} {text : Text} (h : separator ∉ text) :
    fields separator text = [text] := by
  induction text with
  | nil => rfl
  | cons c rest ih =>
      rw [List.mem_cons, not_or] at h
      obtain ⟨hFirst, hRest⟩ := h
      have hTail : rest.foldr (consPiece separator) [[]] = [rest] := ih hRest
      rw [fields, List.foldr_cons, hTail, consPiece, if_neg (Ne.symm hFirst)]

/-- The characters of joined pieces. -/
theorem joinWith_subset {separator alphabet : Text} {pieces : List Text}
    (hSeparator : separator ⊆ alphabet) (h : ∀ piece ∈ pieces, piece ⊆ alphabet) :
    joinWith separator pieces ⊆ alphabet := by
  induction pieces with
  | nil => exact List.nil_subset _
  | cons piece rest ih =>
      obtain ⟨hPiece, hRest⟩ := List.forall_mem_cons.mp h
      cases rest with
      | nil => rwa [joinWith, List.intercalate_singleton]
      | cons next others =>
          rw [joinWith, List.intercalate_cons_cons]
          exact List.append_subset.mpr ⟨List.append_subset.mpr ⟨hPiece, hSeparator⟩, ih hRest⟩

/-- A line that is followed by another one. -/
theorem lines_append {line : Text} (h : '\n' ∉ line) (rest : Text) :
    lines (line ++ '\n' :: rest) = line :: lines rest := by
  induction line with
  | nil => rfl
  | cons c line ih =>
      rw [List.mem_cons, not_or] at h
      obtain ⟨hNewline, hLine⟩ := h
      have hTail : (line ++ '\n' :: rest).foldr (consPiece '\n') [] = line :: lines rest :=
        ih hLine
      rw [lines, List.cons_append, List.foldr_cons, hTail, consPiece, if_neg (Ne.symm hNewline)]

/-- A text without a line break is one line, unless it is empty and has none. -/
theorem lines_singleton {line : Text} (hLine : line ≠ []) (h : '\n' ∉ line) :
    lines line = [line] := by
  induction line with
  | nil => exact absurd rfl hLine
  | cons c rest ih =>
      rw [List.mem_cons, not_or] at h
      obtain ⟨hNewline, hRest⟩ := h
      cases rest with
      | nil => exact if_neg (Ne.symm hNewline)
      | cons d others =>
          have hTail : (d :: others).foldr (consPiece '\n') [] = [d :: others] :=
            ih (List.cons_ne_nil d others) hRest
          rw [lines, List.foldr_cons, hTail, consPiece, if_neg (Ne.symm hNewline)]

/-- Joined lines are read as the lines that they were. An empty line at the end would be lost. -/
theorem lines_joinWith {pieces : List Text}
    (h : ∀ piece ∈ pieces, piece ≠ [] ∧ '\n' ∉ piece) :
    lines (joinWith ['\n'] pieces) = pieces := by
  induction pieces with
  | nil => rfl
  | cons piece rest ih =>
      obtain ⟨hPiece, hNewline⟩ := h piece List.mem_cons_self
      have hRest := ih fun other hOther => h other (List.mem_cons_of_mem _ hOther)
      cases rest with
      | nil =>
          rw [joinWith, List.intercalate_singleton]
          exact lines_singleton hPiece hNewline
      | cons next others =>
          rw [joinWith] at hRest ⊢
          rw [List.intercalate_cons_cons, List.append_assoc, List.singleton_append,
            lines_append hNewline, hRest]

end Micro6502.Text
