import Mathlib.Data.List.Forall2
import Micro6502.Proofs.Text.Basic
import Micro6502.Proofs.Text.Value

/-! Texts that are cut into pieces, and the pieces read as numbers. It makes no difference to them
whether the text has been put in capitals and trimmed before it is cut, or whether this is done to
each piece afterwards. -/

namespace Micro6502.Text

/-- What holds of the characters of ASCII and of all that are not letters holds of every one. -/
theorem forall_of_ascii {p : Char → Prop} (hAscii : ∀ code < 128, p (Char.ofNat code))
    (hOther : ∀ c : Char, c.toUpper = c → p c) (c : Char) : p c := by
  by_cases h : c.toNat < 128
  · have hChar := hAscii c.toNat h
    rwa [Char.ofNat_toNat] at hChar
  · refine hOther c (dif_neg ?_)
    rintro ⟨-, hHigh⟩
    have hHigh : c.toNat ≤ 122 := hHigh
    omega

/-- Putting a text in capitals neither makes a blank nor takes one away. -/
theorem isBlank_toUpper (c : Char) : isBlank c.toUpper = isBlank c :=
  forall_of_ascii (p := fun c => isBlank c.toUpper = isBlank c) (by decide)
    (fun _ h => by rw [h]) c

/-- The digits above nine count the same in both cases. -/
theorem Radix.digit?_toUpper (radix : Radix) (c : Char) :
    radix.digit? c.toUpper = radix.digit? c :=
  forall_of_ascii (p := fun c => radix.digit? c.toUpper = radix.digit? c)
    (by cases radix <;> decide) (fun _ h => by rw [h]) c

/-- The marks that a line of source is searched for. -/
def marks : Text := ";:=,$".toList

/-- Marks are no letters. -/
theorem toUpper_eq_iff {mark : Char} (hMark : mark ∈ marks) (c : Char) :
    c.toUpper = mark ↔ c = mark := by
  have hAscii : ∀ code < 128,
      marks.all (fun mark => (Char.ofNat code).toUpper = mark ↔ Char.ofNat code = mark) = true := by
    decide
  have hAll : ∀ mark ∈ marks, c.toUpper = mark ↔ c = mark :=
    forall_of_ascii (p := fun c => ∀ mark ∈ marks, c.toUpper = mark ↔ c = mark)
      (fun code hCode => List.all_iff_forall_prop.mp (hAscii code hCode))
      (fun _ h _ _ => by rw [h]) c
  exact hAll mark hMark

theorem mem_upper_iff {mark : Char} (hMark : mark ∈ marks) {text : Text} :
    mark ∈ upper text ↔ mark ∈ text := by
  simp [upper, List.mem_map, toUpper_eq_iff hMark]

/-- Blanks stay blanks in capitals, so it does not matter which is done first. -/
theorem trim_upper (text : Text) : trim (upper text) = upper (trim text) := by
  have hBlank : isBlank ∘ Char.toUpper = isBlank := funext isBlank_toUpper
  simp only [trim, trimStart, trimEnd, upper, List.dropWhile_map, ← List.map_reverse, hBlank]

theorem Radix.value?_upper (radix : Radix) (digits : Text) :
    radix.value? (upper digits) = radix.value? digits := by
  have hDigit : radix.digit? ∘ Char.toUpper = radix.digit? := funext radix.digit?_toUpper
  simp only [value?, upper, List.map_eq_nil_iff, List.mapM_map, hDigit]

/-- A number is read in either case. -/
theorem readMarked?_upper (text : Text) : readMarked? (upper text) = readMarked? text := by
  have hRead : ∀ (radix : Radix) (digits : Text), radix.read? (upper digits) = radix.read? digits :=
    fun radix digits => by rw [Radix.read?_eq_min, Radix.read?_eq_min, Radix.value?_upper]
  cases text with
  | nil => rfl
  | cons c rest =>
      have hCons : upper (c :: rest) = c.toUpper :: upper rest := rfl
      have hDecimal := hRead .decimal (c :: rest)
      simp only [readMarked?, hCons, after?, toUpper_eq_iff (by decide : '$' ∈ marks)] at hDecimal ⊢
      by_cases hMark : c = '$'
      · simp only [hMark, if_true]
        exact hRead .hex rest
      · simpa only [hMark, if_false] using hDecimal

theorem fields_cons_self (separator : Char) (text : Text) :
    fields separator (separator :: text) = [] :: fields separator text :=
  if_pos rfl

/-- Any other character goes to the first piece, for there is always one. -/
theorem fields_cons {separator c : Char} (h : c ≠ separator) (text : Text) :
    ∃ piece others, fields separator text = piece :: others ∧
      fields separator (c :: text) = (c :: piece) :: others := by
  have hStep : fields separator (c :: text) = consPiece separator c (fields separator text) := rfl
  have hSome : fields separator text ≠ [] := by
    cases text with
    | nil => exact List.cons_ne_nil _ _
    | cons d rest =>
        show consPiece separator d (fields separator rest) ≠ []
        unfold consPiece
        split
        · exact List.cons_ne_nil _ _
        · split <;> exact List.cons_ne_nil _ _
  obtain ⟨piece, others, hPieces⟩ := List.exists_cons_of_ne_nil hSome
  rw [hStep, hPieces]
  exact ⟨piece, others, rfl, if_neg h⟩

/-- Cutting a text is the splitting of lists at each separator, so its laws hold of pieces, too. -/
theorem fields_eq_splitOn (separator : Char) (text : Text) :
    fields separator text = text.splitOn separator := by
  induction text with
  | nil =>
      rw [List.splitOn_nil]
      rfl
  | cons c rest ih =>
      rw [List.splitOn_cons_eq_if_modifyHead, ← ih]
      by_cases h : c = separator
      · rw [h, fields_cons_self, beq_self_eq_true, if_pos rfl]
      · obtain ⟨piece, others, hPieces, hStep⟩ := fields_cons h rest
        rw [hStep, hPieces, if_neg (by simpa using h), List.modifyHead_cons]

/-- No separator is a letter, so a text in capitals is cut at the same places. -/
theorem fields_upper {separator : Char} (hMark : separator ∈ marks) (text : Text) :
    fields separator (upper text) = (fields separator text).map upper := by
  have hCons : ∀ (c : Char) (rest : Text), upper (c :: rest) = c.toUpper :: upper rest :=
    fun _ _ => rfl
  induction text with
  | nil => rfl
  | cons c rest ih =>
      rw [hCons]
      by_cases h : c = separator
      · rw [(toUpper_eq_iff hMark c).mpr h, h, fields_cons_self, fields_cons_self, ih]
        rfl
      · obtain ⟨piece, others, hPieces, hStep⟩ := fields_cons h rest
        obtain ⟨front, last, hUpper, hUpperStep⟩ :=
          fields_cons (fun hSame => h ((toUpper_eq_iff hMark c).mp hSame)) (upper rest)
        rw [ih, hPieces, List.map_cons] at hUpper
        obtain ⟨rfl, rfl⟩ := List.cons.inj hUpper
        rw [hUpperStep, hStep]
        rfl

section

variable {separator : Char} (hSeparator : isBlank separator = false)

include hSeparator

/-- Blanks in front of a text are blanks in front of its first piece. -/
theorem map_trim_fields_blank_append {front : Text} (h : Blank front) (text : Text) :
    (fields separator (front ++ text)).map trim = (fields separator text).map trim := by
  induction front with
  | nil => rfl
  | cons c front ih =>
      obtain ⟨hFirst, hFront⟩ := List.forall_mem_cons.mp h
      have hOther : c ≠ separator := by
        rintro rfl
        cases hFirst.symm.trans hSeparator
      obtain ⟨piece, others, hPieces, hStep⟩ := fields_cons hOther (front ++ text)
      rw [← ih hFront, List.cons_append, hStep, hPieces, List.map_cons, List.map_cons,
        trim_cons_blank hFirst]

/-- Blanks at the end of a text are blanks at the ends of its pieces. -/
theorem forall₂_fields_append_blank {back : Text} (h : Blank back) (text : Text) :
    List.Forall₂ (fun piece padded => ∃ rest, Blank rest ∧ padded = piece ++ rest)
      (fields separator text) (fields separator (text ++ back)) := by
  have hNil : Blank [] := List.forall_mem_nil _
  -- That the pieces are equal when they are trimmed would not be kept by a character in front.
  induction text with
  | nil =>
      rw [List.nil_append, fields_eq_singleton (h.notMem hSeparator)]
      exact .cons ⟨back, h, rfl⟩ .nil
  | cons c text ih =>
      by_cases hSame : c = separator
      · rw [hSame, List.cons_append, fields_cons_self, fields_cons_self]
        exact .cons ⟨[], hNil, rfl⟩ ih
      · obtain ⟨piece, others, hPieces, hStep⟩ := fields_cons hSame text
        obtain ⟨padded, last, hPadded, hPaddedStep⟩ := fields_cons hSame (text ++ back)
        rw [hPieces, hPadded] at ih
        obtain ⟨⟨rest, hRest, rfl⟩, hOthers⟩ := List.forall₂_cons.mp ih
        rw [List.cons_append, hStep, hPaddedStep]
        exact .cons ⟨rest, hRest, rfl⟩ hOthers

/-- Trimming a text does nothing that is not done by trimming its pieces. -/
theorem map_trim_fields_trim (text : Text) :
    (fields separator (trim text)).map trim = (fields separator text).map trim := by
  obtain ⟨front, back, hFront, hBack, hText⟩ := exists_trim text
  have hPieces : List.Forall₂ (fun piece padded => trim piece = trim padded)
      (fields separator (front ++ trim text)) (fields separator (front ++ trim text ++ back)) := by
    refine (forall₂_fields_append_blank hSeparator hBack _).imp ?_
    rintro piece _ ⟨rest, hRest, rfl⟩
    exact (trim_append_blank hRest piece).symm
  have hTrimmed : (fields separator (front ++ trim text)).map trim =
      (fields separator (front ++ trim text ++ back)).map trim := by
    rw [← List.forall₂_eq_eq_eq, List.forall₂_map_left_iff, List.forall₂_map_right_iff]
    exact hPieces
  rw [← map_trim_fields_blank_append hSeparator hFront, hTrimmed, ← hText]

end

end Micro6502.Text
