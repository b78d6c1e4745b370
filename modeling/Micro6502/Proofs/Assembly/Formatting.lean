import Mathlib.Data.List.Forall2
import Micro6502.Proofs.Text.Basic
import Micro6502.Proofs.Assembly.Renumbering

/-! Formatting. The case of letters, the blanks around a line and the comment at its end are gone
before anything looks at the line, and a line where nothing stands does nothing. So a source may be
laid out at will: what comes of it is the same, up to the numbers of its lines. -/

namespace Micro6502.Assembly

open Text

theorem normalize_blank_append {front : Text} (h : Blank front) (line : Text) :
    normalize (front ++ line) = normalize line := by
  have hPlain : ∀ c ∈ front, decide (c ≠ ';') = true := fun c hc =>
    decide_eq_true (toUpper_of_isBlank (h c hc)).2
  rw [normalize, upper_append, h.upper_eq, List.takeWhile_append_of_pos hPlain,
    trim_blank_append h, normalize]

/-- Blanks behind a line are not seen, also if a comment stands before them. -/
theorem normalize_append_blank {back : Text} (h : Blank back) (line : Text) :
    normalize (line ++ back) = normalize line := by
  have hPlain : back.takeWhile (· ≠ ';') = back :=
    List.takeWhile_eq_self_iff.mpr fun c hc => decide_eq_true (toUpper_of_isBlank (h c hc)).2
  rw [normalize, normalize, upper_append, h.upper_eq, List.takeWhile_append]
  -- The blanks are part of the line, or of a comment that has begun before them.
  split
  next hAll => rw [hPlain, trim_append_blank h, (List.takeWhile_prefix _).eq_of_length hAll]
  next => rfl

theorem normalize_comment (line comment : Text) :
    normalize (line ++ ';' :: comment) = normalize line := by
  have hUpper : upper (line ++ ';' :: comment) = upper line ++ ';' :: upper comment :=
    upper_append line _
  rw [normalize, normalize, hUpper, List.takeWhile_append,
    List.takeWhile_cons_of_neg (by decide), List.append_nil]
  split
  next hAll => rw [(List.takeWhile_prefix _).eq_of_length hAll]
  next => rfl

/-- Lines that differ in the case of letters, in the blanks around them and in their comments. -/
inductive Restyles : Text → Text → Prop
  | recase {line other : Text} (h : upper other = upper line) : Restyles line other
  | pad {front back : Text} (line : Text) (hFront : Blank front) (hBack : Blank back) :
      Restyles line (front ++ line ++ back)
  | comment (line comment : Text) : Restyles line (line ++ ';' :: comment)
  | symm {line other : Text} (h : Restyles line other) : Restyles other line
  | trans {line other last : Text} (h : Restyles line other) (hLast : Restyles other last) :
      Restyles line last

theorem Restyles.normalize_eq {line other : Text} (h : Restyles line other) :
    normalize other = normalize line := by
  induction h with
  | recase h => rw [normalize, h, normalize]
  | pad line hFront hBack => rw [normalize_append_blank hBack, normalize_blank_append hFront]
  | comment line comment => exact normalize_comment line comment
  | symm _ ih => exact ih.symm
  | trans _ _ ih ihLast => exact ihLast.trans ih

/-- Nothing stands on the line but blanks and perhaps a comment. -/
inductive Idle : Text → Prop
  | blank {line : Text} (h : Blank line) : Idle line
  | comment {front : Text} (h : Blank front) (comment : Text) : Idle (front ++ ';' :: comment)

theorem Idle.normalize_eq {line : Text} (h : Idle line) : normalize line = [] := by
  have hBlank : ∀ {text : Text}, Blank text → normalize text = [] := by
    intro text hText
    rw [← List.append_nil text, normalize_blank_append hText]
    rfl
  cases h with
  | blank h => exact hBlank h
  | comment h comment => rw [normalize_comment, hBlank h]

/-- The lines of one source among those of another one, which has more lines where nothing stands.
Both are counted from a number of their own, and `number` takes the count of a line to the count
of the same line in the other source. -/
inductive Reformats (number : Nat → Nat) : Nat → List Text → Nat → List Text → Prop
  | done (line other : Nat) : Reformats number line [] other []
  | keep {line other : Nat} {source moved : Text} {sources others : List Text}
      (hNumber : number line = other) (hStyle : Restyles source moved)
      (hRest : Reformats number (line + 1) sources (other + 1) others) :
      Reformats number line (source :: sources) other (moved :: others)
  | insert {line other : Nat} {moved : Text} {sources others : List Text} (hIdle : Idle moved)
      (hRest : Reformats number line sources (other + 1) others) :
      Reformats number line sources other (moved :: others)

namespace Reformats

variable {number : Nat → Nat}

/-- A pass over the other lines goes along line by line. An idle line between them does nothing
but move the count. -/
theorem addLines_eq {line other : Nat} {sources others : List Text}
    (h : Reformats number line sources other others) (forms? : FormLookup) (layout : Layout) :
    (layout.renumber number).addLines forms? other others =
      renumbered number (Layout.renumber number) (layout.addLines forms? line sources) := by
  induction h generalizing layout with
  | done line other => rfl
  | @keep line other source moved sources others hNumber hStyle _ ih =>
      have hAdd : (layout.renumber number).addLine forms? other moved =
          (layout.addLine forms? line source).map (Layout.renumber number) := by
        rw [← hNumber, Layout.addLine_congr hStyle.normalize_eq, Layout.addLine_renumber]
      rw [Layout.addLines, Layout.addLines, hAdd]
      cases layout.addLine forms? line source with
      | error cause =>
          rw [← hNumber]
          rfl
      | ok next => exact ih next
  | @insert line other moved sources others hIdle _ ih =>
      have hAdd : (layout.renumber number).addLine forms? other moved =
          .ok (layout.renumber number) := Layout.addLine_of_takes (.blank hIdle.normalize_eq)
      rw [Layout.addLines, hAdd]
      exact ih layout

/-- Both passes go along with the other numbers. -/
theorem assemble_eq {source moved : Text}
    (h : Reformats number 1 (lines source) 1 (lines moved)) :
    assemble moved = renumbered number (Program.renumber number) (assemble source) := by
  have hLines := h.addLines_eq Catalog.forMnemonic? {}
  rw [Layout.renumber_empty] at hLines
  rw [assemble_eq_bind, assemble_eq_bind, hLines,
    renumbered_bind number (Layout.close_renumber number),
    renumbered_bind number (Layout.fill_renumber number)]

end Reformats

/-- A source may be written in other case, with other blanks and with other comments, and what
comes of it is the very same, be it a program or a fault. With more lines where nothing stands it
is the same up to the numbers of the lines. -/
theorem assemble_reformatted (source moved : Text) :
    (List.Forall₂ Restyles (lines source) (lines moved) → assemble moved = assemble source) ∧
      ∀ number, Reformats number 1 (lines source) 1 (lines moved) →
        assemble moved = renumbered number (Program.renumber number) (assemble source) := by
  refine ⟨fun hStyle => ?_, fun number h => h.assemble_eq⟩
  have hSame : (lines moved).map normalize = (lines source).map normalize := by
    rw [← List.forall₂_eq_eq_eq, List.forall₂_map_left_iff, List.forall₂_map_right_iff]
    exact (hStyle.imp fun _ _ h => h.normalize_eq).flip
  rw [assemble_eq_bind, Layout.addLines_congr hSame, ← assemble_eq_bind]

/-- A mask and a branch, written in small letters and with remarks, and set apart by lines where
nothing stands. -/
theorem assemble_reformatted_branch :
    let source := "LDA #$0F\nBNE END".toList
    let styled := "\tlda #$0f ; mask\r\n Bne end".toList
    let moved := ";start\n\tlda #$0f ; mask\r\n\r\n Bne end".toList
    assemble source = .error ⟨2, .undefinedLabel "END".toList⟩ ∧
      assemble styled = assemble source ∧
      assemble moved = renumbered (2 * ·) (Program.renumber (2 * ·)) (assemble source) := by
  intro source styled moved
  have hFirst : Restyles "LDA #$0F".toList
      (['\t'] ++ "lda #$0f".toList ++ [' '] ++ ';' :: " mask\r".toList) :=
    .trans (.recase (by decide)) (.trans (.pad _ (by decide) (by decide)) (.comment _ _))
  have hSecond : Restyles "BNE END".toList ([' '] ++ "Bne end".toList ++ []) :=
    .trans (.recase (by decide)) (.pad _ (by decide) (by decide))
  have hStyled : List.Forall₂ Restyles (lines source) (lines styled) :=
    .cons hFirst (.cons hSecond .nil)
  have hMoved : Reformats (2 * ·) 1 (lines source) 1 (lines moved) :=
    .insert (.comment (by decide : Blank []) "start".toList)
      (.keep rfl hFirst (.insert (.blank (by decide)) (.keep rfl hSecond (.done _ _))))
  have hAll := assemble_reformatted source
  exact ⟨rfl, (hAll styled).1 hStyled, (hAll moved).2 _ hMoved⟩

end Micro6502.Assembly
