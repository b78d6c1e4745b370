import Micro6502.Assembly.Assembler

/-! What an assembler remembers. Whatever sources it has met, and wherever they failed, the
forms that it keeps for a mnemonic are those of the catalog; so it assembles the next source
as one that remembers nothing. -/

namespace Micro6502.Assembly

namespace Assembler

/-- The forms that are kept for a mnemonic are those that the catalog has for it. -/
structure Sound (assembler : Assembler) : Prop where
  known : ∀ {mnemonic forms}, assembler.known.lookup mnemonic = some forms →
    Catalog.forMnemonic? mnemonic = some forms

theorem sound_fresh : ({} : Assembler).Sound where
  known := by
    rintro mnemonic forms ⟨⟩

namespace Sound

variable {assembler : Assembler} (h : assembler.Sound)

include h

/-- Asked for the forms of a mnemonic, such an assembler gives those of the catalog, whether it
keeps them or has to search for them. -/
theorem forms? : assembler.forms? = Catalog.forMnemonic? := by
  funext mnemonic
  unfold Assembler.forms?
  cases hKnown : assembler.known.lookup mnemonic with
  | none => rfl
  | some forms => exact (h.known hKnown).symm

/-- What is kept in addition was taken from the catalog. -/
theorem remember (mnemonic : Text) : (assembler.remember mnemonic).Sound := by
  unfold Assembler.remember
  split
  next forms _ hForms =>
    refine ⟨fun {other others} hOther => ?_⟩
    rw [List.lookup_cons] at hOther
    by_cases hSame : other = mnemonic
    · subst hSame
      rw [beq_self_eq_true] at hOther
      exact hForms.trans hOther
    · rw [beq_false_of_ne hSame] at hOther
      exact h.known hOther
  next => exact h

/-- A line asks for one mnemonic at most. -/
theorem learn (layout : Layout) (source : Text) : (assembler.learn layout source).Sound := by
  unfold Assembler.learn
  cases layout.asked? source with
  | none => exact h
  | some mnemonic => exact h.remember mnemonic

/-- The pass comes to the same layout or the same fault as with the catalog. Behind a fault, too,
everything that is kept is right. -/
theorem addLines (layout : Layout) (line : Nat) (sources : List Text) :
    (assembler.addLines layout line sources).1 =
        layout.addLines Catalog.forMnemonic? line sources ∧
      (assembler.addLines layout line sources).2.Sound := by
  induction sources generalizing assembler layout line with
  | nil => exact ⟨rfl, h⟩
  | cons source rest ih =>
      rw [Assembler.addLines, Layout.addLines, h.forms?]
      cases layout.addLine Catalog.forMnemonic? line source with
      | error cause => exact ⟨rfl, h.learn layout source⟩
      | ok next => exact ih (h.learn layout source) next (line + 1)

/-- Settling the labels asks for no forms, so it changes nothing about what is kept. -/
theorem layOut (source : Text) :
    (assembler.layOut source).1 = Assembly.layOut Catalog.forMnemonic? source ∧
      (assembler.layOut source).2.Sound := by
  have hLines := h.addLines {} 1 (Text.lines source)
  unfold Assembler.layOut Assembly.layOut
  rw [← hLines.1]
  generalize assembler.addLines {} 1 (Text.lines source) = pass at hLines
  obtain ⟨diagnostic | layout, learnt⟩ := pass
  · exact ⟨rfl, hLines.2⟩
  · exact ⟨rfl, hLines.2⟩

/-- A source text has the same outcome, whatever was assembled before. -/
theorem assemble (source : Text) :
    (assembler.assemble source).1 = Assembly.assemble source ∧
      (assembler.assemble source).2.Sound := by
  have hPass := h.layOut source
  unfold Assembler.assemble Assembly.assemble Assembly.assembleWith
  rw [← hPass.1]
  generalize assembler.layOut source = pass at hPass
  obtain ⟨diagnostic | layout, learnt⟩ := pass
  · exact ⟨rfl, hPass.2⟩
  · exact ⟨rfl, hPass.2⟩

end Sound
end Assembler
end Micro6502.Assembly
