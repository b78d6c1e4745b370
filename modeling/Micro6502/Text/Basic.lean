/-! Text as a list of characters, and the few ways in which source text is cut:
trimming blanks, splitting at a separator, splitting into lines. -/

namespace Micro6502

/-- A piece of source, a label name, or a message: its characters in order. -/
abbrev Text := List Char

namespace Text

/-- The characters with the Unicode property White_Space. -/
def isBlank (c : Char) : Bool :=
  let code := c.toNat
  (0x09 ≤ code && code ≤ 0x0D) || code == 0x20 || code == 0x85 || code == 0xA0 ||
    code == 0x1680 || (0x2000 ≤ code && code ≤ 0x200A) || code == 0x2028 ||
    code == 0x2029 || code == 0x202F || code == 0x205F || code == 0x3000

def trimStart (text : Text) : Text := text.dropWhile isBlank

def trimEnd (text : Text) : Text := (text.reverse.dropWhile isBlank).reverse

/-- The text without the blanks around it. Blanks inside it stay. -/
def trim (text : Text) : Text := trimEnd (trimStart text)

/-- Upper case for the letters a to z. All other characters, letters beyond
ASCII included, are left as they are. -/
def upper (text : Text) : Text := text.map Char.toUpper

/-- What follows `c`, if the text begins with `c`. -/
def after? (c : Char) : Text → Option Text
  | [] => none
  | d :: rest => if d = c then some rest else none

/-- The parts before and after the first `c`, if there is one. -/
def cut? (c : Char) : Text → Option (Text × Text)
  | [] => none
  | d :: rest =>
    if d = c then some ([], rest)
    else match cut? c rest with
      | none => none
      | some (before, tail) => some (d :: before, tail)

/-- Put one more character in front of a text that is already in pieces. -/
def consPiece (separator c : Char) (pieces : List Text) : List Text :=
  if c = separator then [] :: pieces
  else match pieces with
    | [] => [[c]]
    | piece :: others => (c :: piece) :: others

/-- The pieces between separators. There is one more of them than there are
separators, so the empty text is one empty piece. -/
def fields (separator : Char) (text : Text) : List Text :=
  text.foldr (consPiece separator) [[]]

/-- The lines of a text. A newline ends its line, so nothing follows a final
newline. A carriage return before it counts as a blank at the end of the line. -/
def lines (text : Text) : List Text :=
  text.foldr (consPiece '\n') []

/-- Whether `needle` occurs in the text as an unbroken stretch. -/
def occursIn (needle : Text) : Text → Bool
  | [] => needle.isEmpty
  | c :: rest => needle.isPrefixOf (c :: rest) || occursIn needle rest

/-- The pieces one after the other, with `separator` between neighbours. -/
def joinWith (separator : Text) (pieces : List Text) : Text :=
  separator.intercalate pieces

/-- Only a text without the mark cannot be cut. -/
theorem cut?_eq_none_iff {c : Char} {text : Text} : cut? c text = none ↔ c ∉ text := by
  induction text with
  | nil => simp [cut?]
  | cons d rest ih =>
      by_cases hd : d = c
      · simp [cut?, hd]
      · have hc : c ≠ d := fun h => hd h.symm
        simp only [cut?, hd, if_false, List.mem_cons, hc, false_or, ← ih]
        cases cut? c rest <;> simp

/-- A text is cut at the first of its marks. -/
theorem cut?_append {c : Char} {before tail : Text} (h : c ∉ before) :
    cut? c (before ++ c :: tail) = some (before, tail) := by
  induction before with
  | nil => simp [cut?]
  | cons d before ih =>
      rw [List.mem_cons, not_or] at h
      have hd : d ≠ c := fun he => h.1 he.symm
      simp [cut?, hd, ih h.2]

/-- A cut loses nothing but the mark, of which there is none in front. -/
theorem eq_append_of_cut? {c : Char} {text before tail : Text}
    (h : cut? c text = some (before, tail)) :
    text = before ++ c :: tail ∧ c ∉ before := by
  induction text generalizing before with
  | nil => simp [cut?] at h
  | cons d rest ih =>
      by_cases hd : d = c
      · simp only [cut?, hd, if_true, Option.some.injEq, Prod.mk.injEq] at h
        obtain ⟨rfl, rfl⟩ := h
        simp [hd]
      · simp only [cut?, hd, if_false] at h
        cases hRest : cut? c rest with
        | none => simp [hRest] at h
        | some parts =>
            simp only [hRest, Option.some.injEq, Prod.mk.injEq] at h
            obtain ⟨rfl, rfl⟩ := h
            obtain ⟨he, hn⟩ := ih hRest
            have hc : c ≠ d := fun h => hd h.symm
            exact ⟨by rw [he]; rfl, by simp [hc, hn]⟩

end Text
end Micro6502
