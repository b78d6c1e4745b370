import Mathlib.Data.List.Basic
import Mathlib.Data.List.TakeWhile
import Micro6502.Assembly.Operand
import Micro6502.Proofs.Instruction.Catalog
import Micro6502.Proofs.Text.Basic
import Micro6502.Proofs.Text.Numeral
import Micro6502.Proofs.Text.Value

/-! The grammar of operands, written down apart from the reader of operands. The reader accepts
what the grammar derives and nothing else, and it names the text that it rejects. -/

namespace Micro6502

namespace Text

/-- The digits of a radix. Those above nine may be written in either case. -/
def Radix.alphabet : Radix → Text
  | decimal => "0123456789".toList
  | hex => "0123456789ABCDEFabcdef".toList

/-- The characters that pass a test are found among those of ASCII, if they all belong there. -/
theorem mem_of_test (test : Char → Bool) {alphabet : Text}
    (hAll : ∀ code < 128, test (Char.ofNat code) = true → Char.ofNat code ∈ alphabet) {c : Char}
    (hBound : c.toNat < 128) (hTest : test c = true) : c ∈ alphabet := by
  have hChar := hAll c.toNat hBound
  rw [Char.ofNat_toNat] at hChar
  exact hChar hTest

/-- The digits of a radix are the characters that are read as digits in it. -/
theorem Radix.isSome_digit? {radix : Radix} {c : Char} :
    (radix.digit? c).isSome = true ↔ c ∈ radix.alphabet := by
  constructor
  · intro h
    have hBound : c.toNat < 128 := by
      have hLe : ∀ d e : Char, d ≤ e ↔ d.toNat ≤ e.toNat := fun _ _ => UInt32.le_iff_toNat_le
      simp only [Radix.digit?, hLe, Char.reduceToNat] at h
      grind
    exact mem_of_test (fun c => (radix.digit? c).isSome) (by cases radix <;> decide) hBound h
  · have hAll : ∀ c ∈ radix.alphabet, (radix.digit? c).isSome = true := by
      cases radix <;> exact List.all_eq_true.mp (by decide)
    exact hAll c

theorem Radix.exists_mapM_digit? {radix : Radix} {digits : Text} :
    (∃ values, digits.mapM radix.digit? = some values) ↔ digits ⊆ radix.alphabet := by
  induction digits with
  | nil => exact ⟨fun _ => List.nil_subset _, fun _ => ⟨[], rfl⟩⟩
  | cons c rest ih =>
      rw [List.cons_subset, ← ih, ← isSome_digit?, List.mapM_cons]
      cases radix.digit? c with
      | none => simp
      | some digit => cases rest.mapM radix.digit? <;> simp

/-- The texts with a value are the strings of one or more digits. -/
theorem Radix.exists_value? {radix : Radix} {digits : Text} :
    (∃ number, radix.value? digits = some number) ↔ digits ≠ [] ∧ digits ⊆ radix.alphabet := by
  rw [← exists_mapM_digit?, value?]
  split
  next hNil => simp [hNil]
  next hDigits => simp [hDigits, Option.map_eq_some_iff]

end Text

namespace Assembly

open Text

/-- The characters of a label name behind its first one, which is a letter. -/
def labelAlphabet : Text := "ABCDEFGHIJKLMNOPQRSTUVWXYZ0123456789_".toList

theorem toNat_lt_of_isUpper {c : Char} (h : c.isUpper = true) : c.toNat < 128 := by
  have hRange : c.val ≥ 'A'.val ∧ c.val ≤ 'Z'.val := of_decide_eq_true h
  exact Nat.lt_of_le_of_lt (UInt32.le_iff_toNat_le.mp hRange.2) (by decide)

theorem toNat_lt_of_isDigit {c : Char} (h : c.isDigit = true) : c.toNat < 128 := by
  have hRange : c.val ≤ '9'.val := of_decide_eq_true (Bool.and_eq_true_iff.mp h).2
  exact Nat.lt_of_le_of_lt (UInt32.le_iff_toNat_le.mp hRange) (by decide)

theorem isUpper_iff {c : Char} : c.isUpper = true ↔ c ∈ Catalog.letters := by
  constructor
  · exact fun h => mem_of_test Char.isUpper (by decide) (toNat_lt_of_isUpper h) h
  · have hAll : ∀ c ∈ Catalog.letters, c.isUpper = true := List.all_eq_true.mp (by decide)
    exact hAll c

/-- The characters of a label name, written out. -/
theorem isLabelChar_iff {c : Char} : isLabelChar c = true ↔ c ∈ labelAlphabet := by
  constructor
  · intro h
    have hBound : c.toNat < 128 := by
      simp only [isLabelChar, Bool.or_eq_true, decide_eq_true_eq] at h
      rcases h with (hUpper | hDigit) | rfl
      · exact toNat_lt_of_isUpper hUpper
      · exact toNat_lt_of_isDigit hDigit
      · decide
    exact mem_of_test isLabelChar (by decide) hBound h
  · have hAll : ∀ c ∈ labelAlphabet, isLabelChar c = true := List.all_eq_true.mp (by decide)
    exact hAll c

/-- A letter, and behind it one or more letters, digits and underscores. -/
inductive IsLabel : Text → Prop
  | intro {first : Char} {rest : Text} (hFirst : first ∈ Catalog.letters) (hRest : rest ≠ [])
      (hChars : rest ⊆ labelAlphabet) : IsLabel (first :: rest)

theorem isLabelName_iff {name : Text} : isLabelName name = true ↔ IsLabel name := by
  constructor
  · intro h
    cases name with
    | nil => cases h
    | cons first rest =>
        simp only [isLabelName, Bool.and_eq_true, isUpper_iff, List.all_eq_true,
          isLabelChar_iff] at h
        obtain ⟨⟨hFirst, hRest⟩, hChars⟩ := h
        exact .intro hFirst (by simpa using hRest) fun c hc => hChars c hc
  · rintro ⟨hFirst, hRest, hChars⟩
    simp only [isLabelName, Bool.and_eq_true, isUpper_iff, List.all_eq_true, isLabelChar_iff]
    exact ⟨⟨hFirst, by simpa using hRest⟩, fun c hc => hChars hc⟩

/-- A value in an operand: a number, which stops growing at the limit of reading, or else the
name of a label. What is both is a number. -/
inductive Value.Derives (radix : Radix) : Text → Value → Prop
  | number {digits : Text} {number : Nat} (hNumber : radix.value? digits = some number) :
      Derives radix digits (.number (min number numeralLimit))
  | label {name : Text} (hLabel : IsLabel name) (hNumber : radix.value? name = none) :
      Derives radix name (.label name)

/-- The sign that selects one half of a label. -/
def ByteSelect.sign : ByteSelect → Char
  | low => '<'
  | high => '>'

/-- The operands in a radix, with blanks wherever two tokens meet. The `$` that marks the radix
is no part of the text, and no blanks are around it. -/
inductive Operand.Derives (radix : Radix) : Text → Operand → Prop
  | absent : Derives radix [] .absent
  | immediate {w digits : Text} {number : Nat} (hw : Blank w)
      (hNumber : radix.value? digits = some number) :
      Derives radix (['#'] ++ w ++ digits) (.immediate (min number numeralLimit))
  | immediateLabel {w x name : Text} (select : ByteSelect) (hw : Blank w) (hx : Blank x)
      (hLabel : IsLabel name) :
      Derives radix (['#'] ++ w ++ [select.sign] ++ x ++ name) (.immediateLabel select name)
  | indirectX {w text x y z : Text} {value : Value} (hw : Blank w) (hx : Blank x) (hy : Blank y)
      (hz : Blank z) (hValue : Value.Derives radix text value) :
      Derives radix (['('] ++ w ++ text ++ x ++ [','] ++ y ++ ['X'] ++ z ++ [')'])
        (.indirectX value)
  | indirectY {w text x y z : Text} {value : Value} (hw : Blank w) (hx : Blank x) (hy : Blank y)
      (hz : Blank z) (hValue : Value.Derives radix text value) :
      Derives radix (['('] ++ w ++ text ++ x ++ [')'] ++ y ++ [','] ++ z ++ ['Y'])
        (.indirectY value)
  | indirect {w text x : Text} {value : Value} (hw : Blank w) (hx : Blank x)
      (hValue : Value.Derives radix text value) :
      Derives radix (['('] ++ w ++ text ++ x ++ [')']) (.indirect value)
  | indexedX {text x y : Text} {value : Value} (hx : Blank x) (hy : Blank y)
      (hValue : Value.Derives radix text value) :
      Derives radix (text ++ x ++ [','] ++ y ++ ['X']) (.indexedX value)
  | indexedY {text x y : Text} {value : Value} (hx : Blank x) (hy : Blank y)
      (hValue : Value.Derives radix text value) :
      Derives radix (text ++ x ++ [','] ++ y ++ ['Y']) (.indexedY value)
  | direct {text : Text} {value : Value} (hValue : Value.Derives radix text value) :
      Derives radix text (.direct value)

/-- The characters of digits and of label names. -/
def wordAlphabet : Text := labelAlphabet ++ "abcdef".toList

/-- The characters that set off the parts of an operand from each other. -/
def punctuation : Text := "#<>(),".toList

theorem of_punctuation {c : Char} (h : c ∈ punctuation) :
    isBlank c = false ∧ c ∉ wordAlphabet := by
  have hAll : ∀ c ∈ punctuation, isBlank c = false ∧ c ∉ wordAlphabet :=
    List.all_iff_forall_prop.mp (by decide)
  exact hAll c h

/-- The first letter of a name is one of the characters that may follow it, too. -/
theorem IsLabel.subset {name : Text} (h : IsLabel name) : name ⊆ labelAlphabet := by
  have hLetters : Catalog.letters ⊆ labelAlphabet := List.all_iff_forall_prop.mp (by decide)
  cases h with
  | intro hFirst _ hChars => exact List.cons_subset.mpr ⟨hLetters hFirst, hChars⟩

theorem IsLabel.ne_nil {name : Text} (h : IsLabel name) : name ≠ [] := by
  cases h
  exact List.cons_ne_nil _ _

theorem Radix.subset_of_value? {radix : Radix} {digits : Text} {number : Nat}
    (h : radix.value? digits = some number) : digits ≠ [] ∧ digits ⊆ wordAlphabet := by
  have hAlphabet : radix.alphabet ⊆ wordAlphabet := by
    cases radix <;> exact List.all_iff_forall_prop.mp (by decide)
  obtain ⟨hDigits, hSubset⟩ := Radix.exists_value?.mp ⟨number, h⟩
  exact ⟨hDigits, List.Subset.trans hSubset hAlphabet⟩

section

variable {radix : Radix} {text : Text} {value : Value} {operand : Operand}

theorem Value.Derives.word (h : Value.Derives radix text value) :
    text ≠ [] ∧ text ⊆ wordAlphabet := by
  cases h with
  | number hNumber => exact Radix.subset_of_value? hNumber
  | label hLabel _ => exact ⟨hLabel.ne_nil, List.subset_append_of_subset_left _ hLabel.subset⟩

/-- No mark stands in a word. -/
theorem notMem_of_word (h : text ⊆ wordAlphabet) {c : Char} (hMark : c ∈ punctuation) :
    c ∉ text :=
  fun hMem => (of_punctuation hMark).2 (h hMem)

theorem solid_of_word (h : text ⊆ wordAlphabet) : Solid text := by
  have hAll : Solid wordAlphabet := by decide
  exact fun c hc => hAll c (h hc)

/-- A value is read from what the grammar derives, with blanks around it. -/
theorem value?_eq_some_iff : value? radix text = some value ↔
    ∃ w core x, Blank w ∧ Blank x ∧ text = w ++ core ++ x ∧ Value.Derives radix core value := by
  constructor
  · intro h
    obtain ⟨w, x, hw, hx, hText⟩ := exists_trim text
    refine ⟨w, trim text, x, hw, hx, hText, ?_⟩
    simp only [value?, Radix.read?_eq_min] at h
    split at h
    next number hRead =>
      cases h
      obtain ⟨number, hNumber, rfl⟩ := Option.map_eq_some_iff.mp hRead
      exact .number hNumber
    next hRead =>
      split at h
      next hName =>
        cases h
        exact .label (isLabelName_iff.mp hName) (Option.map_eq_none_iff.mp hRead)
      next => cases h
  · rintro ⟨w, core, x, hw, hx, rfl, hCore⟩
    have hTrim : trim (w ++ core ++ x) = core :=
      (solid_of_word hCore.word.2).trim_eq_iff.mpr ⟨w, x, hw, hx, rfl⟩
    simp only [value?, hTrim, Radix.read?_eq_min]
    cases hCore with
    | number hNumber => rw [hNumber, Option.map_some]
    | label hLabel hNumber =>
        rw [hNumber, Option.map_none]
        exact if_pos (isLabelName_iff.mpr hLabel)

/-- A text that trimming leaves alone has its name at its very end, so blanks stand only between
the marks and the name. -/
theorem derives_of_immediateLabel? {w inner : Text} (select : ByteSelect) (hw : Blank w)
    (hTrim : trim (['#'] ++ w ++ [select.sign] ++ inner) = ['#'] ++ w ++ [select.sign] ++ inner)
    (h : immediateLabel? select inner = some operand) :
    Operand.Derives radix (['#'] ++ w ++ [select.sign] ++ inner) operand := by
  obtain ⟨x, name, hx, rfl, hName⟩ := exists_blank_append hTrim
  simp only [immediateLabel?, hName] at h
  split at h
  next hLabel =>
    cases h
    rw [← List.append_assoc]
    exact .immediateLabel select hw hx (isLabelName_iff.mp hLabel)
  next => cases h

/-- Behind the sign of an immediate operand stands one half of a label or a number. -/
theorem derives_of_immediate? {inner : Text} (hTrim : trim (['#'] ++ inner) = ['#'] ++ inner)
    (h : immediate? radix inner = some operand) :
    Operand.Derives radix (['#'] ++ inner) operand := by
  obtain ⟨w, core, hw, rfl, hCore⟩ := exists_blank_append hTrim
  simp only [immediate?, hCore] at h
  rw [← List.append_assoc] at hTrim ⊢
  split at h
  next label hLow =>
    obtain rfl : core = [ByteSelect.low.sign] ++ label := eq_cons_of_after? hLow
    rw [← List.append_assoc] at hTrim ⊢
    exact derives_of_immediateLabel? .low hw hTrim h
  next =>
    split at h
    next label hHigh =>
      obtain rfl : core = [ByteSelect.high.sign] ++ label := eq_cons_of_after? hHigh
      rw [← List.append_assoc] at hTrim ⊢
      exact derives_of_immediateLabel? .high hw hTrim h
    next =>
      simp only [Radix.read?_eq_min, Option.map_map, Option.map_eq_some_iff] at h
      obtain ⟨number, hNumber, rfl⟩ := h
      exact .immediate hw hNumber

/-- What stands in parentheses is a pointer, indexed inside them, behind them or not at all. -/
theorem derives_of_indirect? {inside behind : Text}
    (hTrim : trim (['('] ++ inside ++ [')'] ++ behind) = ['('] ++ inside ++ [')'] ++ behind)
    (h : indirect? radix inside behind = some operand) :
    Operand.Derives radix (['('] ++ inside ++ [')'] ++ behind) operand := by
  have hX : Solid ['X'] := by decide
  have hY : Solid ['Y'] := by decide
  have hEnd : trim behind = [] → behind = [] := fun hNone =>
    eq_nil_of_trim_append hTrim (blank_of_trim_eq_nil hNone)
  simp only [indirect?] at h
  split at h
  next before index hComma =>
    split at h
    next hIndex =>
      obtain ⟨value, hValue, rfl⟩ := Option.map_eq_some_iff.mp h
      obtain ⟨w, text, x, hw, hx, rfl, hText⟩ := value?_eq_some_iff.mp hValue
      obtain ⟨y, z, hy, hz, rfl⟩ := hX.trim_eq_iff.mp hIndex.1
      obtain ⟨rfl, -⟩ := eq_append_of_cut? hComma
      have hDerives := Operand.Derives.indirectX hw hx hy hz hText
      rw [hEnd hIndex.2]
      simpa using hDerives
    next => cases h
  next hComma =>
    split at h
    next hNone =>
      obtain ⟨value, hValue, rfl⟩ := Option.map_eq_some_iff.mp h
      obtain ⟨w, text, x, hw, hx, rfl, hText⟩ := value?_eq_some_iff.mp hValue
      have hDerives := Operand.Derives.indirect hw hx hText
      rw [hEnd hNone]
      simpa using hDerives
    next =>
      obtain ⟨y, tail, hy, rfl, hTail⟩ := exists_blank_append hTrim
      split at h
      next => cases h
      next index hMark =>
        obtain rfl : tail = [','] ++ index := hTail.symm.trans (eq_cons_of_after? hMark)
        split at h
        next hIndex =>
          obtain ⟨value, hValue, rfl⟩ := Option.map_eq_some_iff.mp h
          obtain ⟨w, text, x, hw, hx, rfl, hText⟩ := value?_eq_some_iff.mp hValue
          rw [← List.append_assoc, ← List.append_assoc] at hTrim ⊢
          obtain ⟨z, core, hz, rfl, hCore⟩ := exists_blank_append hTrim
          obtain rfl : core = ['Y'] := hCore.symm.trans hIndex
          have hDerives := Operand.Derives.indirectY hw hx hy hz hText
          simpa using hDerives
        next => cases h

/-- Both indices are read in one way, as a value in front and a letter at the end. -/
theorem derives_of_indexed {before y : Text} {letter : Char} {shape : Value → Operand}
    (hShape : ∀ {text x : Text} {value : Value}, Blank x → Value.Derives radix text value →
      Operand.Derives radix (text ++ x ++ [','] ++ y ++ [letter]) (shape value))
    (hTrim : trim (before ++ [','] ++ y ++ [letter]) = before ++ [','] ++ y ++ [letter])
    (h : (value? radix before).map shape = some operand) :
    Operand.Derives radix (before ++ [','] ++ y ++ [letter]) operand := by
  obtain ⟨value, hValue, rfl⟩ := Option.map_eq_some_iff.mp h
  obtain ⟨w, text, x, hw, hx, rfl, hText⟩ := value?_eq_some_iff.mp hValue
  have hFront : w ++ text ++ x ++ [','] ++ y ++ [letter] =
      w ++ (text ++ x ++ [','] ++ y ++ [letter]) := by simp
  rw [hFront] at hTrim
  obtain rfl := eq_nil_of_trim_blank_append hTrim hw
  exact hShape hx hText

/-- Without a mark in front, a text is a value with an index or a value alone. -/
theorem derives_of_direct? (hTrim : trim text = text) (h : direct? radix text = some operand) :
    Operand.Derives radix text operand := by
  simp only [direct?] at h
  split at h
  next =>
    obtain ⟨value, hValue, rfl⟩ := Option.map_eq_some_iff.mp h
    obtain ⟨w, core, x, hw, hx, rfl, hCore⟩ := value?_eq_some_iff.mp hValue
    obtain rfl := eq_nil_of_trim_append hTrim hx
    rw [List.append_nil] at hTrim ⊢
    obtain rfl := eq_nil_of_trim_blank_append hTrim hw
    exact .direct hCore
  next before index hComma =>
    obtain ⟨rfl, -⟩ := eq_append_of_cut? hComma
    rw [← List.singleton_append, ← List.append_assoc] at hTrim ⊢
    obtain ⟨y, core, hy, rfl, hCore⟩ := exists_blank_append hTrim
    rw [← List.append_assoc] at hTrim ⊢
    rw [hCore] at h
    split at h
    next hX =>
      subst hX
      exact derives_of_indexed (fun hx => .indexedX hx hy) hTrim h
    next =>
      split at h
      next hY =>
        subst hY
        exact derives_of_indexed (fun hx => .indexedY hx hy) hTrim h
      next => cases h

/-- What is read as an operand is derived as that operand. -/
theorem derives_of_operand? (hTrim : trim text = text) (hText : text ≠ ['A'])
    (h : operand? radix text = some operand) : Operand.Derives radix text operand := by
  unfold operand? at h
  rw [if_neg hText] at h
  split at h
  next hNil =>
    cases h
    rw [hNil]
    exact .absent
  next =>
    split at h
    next inner hHash =>
      rw [eq_cons_of_after? hHash] at hTrim ⊢
      exact derives_of_immediate? hTrim h
    next =>
      split at h
      next inner hParen =>
        obtain rfl := eq_cons_of_after? hParen
        split at h
        next => cases h
        next inside behind hClose =>
          obtain ⟨rfl, -⟩ := eq_append_of_cut? hClose
          have hShape : '(' :: (inside ++ ')' :: behind) = ['('] ++ inside ++ [')'] ++ behind := by
            simp
          rw [hShape] at hTrim ⊢
          exact derives_of_indirect? hTrim h
      next => exact derives_of_direct? hTrim h

theorem operand?_hash (radix : Radix) (inner : Text) :
    operand? radix ('#' :: inner) = immediate? radix inner := by
  have hHash : after? '#' ('#' :: inner) = some inner := rfl
  rw [operand?, if_neg (List.cons_ne_nil _ _), if_neg (by simp), hHash]

/-- An opening parenthesis decides the form, and the first closing one ends what is inside. -/
theorem operand?_paren {radix : Radix} {inside : Text} (h : ')' ∉ inside) (behind : Text) :
    operand? radix ('(' :: (inside ++ ')' :: behind)) = indirect? radix inside behind := by
  have hHash : after? '#' ('(' :: (inside ++ ')' :: behind)) = none := rfl
  have hParen : after? '(' ('(' :: (inside ++ ')' :: behind)) =
      some (inside ++ ')' :: behind) := rfl
  rw [operand?, if_neg (List.cons_ne_nil _ _), if_neg (by simp), hHash, hParen]
  simp only [cut?_append h]

/-- A text is a value, alone or with an index, if no mark makes it another operand. -/
theorem operand?_eq_direct? (hNil : text ≠ []) (hText : text ≠ ['A']) (hHash : '#' ∉ text)
    (hParen : '(' ∉ text) : operand? radix text = direct? radix text := by
  rw [operand?, if_neg hNil, if_neg hText, after?_eq_none hHash]
  simp only [after?_eq_none hParen]

/-- No punctuation stands in a value or in the blanks around it. -/
theorem Value.Derives.notMem {w x : Text} (h : Value.Derives radix text value) (hw : Blank w)
    (hx : Blank x) {c : Char} (hMark : c ∈ punctuation) : c ∉ w ++ text ++ x := by
  have hBlank := (of_punctuation hMark).1
  simp only [List.mem_append, not_or]
  exact ⟨⟨hw.notMem hBlank, notMem_of_word h.word.2 hMark⟩, hx.notMem hBlank⟩

/-- Blanks around a value do not count. -/
theorem Value.Derives.value?_eq {w x : Text} (h : Value.Derives radix text value) (hw : Blank w)
    (hx : Blank x) : value? radix (w ++ text ++ x) = some value :=
  value?_eq_some_iff.mpr ⟨w, text, x, hw, hx, rfl, h⟩

/-- A mark and a word stay at the ends of a text, whatever is between them. -/
theorem trim_mark {c : Char} (hMark : isBlank c = false) (x : Text) {word : Text}
    (hNil : word ≠ []) (hWord : Solid word) : trim (c :: (x ++ word)) = c :: (x ++ word) := by
  refine trim_eq_self (fun d hFirst => ?_) (fun d hLast => ?_)
  · cases hFirst
    exact hMark
  · rw [← List.cons_append, List.getLast?_append] at hLast
    rcases Option.or_eq_some_iff.mp hLast with hLast | ⟨hNone, -⟩
    · exact hWord d (List.mem_of_mem_getLast? hLast)
    · exact absurd (List.getLast?_eq_none_iff.mp hNone) hNil

theorem trim_index {letter : Char} (hLetter : isBlank letter = false) {y z : Text} (hy : Blank y)
    (hz : Blank z) : trim (y ++ [letter] ++ z) = [letter] := by
  have hSolid : Solid [letter] := by simpa [Solid] using hLetter
  exact hSolid.trim_eq_iff.mpr ⟨y, z, hy, hz, rfl⟩

/-- Blanks may stand between the sign and the number. -/
theorem immediate?_number {w digits : Text} {number : Nat} (hw : Blank w)
    (hNumber : radix.value? digits = some number) :
    immediate? radix (w ++ digits) = some (.immediate (min number numeralLimit)) := by
  have hWord := (Radix.subset_of_value? hNumber).2
  have hLow : after? '<' digits = none := after?_eq_none (notMem_of_word hWord (by decide))
  have hHigh : after? '>' digits = none := after?_eq_none (notMem_of_word hWord (by decide))
  have hTrim : trim (w ++ digits) = digits := by
    rw [trim_blank_append hw, (solid_of_word hWord).trim_eq]
  simp only [immediate?, hTrim, hLow, hHigh, Radix.read?_eq_min, hNumber, Option.map_some]

/-- Blanks may stand on both sides of the sign that selects a half. -/
theorem immediate?_label {w x name : Text} (select : ByteSelect) (hw : Blank w) (hx : Blank x)
    (hLabel : IsLabel name) :
    immediate? radix (w ++ select.sign :: (x ++ name)) = some (.immediateLabel select name) := by
  have hSolid : Solid name := solid_of_word (List.subset_append_of_subset_left _ hLabel.subset)
  have hSign : isBlank select.sign = false := by cases select <;> rfl
  have hTrim : trim (w ++ select.sign :: (x ++ name)) = select.sign :: (x ++ name) := by
    rw [trim_blank_append hw, trim_mark hSign x hLabel.ne_nil hSolid]
  have hRead : immediateLabel? select (x ++ name) = some (.immediateLabel select name) := by
    simp only [immediateLabel?, trim_blank_append hx, hSolid.trim_eq, isLabelName_iff.mpr hLabel,
      if_true]
  simp only [immediate?, hTrim]
  cases select with
  | low | high => exact hRead

theorem indirect?_indexedX {w text x y z : Text} (hw : Blank w) (hx : Blank x) (hy : Blank y)
    (hz : Blank z) (h : Value.Derives radix text value) :
    indirect? radix (w ++ text ++ x ++ ',' :: (y ++ ['X'] ++ z)) [] = some (.indirectX value) := by
  have hIndex : trim (y ++ ['X'] ++ z) = ['X'] ∧ trim [] = [] :=
    ⟨trim_index (by decide) hy hz, rfl⟩
  rw [indirect?, cut?_append (h.notMem hw hx (by decide))]
  simp only [if_pos hIndex, h.value?_eq hw hx, Option.map_some]

theorem indirect?_plain {w text x : Text} (hw : Blank w) (hx : Blank x)
    (h : Value.Derives radix text value) :
    indirect? radix (w ++ text ++ x) [] = some (.indirect value) := by
  rw [indirect?, cut?_eq_none_iff.mpr (h.notMem hw hx (c := ',') (by decide))]
  simp only [h.value?_eq hw hx]
  rfl

/-- A pointer is indexed by Y behind its parentheses. -/
theorem indirect?_indexedY {w text x y z : Text} (hw : Blank w) (hx : Blank x) (hy : Blank y)
    (hz : Blank z) (h : Value.Derives radix text value) :
    indirect? radix (w ++ text ++ x) (y ++ ',' :: (z ++ ['Y'])) = some (.indirectY value) := by
  have hSolid : Solid ['Y'] := by decide
  have hTrim : trim (y ++ ',' :: (z ++ ['Y'])) = ',' :: (z ++ ['Y']) := by
    rw [trim_blank_append hy, trim_mark (by decide) z (by decide) hSolid]
  have hIndex : trim (z ++ ['Y']) = ['Y'] := by rw [trim_blank_append hz, hSolid.trim_eq]
  have hMark : after? ',' (',' :: (z ++ ['Y'])) = some (z ++ ['Y']) := rfl
  rw [indirect?, cut?_eq_none_iff.mpr (h.notMem hw hx (c := ',') (by decide))]
  simp only [hTrim, if_neg (List.cons_ne_nil _ _), hMark, if_pos hIndex, h.value?_eq hw hx,
    Option.map_some]

/-- Behind the comma of a direct operand, only the two index letters are read. -/
theorem direct?_indexed {x y : Text} {letter : Char} (hLetter : isBlank letter = false)
    (hx : Blank x) (hy : Blank y) (h : Value.Derives radix text value) :
    direct? radix (text ++ x ++ ',' :: (y ++ [letter])) =
      if [letter] = ['X'] then some (.indexedX value)
      else if [letter] = ['Y'] then some (.indexedY value) else none := by
  have hNil : Blank [] := by decide
  have hIndex : trim (y ++ [letter]) = [letter] := by
    have hTrim := trim_index hLetter hy hNil
    rwa [List.append_nil] at hTrim
  have hComma := h.notMem hNil hx (c := ',') (by decide)
  have hValue := h.value?_eq hNil hx
  rw [List.nil_append] at hComma hValue
  rw [direct?, cut?_append hComma]
  simp only [hIndex, hValue, Option.map_some]

/-- No other punctuation than the comma stands in a value with its index. -/
theorem Value.Derives.notMem_indexed {w x y z : Text} {letter : Char}
    (h : Value.Derives radix text value) (hw : Blank w) (hx : Blank x) (hy : Blank y)
    (hz : Blank z) (hLetter : letter ∈ wordAlphabet) {c : Char} (hMark : c ∈ punctuation)
    (hComma : c ≠ ',') : c ∉ w ++ text ++ x ++ ',' :: (y ++ [letter] ++ z) := by
  obtain ⟨hBlank, hWord⟩ := of_punctuation hMark
  intro hMem
  rcases List.mem_append.mp hMem with hFront | hBack
  · exact h.notMem hw hx hMark hFront
  · rcases List.mem_cons.mp hBack with hSame | hIndex
    · exact hComma hSame
    · simp only [List.mem_append, List.mem_singleton] at hIndex
      rcases hIndex with (hMem | rfl) | hMem
      · exact hy.notMem hBlank hMem
      · exact hWord hLetter
      · exact hz.notMem hBlank hMem

/-- Nothing in front of the comma is taken for a mark, so the operand is read as a value with its
index. -/
theorem operand?_indexed {x y : Text} {letter : Char} (hLetter : letter ∈ wordAlphabet)
    (hx : Blank x) (hy : Blank y) (h : Value.Derives radix text value) :
    operand? radix (text ++ x ++ ',' :: (y ++ [letter])) =
      if [letter] = ['X'] then some (.indexedX value)
      else if [letter] = ['Y'] then some (.indexedY value) else none := by
  have hNil : Blank [] := by decide
  have hComma : ',' ∈ text ++ x ++ ',' :: (y ++ [letter]) :=
    List.mem_append_right _ List.mem_cons_self
  have hHash := h.notMem_indexed hNil hx hy hNil hLetter (c := '#') (by decide) (by decide)
  have hParen := h.notMem_indexed hNil hx hy hNil hLetter (c := '(') (by decide) (by decide)
  rw [List.nil_append, List.append_nil] at hHash hParen
  rw [operand?_eq_direct? (List.ne_nil_of_mem hComma) (fun hSame => ?_) hHash hParen]
  · exact direct?_indexed (solid_of_word (List.Subset.refl _) letter hLetter) hx hy h
  · rw [hSame] at hComma
    exact absurd hComma (by decide)

/-- What is derived as an operand is read as that operand. -/
theorem operand?_of_derives (hText : text ≠ ['A']) (h : Operand.Derives radix text operand) :
    operand? radix text = some operand := by
  cases h with
  | absent => rfl
  | immediate hw hNumber => exact (operand?_hash radix _).trans (immediate?_number hw hNumber)
  | immediateLabel select hw hx hLabel =>
      have hRead := (operand?_hash radix _).trans (immediate?_label select hw hx hLabel)
      simpa using hRead
  | indirectX hw hx hy hz hValue =>
      have hX : 'X' ∈ wordAlphabet := by decide
      have hClose := hValue.notMem_indexed hw hx hy hz hX (c := ')') (by decide) (by decide)
      have hRead := (operand?_paren hClose []).trans (indirect?_indexedX hw hx hy hz hValue)
      simpa using hRead
  | indirectY hw hx hy hz hValue =>
      have hClose := hValue.notMem hw hx (c := ')') (by decide)
      have hRead := (operand?_paren hClose _).trans (indirect?_indexedY hw hx hy hz hValue)
      simpa using hRead
  | indirect hw hx hValue =>
      have hClose := hValue.notMem hw hx (c := ')') (by decide)
      have hRead := (operand?_paren hClose []).trans (indirect?_plain hw hx hValue)
      simpa using hRead
  | indexedX hx hy hValue =>
      have hX : 'X' ∈ wordAlphabet := by decide
      have hRead := operand?_indexed hX hx hy hValue
      simpa using hRead
  | indexedY hx hy hValue =>
      have hY : 'Y' ∈ wordAlphabet := by decide
      have hRead := operand?_indexed hY hx hy hValue
      simpa using hRead
  | direct hValue =>
      have hWord := hValue.word.2
      have hNil : Blank [] := by decide
      have hRead := hValue.value?_eq hNil hNil
      rw [List.nil_append, List.append_nil] at hRead
      rw [operand?_eq_direct? hValue.word.1 hText (notMem_of_word hWord (by decide))
        (notMem_of_word hWord (by decide)), direct?,
        cut?_eq_none_iff.mpr (notMem_of_word hWord (by decide))]
      simp only [hRead, Option.map_some]

/-- The reader of operands accepts the grammar, in both directions. -/
theorem operand?_eq_some_iff (hTrim : trim text = text) (hText : text ≠ ['A']) :
    operand? radix text = some operand ↔ Operand.Derives radix text operand :=
  ⟨derives_of_operand? hTrim hText, operand?_of_derives hText⟩

/-- A `$` makes an operand hexadecimal and is then left out. -/
theorem parseOperand_dollar (before behind : Text) (hBefore : '$' ∉ before)
    (hMarked : Solid (before ++ '$' :: behind))
    (h : operand? .hex (before ++ behind) = some operand) :
    parseOperand (before ++ '$' :: behind) = .ok operand := by
  have hSolid : Solid (before ++ behind) := by
    obtain ⟨hFront, hBack⟩ := List.forall_mem_append.mp hMarked
    exact Solid.append hFront (List.forall_mem_cons.mp hBack).2
  have hRadix : operandRadix (before ++ '$' :: behind) = .hex :=
    if_pos (List.mem_append_right _ List.mem_cons_self)
  have hText : operandText (before ++ '$' :: behind) = before ++ behind := by
    rw [operandText, hMarked.trim_eq, List.erase_append_right _ hBefore, List.erase_cons_head,
      hSolid.trim_eq]
  rw [parseOperand, hRadix, hText, h]

end

/-- A line is normal if it is in capitals, has no comment, and begins and ends without a
blank. -/
theorem normalize_eq_self {line : Text} (hPlain : ∀ c ∈ line, c.toUpper = c ∧ c ≠ ';')
    (hTrim : trim line = line) : normalize line = line := by
  have hUpper : upper line = line := by
    rw [upper, List.map_congr_left (fun c hMem => (hPlain c hMem).1), List.map_id']
  have hComment : line.takeWhile (· ≠ ';') = line :=
    List.takeWhile_eq_self_iff.mpr fun c hMem => decide_eq_true (hPlain c hMem).2
  rw [normalize, hUpper, hComment, hTrim]

/-- Three letters at the front of a line make it an instruction, unless it has the mark of a
label or of a definition. -/
theorem classify_instruction {mnemonic rest : Text}
    (hName : mnemonic.length = 3 ∧ mnemonic ⊆ Catalog.letters) (hEquals : '=' ∉ rest)
    (hColon : ':' ∉ rest) :
    classify (mnemonic ++ rest) = .ok (.instruction mnemonic (trim rest)) := by
  obtain ⟨hLength, hLetters⟩ := hName
  have hMark : ∀ {c : Char}, c ∉ Catalog.letters → c ∉ mnemonic := fun hc hMem =>
    hc (hLetters hMem)
  obtain ⟨a, b, c, rfl⟩ := List.length_eq_three.mp hLength
  have hUpper : ∀ d ∈ [a, b, c], d.isUpper = true := fun d hMem => isUpper_iff.mpr (hLetters hMem)
  have hStar : after? '*' ([a, b, c] ++ rest) = none := by
    rw [List.cons_append, after?, if_neg]
    rintro rfl
    exact hMark (c := '*') (by decide) List.mem_cons_self
  have hNoEquals : cut? '=' ([a, b, c] ++ rest) = none := by
    rw [cut?_eq_none_iff, List.mem_append, not_or]
    exact ⟨hMark (by decide), hEquals⟩
  have hNoColon : cut? ':' ([a, b, c] ++ rest) = none := by
    rw [cut?_eq_none_iff, List.mem_append, not_or]
    exact ⟨hMark (by decide), hColon⟩
  have hParse : parseInstruction ([a, b, c] ++ rest) = .ok ([a, b, c], trim rest) := by
    simp [parseInstruction, hUpper a, hUpper b, hUpper c]
  rw [classify, hStar]
  simp only [labelMath?, hNoEquals, classifyLabelled, hNoColon, classifyInstruction, hParse]

/-- An operand is accepted as what the grammar derives from its text without the mark of the
radix, and any other text is rejected and named. The accumulator, `A`, is left aside. -/
theorem parseOperand_derives {text : Text} (h : operandText text ≠ ['A']) :
    (∀ operand, parseOperand text = .ok operand ↔
      Operand.Derives (operandRadix text) (operandText text) operand) ∧
    ((∀ operand, ¬ Operand.Derives (operandRadix text) (operandText text) operand) →
      parseOperand text = .error (.invalidSyntax (operandText text))) := by
  have hTrim : trim (operandText text) = operandText text := trim_trim _
  have hRead : ∀ operand, operand? (operandRadix text) (operandText text) = some operand ↔
      Operand.Derives (operandRadix text) (operandText text) operand :=
    fun _ => operand?_eq_some_iff hTrim h
  constructor
  · intro operand
    rw [← hRead, parseOperand]
    cases operand? (operandRadix text) (operandText text) with
    | some parsed => simp
    | none => simp
  · intro hNone
    have hFailed : operand? (operandRadix text) (operandText text) = none :=
      Option.eq_none_iff_forall_ne_some.mpr fun operand hParsed =>
        hNone operand ((hRead operand).mp hParsed)
    rw [parseOperand, hFailed]

/-- A pointer with blanks at all places where they may stand, and with an index that has gone to
the wrong side of its parenthesis. -/
theorem parseOperand_derives_pointer :
    let text := " ($fF ,\tX ) ".toList
    let malformed := "($40,Y)".toList
    operandText text ≠ ['A'] ∧ operandText malformed ≠ ['A'] ∧
      parseOperand text = .ok (.indirectX (.number 0xFF)) ∧
      (∀ operand, ¬ Operand.Derives .hex "(40,Y)".toList operand) ∧
      parseOperand malformed = .error (.invalidSyntax "(40,Y)".toList) := by
  intro text malformed
  have hText : operandText text ≠ ['A'] := by decide
  have hMalformed : operandText malformed ≠ ['A'] := by decide
  have hBlank : Blank [' '] := by decide
  have hNumber : Radix.hex.value? "fF".toList = some 0xFF := rfl
  have hDerives : Operand.Derives .hex (operandText text) (.indirectX (.number 0xFF)) :=
    .indirectX (w := []) (x := [' ']) (y := ['\t']) (z := [' ']) (by decide) hBlank (by decide)
      hBlank (.number hNumber)
  have hNone : ∀ operand, ¬ Operand.Derives .hex "(40,Y)".toList operand := by
    intro operand h
    cases ((parseOperand_derives hMalformed).1 operand).mpr h
  exact ⟨hText, hMalformed, ((parseOperand_derives hText).1 _).mpr hDerives, hNone,
    (parseOperand_derives hMalformed).2 hNone⟩

end Assembly
end Micro6502
