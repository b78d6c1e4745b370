import Micro6502.Proofs.Assembly.Grammar

/-! The forms of a line, written down apart from the tests that tell them from each other. The
tests are made one after the other on texts that may hold what they look for by chance; still, a
line that is written in one of the forms is taken for what it is. -/

namespace Micro6502

namespace Text

/-- One or more digits of a radix. -/
structure Digits (radix : Radix) where
  text : Text
  ne_nil : text ≠ []
  subset : text ⊆ radix.alphabet

namespace Digits

variable {radix : Radix} (digits : Digits radix)

theorem isSome_value? : (radix.value? digits.text).isSome = true :=
  Option.isSome_iff_exists.mpr (Radix.exists_value?.mpr ⟨digits.ne_nil, digits.subset⟩)

/-- The number that the digits stand for, however many there are. -/
def value : Nat := (radix.value? digits.text).get digits.isSome_value?

theorem read?_text : radix.read? digits.text = some (min digits.value numeralLimit) := by
  rw [Radix.read?_eq_min, ← Option.some_get digits.isSome_value?]
  rfl

/-- There are digits, and nothing but digits. -/
theorem passes_test :
    (!digits.text.isEmpty && digits.text.all fun c => (radix.digit? c).isSome) = true := by
  simp only [Bool.and_eq_true, Bool.not_eq_true', List.isEmpty_eq_false_iff, List.all_eq_true]
  exact ⟨digits.ne_nil, fun c hc => Radix.isSome_digit?.mpr (digits.subset hc)⟩

theorem word : digits.text ⊆ Assembly.wordAlphabet :=
  (Assembly.Radix.subset_of_value? (Option.some_get digits.isSome_value?).symm).2

theorem notMem {c : Char} (h : c ∉ Assembly.wordAlphabet) : c ∉ digits.text :=
  fun hMem => h (digits.word hMem)

end Digits

theorem after?_eq_none_of_head? {c : Char} {text : Text} (h : text.head? ≠ some c) :
    after? c text = none := by
  cases text with
  | nil => rfl
  | cons d rest => exact if_neg fun hSame => h (congrArg some hSame)

/-- Of two different marks in a text, the one that comes first stands in front of the other. -/
theorem mem_of_append_eq {c d : Char} {front rest left right : Text}
    (h : front ++ c :: rest = left ++ d :: right) (hFront : d ∉ front) (hOther : c ≠ d) :
    c ∈ left := by
  rcases List.append_eq_append_iff.mp h with ⟨more, rfl, hBack⟩ | ⟨more, rfl, hBack⟩
  · cases more with
    | nil => exact absurd (List.cons.inj hBack).1 hOther
    | cons e more =>
        obtain ⟨rfl, -⟩ := List.cons.inj hBack
        simp
  · cases more with
    | nil => exact absurd (List.cons.inj hBack).1.symm hOther
    | cons e more =>
        obtain ⟨rfl, -⟩ := List.cons.inj hBack
        simp at hFront

/-- What a text begins with is told from its front, whatever follows. -/
theorem after?_append_eq_none {c : Char} {front : Text} (hFront : front ≠ []) (h : c ∉ front)
    (rest : Text) : after? c (front ++ rest) = none := by
  cases front with
  | nil => contradiction
  | cons d front =>
      apply after?_eq_none_of_head?
      rintro ⟨⟩
      exact h List.mem_cons_self

end Text

namespace Assembly

open Text

/-- An address as it is written, in hexadecimal behind a `$` or in decimal. -/
inductive AddressText where
  | hex (digits : Digits .hex)
  | decimal (digits : Digits .decimal)

namespace AddressText

def text : AddressText → Text
  | hex digits => '$' :: digits.text
  | decimal digits => digits.text

def value : AddressText → Nat
  | hex digits => digits.value
  | decimal digits => digits.value

/-- What comes of it: the exact address, if there is one of that value. -/
def read (written : AddressText) : Except Cause Address :=
  if h : written.value < 0x10000 then .ok (.ofNatLT written.value h)
  else .error (.addressOutOfRange written.text)

end AddressText

/-- Text that is all blanks, and may be empty. -/
abbrev Blanks := { text : Text // Blank text }

abbrev LabelName := { text : Text // IsLabel text }

/-- The forms of a line, with the blanks between their parts. A line without any mark is there for
an instruction, but it need not be one. -/
inductive LineForm where
  | labelMath (name : LabelName) (w x : Blanks) (dependency : LabelName) (y : Blanks)
      (negative : Bool) (z : Blanks) (distance : Digits .decimal)
      (hDistance : distance.text.length ≤ 3)
  | setAddress (w x : Blanks) (address : AddressText)
  | addressLabel (address : AddressText) (rest : Text)
  | label (name : LabelName) (rest : Text)
  | unmarked (line : Text) (hStar : line.head? ≠ some '*') (hEquals : '=' ∉ line)
      (hColon : ':' ∉ line)

namespace LineForm

def text : LineForm → Text
  | labelMath name w x dependency y negative z distance _ =>
    name ++ w ++ '=' :: (x ++ dependency ++ y ++ (if negative then '-' else '+') ::
      (z ++ distance.text))
  | setAddress w x address => '*' :: (w ++ '=' :: (x ++ address.text))
  | addressLabel address rest => address.text ++ ':' :: rest
  | label name rest => name ++ ':' :: rest
  | unmarked line _ _ _ => line

/-- What the line says. -/
def statement : LineForm → Except Cause Statement
  | labelMath name _ _ dependency _ negative _ distance _ =>
    .ok (.labelMath name dependency (if negative then -(distance.value : Int) else distance.value))
  | setAddress _ _ address => address.read.map .setAddress
  | addressLabel address rest => address.read.map fun place => .addressLabel place (trim rest)
  | label name rest => .ok (.label name (trim rest))
  | unmarked line _ _ _ =>
    if 3 ≤ line.length ∧ line.take 3 ⊆ Catalog.letters then
      .ok (.instruction (line.take 3) (trim (line.drop 3)))
    else .error (.invalidSyntax line)

end LineForm

section

variable {front rest line : Text}

theorem cutAtSign?_append (hPlus : '+' ∉ front) (hMinus : '-' ∉ front) (negative : Bool)
    (rest : Text) : cutAtSign? (front ++ (if negative then '-' else '+') :: rest) =
      some (front, negative, rest) := by
  induction front with
  | nil => cases negative <;> rfl
  | cons c front ih =>
      rw [List.mem_cons, not_or] at hPlus hMinus
      rw [List.cons_append, cutAtSign?, if_neg (Ne.symm hPlus.1), if_neg (Ne.symm hMinus.1),
        ih hPlus.2 hMinus.2]

/-- No name is found in front of an equals sign that stands behind a colon. -/
theorem labelMath?_eq_none (hFront : '=' ∉ front) : labelMath? (front ++ ':' :: rest) = none := by
  rw [labelMath?]
  split
  next => rfl
  next left expression hCut =>
    have hColon : ':' ∈ left := mem_of_append_eq (eq_append_of_cut? hCut).1 hFront (by decide)
    have hName : isLabelName (trim left) = false := by
      rw [← Bool.not_eq_true, isLabelName_iff]
      intro hLabel
      obtain ⟨w, x, hw, hx, hTrim⟩ := exists_trim left
      rw [hTrim, List.mem_append, List.mem_append] at hColon
      rcases hColon with (hMem | hMem) | hMem
      · exact hw.notMem (by decide) hMem
      · exact absurd (hLabel.subset hMem) (by decide)
      · exact hx.notMem (by decide) hMem
    split
    next => rfl
    next => simp [hName]

theorem readMarked?_text (address : AddressText) :
    readMarked? address.text = some (min address.value numeralLimit) := by
  cases address with
  | hex digits => exact digits.read?_text
  | decimal digits =>
      rw [readMarked?, AddressText.text, after?_eq_none (digits.notMem (by decide))]
      exact digits.read?_text

/-- Any address of at most sixteen bits is read exactly. The limit of reading lies above that, so
a larger one is noticed. -/
theorem parseAddress_text (address : AddressText) : parseAddress address.text = address.read := by
  rw [parseAddress, readMarked?_text, AddressText.read]
  by_cases hBound : address.value < 0x10000
  · have hMin : min address.value numeralLimit = address.value :=
      Nat.min_eq_left (by rw [numeralLimit]; omega)
    simp only [hMin, hBound, if_true, dif_pos]
    rw [UInt16.ofNatLT_eq_ofNat]
  · have hMin : ¬ min address.value numeralLimit < 0x10000 := by
      rw [numeralLimit]
      omega
    simp only [hMin, hBound, if_false, dif_neg, not_false_eq_true]

theorem isAddressForm_text (address : AddressText) : isAddressForm address.text = true := by
  cases address with
  | hex digits => exact digits.passes_test
  | decimal digits =>
      rw [isAddressForm, AddressText.text, after?_eq_none (digits.notMem (by decide))]
      exact digits.passes_test

/-- A name is no number, for it begins with a letter. -/
theorem IsLabel.isAddressForm_eq_false {name : Text} (h : IsLabel name) :
    isAddressForm name = false := by
  have hMark : after? '$' name = none :=
    after?_eq_none fun hMem => absurd (h.subset hMem) (by decide)
  obtain ⟨hFirst, -, -⟩ := h
  have hLetters : ∀ c ∈ Catalog.letters, (Radix.decimal.digit? c).isSome = false :=
    List.all_iff_forall_prop.mp (by decide)
  rw [isAddressForm, hMark]
  simp [hLetters _ hFirst]

theorem AddressText.notMem (address : AddressText) {c : Char} (h : c ∉ '$' :: wordAlphabet) :
    c ∉ address.text := by
  cases address with
  | hex digits => exact fun hMem => h (List.cons_subset_cons '$' digits.word hMem)
  | decimal digits => exact digits.notMem fun hMem => h (List.mem_cons_of_mem _ hMem)

theorem AddressText.ne_nil (address : AddressText) : address.text ≠ [] := by
  cases address with
  | hex digits => exact List.cons_ne_nil _ _
  | decimal digits => exact digits.ne_nil

theorem AddressText.solid (address : AddressText) : Solid address.text := by
  intro c hc
  have hAll : Solid ('$' :: wordAlphabet) := by decide
  by_contra hBlank
  exact address.notMem (fun hMem => hBlank (hAll c hMem)) hc

/-- Blanks may stand on both sides of the equals sign, and the star decides before anything else
does. -/
theorem classify_setAddress (w x : Blanks) (address : AddressText) :
    classify ('*' :: (w ++ '=' :: (x ++ address.text))) = address.read.map .setAddress := by
  have hStart : trimStart (w ++ '=' :: (x ++ address.text)) = '=' :: (x ++ address.text) := by
    rw [trimStart, List.dropWhile_append_of_pos w.property]
    exact List.dropWhile_cons_of_neg (by decide)
  have hTrim : trim (x ++ address.text) = address.text := by
    rw [trim_blank_append x.property, address.solid.trim_eq]
  have hParse : parseSetAddress (w ++ '=' :: (x ++ address.text)) = address.read := by
    rw [parseSetAddress, hStart, ← parseAddress_text]
    exact congrArg parseAddress hTrim
  simp only [classify, after?, if_true, hParse]
  cases address.read with
  | error cause | ok place => rfl

/-- No test that comes earlier holds of a line with a colon. -/
theorem classify_colon (hFront : front ≠ []) (hStar : '*' ∉ front) (hEquals : '=' ∉ front)
    (rest : Text) : classify (front ++ ':' :: rest) = classifyLabelled (front ++ ':' :: rest) := by
  rw [classify, after?_append_eq_none hFront hStar, labelMath?_eq_none hEquals]

/-- An address in front of a colon is taken for one, though its characters could be those of a
name. -/
theorem classify_addressLabel (address : AddressText) (rest : Text) :
    classify (address.text ++ ':' :: rest) =
      address.read.map fun place => .addressLabel place (trim rest) := by
  rw [classify_colon address.ne_nil (address.notMem (by decide)) (address.notMem (by decide)),
    classifyLabelled, cut?_append (address.notMem (by decide))]
  simp only [isAddressForm_text, if_true, parseAddress_text]
  cases address.read with
  | error cause | ok place => rfl

/-- A name in front of a colon is a label, also if it is a mnemonic. -/
theorem classify_label {name : Text} (hName : IsLabel name) (rest : Text) :
    classify (name ++ ':' :: rest) = .ok (.label name (trim rest)) := by
  have hMark : ∀ {c : Char}, c ∉ labelAlphabet → c ∉ name := fun hc hMem => hc (hName.subset hMem)
  rw [classify_colon hName.ne_nil (hMark (by decide)) (hMark (by decide)), classifyLabelled,
    cut?_append (hMark (by decide))]
  simp [hName.isAddressForm_eq_false, isLabelName_iff.mpr hName]

/-- Three capitals and an operand are an instruction, whether one of that name exists or not. -/
theorem classifyInstruction_eq (line : Text) : classifyInstruction line =
    if 3 ≤ line.length ∧ line.take 3 ⊆ Catalog.letters then
      .ok (.instruction (line.take 3) (trim (line.drop 3)))
    else .error (.invalidSyntax line) := by
  match line with
  | [] | [_] | [_, _] => rfl
  | c :: d :: e :: rest =>
      have hLetters :
          [c, d, e] ⊆ Catalog.letters ↔ (c.isUpper && d.isUpper && e.isUpper) = true := by
        simp [isUpper_iff, and_assoc]
      rw [classifyInstruction, parseInstruction]
      by_cases hUpper : (c.isUpper && d.isUpper && e.isUpper) = true
      · rw [if_pos hUpper, if_pos ⟨by simp, hLetters.mpr hUpper⟩]
        rfl
      · rw [if_neg hUpper, if_neg fun hFront => hUpper (hLetters.mp hFront.2)]

/-- A line without marks is left to the last of the tests. -/
theorem classify_unmarked (hStar : line.head? ≠ some '*') (hEquals : '=' ∉ line)
    (hColon : ':' ∉ line) : classify line =
      if 3 ≤ line.length ∧ line.take 3 ⊆ Catalog.letters then
        .ok (.instruction (line.take 3) (trim (line.drop 3)))
      else .error (.invalidSyntax line) := by
  have hMath : labelMath? line = none := by
    rw [labelMath?, cut?_eq_none_iff.mpr hEquals]
  have hLabelled : classifyLabelled line = classifyInstruction line := by
    rw [classifyLabelled, cut?_eq_none_iff.mpr hColon]
  rw [classify, after?_eq_none_of_head? hStar, hMath, ← classifyInstruction_eq, ← hLabelled]

/-- No mark stands in a name with blanks around it. -/
theorem IsLabel.notMem {w name x : Text} (h : IsLabel name) (hw : Blank w) (hx : Blank x)
    {c : Char} (hBlank : isBlank c = false) (hLabel : c ∉ labelAlphabet) :
    c ∉ w ++ name ++ x := by
  simp only [List.mem_append, not_or]
  exact ⟨⟨hw.notMem hBlank, fun hMem => hLabel (h.subset hMem)⟩, hx.notMem hBlank⟩

theorem IsLabel.trim_eq {w name x : Text} (h : IsLabel name) (hw : Blank w) (hx : Blank x) :
    trim (w ++ name ++ x) = name := by
  have hSolid : Solid name := solid_of_word (List.subset_append_of_subset_left _ h.subset)
  exact hSolid.trim_eq_iff.mpr ⟨w, x, hw, hx, rfl⟩

theorem readDistance?_text {z : Text} (hz : Blank z) {distance : Digits .decimal}
    (hDistance : distance.text.length ≤ 3) :
    readDistance? (trim (z ++ distance.text)) = some distance.value := by
  have hTrim : trim (z ++ distance.text) = distance.text := by
    rw [trim_blank_append hz, (solid_of_word distance.word).trim_eq]
  have hValue : distance.value < 10 ^ 3 := by
    have hLess := Radix.value?_lt (Option.some_get distance.isSome_value?).symm
    exact Nat.lt_of_lt_of_le hLess (Nat.pow_le_pow_right (by decide) hDistance)
  have hMin : min distance.value numeralLimit = distance.value :=
    Nat.min_eq_left (by rw [numeralLimit]; omega)
  rw [hTrim, readDistance?, if_pos hDistance, distance.read?_text, hMin]

/-- A definition by another label is recognised with blanks anywhere between its parts, and the
sign goes to the distance. -/
theorem classify_labelMath {name w x dependency y z : Text} (hName : IsLabel name) (hw : Blank w)
    (hx : Blank x) (hDependency : IsLabel dependency) (hy : Blank y) (negative : Bool)
    (hz : Blank z) {distance : Digits .decimal} (hDistance : distance.text.length ≤ 3) :
    classify (name ++ w ++ '=' :: (x ++ dependency ++ y ++ (if negative then '-' else '+') ::
      (z ++ distance.text))) =
        .ok (.labelMath name dependency
          (if negative then -(distance.value : Int) else distance.value)) := by
  have hNone : name ++ w ≠ [] := List.append_ne_nil_of_left_ne_nil hName.ne_nil w
  have hNil : Blank [] := by decide
  have hLeft : ∀ {c : Char}, isBlank c = false → c ∉ labelAlphabet → c ∉ name ++ w :=
    hName.notMem hNil hw
  have hMiddle : ∀ {c : Char}, isBlank c = false → c ∉ labelAlphabet → c ∉ x ++ dependency ++ y :=
    hDependency.notMem hx hy
  have hTrim : trim (name ++ w) = name := hName.trim_eq hNil hw
  rw [classify, after?_append_eq_none hNone (hLeft (by decide) (by decide)), labelMath?,
    cut?_append (hLeft (by decide) (by decide))]
  simp only [cutAtSign?_append (hMiddle (c := '+') (by decide) (by decide))
    (hMiddle (c := '-') (by decide) (by decide)), hTrim, hDependency.trim_eq hx hy,
    isLabelName_iff.mpr hName, isLabelName_iff.mpr hDependency, readDistance?_text hz hDistance,
    Bool.and_self, if_true]

end

/-- A line that is written in one of the forms is taken for what it is. Names may be mnemonics,
numbers may have any number of digits, and what stands behind a label may hold the marks of the
other forms. An address that is too large is reported as it is written. -/
theorem classify_text (form : LineForm) : classify form.text = form.statement := by
  cases form with
  | labelMath name w x dependency y negative z distance hDistance =>
      exact classify_labelMath name.property w.property x.property dependency.property y.property
        negative z.property hDistance
  | setAddress w x address => exact classify_setAddress w x address
  | addressLabel address rest => exact classify_addressLabel address rest
  | label name rest => exact classify_label name.property rest
  | unmarked line hStar hEquals hColon => exact classify_unmarked hStar hEquals hColon

/-- Lines that look like lines of another form. -/
theorem classify_text_overlapping :
    classify "LDA: *=$5: A1 = B1 + 1".toList =
      .ok (.label "LDA".toList "*=$5: A1 = B1 + 1".toList) ∧
    classify "LDA =STA\t-007".toList = .ok (.labelMath "LDA".toList "STA".toList (-7)) ∧
    classify "$0000ffff:A1 = B1 + 1".toList = .ok (.addressLabel 0xFFFF "A1 = B1 + 1".toList) ∧
    classify "* = 99999999999999999999".toList =
      .error (.addressOutOfRange "99999999999999999999".toList) ∧
    classify "LD #1".toList = .error (.invalidSyntax "LD #1".toList) := by
  have hLabel := classify_text (.label ⟨"LDA".toList, isLabelName_iff.mp (by decide)⟩
    " *=$5: A1 = B1 + 1".toList)
  have hMath := classify_text (.labelMath ⟨"LDA".toList, isLabelName_iff.mp (by decide)⟩
    ⟨[' '], by decide⟩ ⟨[], by decide⟩ ⟨"STA".toList, isLabelName_iff.mp (by decide)⟩
    ⟨['\t'], by decide⟩ true ⟨[], by decide⟩ ⟨"007".toList, by decide, by decide⟩ (by decide))
  have hAddress := classify_text (.addressLabel
    (.hex ⟨"0000ffff".toList, by decide, by decide⟩) "A1 = B1 + 1".toList)
  have hBeyond := classify_text (.setAddress ⟨[' '], by decide⟩ ⟨[' '], by decide⟩
    (.decimal ⟨"99999999999999999999".toList, by decide, by decide⟩))
  have hUnmarked := classify_text (.unmarked "LD #1".toList (by decide) (by decide) (by decide))
  exact ⟨hLabel, hMath, hAddress, hBeyond, hUnmarked⟩

end Assembly
end Micro6502
