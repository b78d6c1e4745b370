import Mathlib.Data.List.TakeWhile
import Micro6502.Assembly.ByteList
import Micro6502.Assembly.Operand
import Micro6502.Proofs.Assembly.Layout
import Micro6502.Proofs.Machine.Operand
import Micro6502.Proofs.Text.Numeral
import Micro6502.Proofs.Text.Value

/-! Where numbers stand in a line of source. Each place is cut out of the text without a look
at what was read there; that a statement or an operand has the number of its place is then a
lemma about the reader. -/

namespace Micro6502

open Text

namespace Text

/-- What stands in front of the first `c`. -/
def upTo (c : Char) (text : Text) : Text := text.takeWhile (· ≠ c)

/-- What follows the first `c`. -/
def behind (c : Char) (text : Text) : Text := (text.dropWhile (· ≠ c)).drop 1

/-- The two sides of a cut are what stands in front of the first mark and what follows it. -/
theorem of_cut? {c : Char} {text before tail : Text} (h : cut? c text = some (before, tail)) :
    upTo c text = before ∧ behind c text = tail := by
  obtain ⟨rfl, hBefore⟩ := eq_append_of_cut? h
  have hPlain : ∀ d ∈ before, decide (d ≠ c) = true := fun d hMem =>
    decide_eq_true fun hSame => hBefore (hSame ▸ hMem)
  constructor
  · rw [upTo, List.takeWhile_append_of_pos hPlain, List.takeWhile_cons_of_neg (by simp),
      List.append_nil]
  · rw [behind, List.dropWhile_append_of_pos hPlain, List.dropWhile_cons_of_neg (by simp),
      List.drop_one, List.tail_cons]

theorem upTo_eq_self {c : Char} {text : Text} (h : cut? c text = none) : upTo c text = text := by
  have hMem := cut?_eq_none_iff.mp h
  exact List.takeWhile_eq_self_iff.mpr fun d hd => decide_eq_true fun hSame => hMem (hSame ▸ hd)

/-- A mark behind blanks alone is the first of its kind. -/
theorem behind_trimStart {c first : Char} {text rest : Text} (hFirst : first ≠ c)
    (hBlank : isBlank c = false) (h : after? c (trimStart text) = some rest) :
    behind c (first :: text) = rest := by
  have hText : first :: text = (first :: text.takeWhile isBlank) ++ c :: rest := by
    rw [List.cons_append, ← eq_cons_of_after? h, trimStart, List.takeWhile_append_dropWhile]
  have hFront : c ∉ first :: text.takeWhile isBlank := by
    rw [List.mem_cons, not_or]
    refine ⟨hFirst.symm, fun hMem => ?_⟩
    have hTrue := List.mem_takeWhile_imp hMem
    rw [hBlank] at hTrue
    cases hTrue
  rw [hText]
  exact (of_cut? (cut?_append hFront)).2

end Text

namespace Assembly

/-- What follows the first sign of an expression. -/
def behindSign (text : Text) : Text := (text.dropWhile fun c => c ≠ '+' ∧ c ≠ '-').drop 1

/-- The right side of a cut at a sign is what follows the first sign, whichever it is. -/
theorem behindSign_of_cut {text before tail : Text} {negative : Bool}
    (h : cutAtSign? text = some (before, negative, tail)) : behindSign text = tail := by
  induction text generalizing before with
  | nil => cases h
  | cons c rest ih =>
      unfold cutAtSign? at h
      unfold behindSign at ih ⊢
      split at h
      next hPlus =>
        cases h
        rw [List.dropWhile_cons_of_neg (by simp [hPlus]), List.drop_one, List.tail_cons]
      next hPlus =>
        split at h
        next hMinus =>
          cases h
          rw [List.dropWhile_cons_of_neg (by simp [hMinus]), List.drop_one, List.tail_cons]
        next hMinus =>
          split at h
          next => cases h
          next hRest =>
            cases h
            rw [List.dropWhile_cons_of_pos (by simp [hPlus, hMinus])]
            exact ih hRest

/-- The ways in which a line of code is read as a statement. -/
inductive Reads (text : Text) : Statement → Prop
  | setAddress {rest value : Text} {address : Address} (hStar : after? '*' text = some rest)
      (hEquals : after? '=' (trimStart rest) = some value)
      (hAddress : parseAddress (trim value) = .ok address) : Reads text (.setAddress address)
  | labelMath {left expression middle right : Text} {negative : Bool} {distance : Nat}
      (hEquals : cut? '=' text = some (left, expression))
      (hSign : cutAtSign? expression = some (middle, negative, right))
      (hDistance : readDistance? (trim right) = some distance) :
      Reads text (.labelMath (trim left) (trim middle)
        (if negative then -(distance : Int) else distance))
  | addressLabel {front rest : Text} {address : Address}
      (hColon : cut? ':' text = some (front, rest))
      (hAddress : parseAddress front = .ok address) :
      Reads text (.addressLabel address (trim rest))
  | label {front rest : Text} (hColon : cut? ':' text = some (front, rest)) :
      Reads text (.label front (trim rest))
  | instruction {mnemonic operand : Text}
      (hInstruction : parseInstruction text = .ok (mnemonic, operand)) :
      Reads text (.instruction mnemonic operand)

theorem reads_of_classifyInstruction {text : Text} {statement : Statement}
    (h : classifyInstruction text = .ok statement) : Reads text statement := by
  unfold classifyInstruction at h
  split at h
  next => cases h
  next hInstruction =>
    cases h
    exact .instruction hInstruction

/-- A line with a colon is a label with an address or with a name, or falls through to an
instruction. -/
theorem reads_of_classifyLabelled {text : Text} {statement : Statement}
    (h : classifyLabelled text = .ok statement) : Reads text statement := by
  unfold classifyLabelled at h
  split at h
  next => exact reads_of_classifyInstruction h
  next hColon =>
    split at h
    next =>
      split at h
      next => cases h
      next hAddress =>
        cases h
        exact .addressLabel hColon hAddress
    next =>
      split at h
      next =>
        cases h
        exact .label hColon
      next => exact reads_of_classifyInstruction h

/-- A definition by another label has its parts on both sides of the equals sign and of the
operator. -/
theorem reads_of_labelMath {text : Text} {statement : Statement}
    (h : labelMath? text = some statement) : Reads text statement := by
  unfold labelMath? at h
  split at h
  next => cases h
  next hEquals =>
    split at h
    next => cases h
    next hSign =>
      dsimp only at h
      split at h
      next =>
        split at h
        next => cases h
        next hDistance =>
          cases h
          exact .labelMath hEquals hSign hDistance
      next => cases h

theorem reads_of_classify {text : Text} {statement : Statement}
    (h : classify text = .ok statement) : Reads text statement := by
  unfold classify at h
  split at h
  next rest hStar =>
    split at h
    next => cases h
    next address hParse =>
      cases h
      unfold parseSetAddress at hParse
      split at hParse
      next => cases hParse
      next value hEquals => exact .setAddress hStar hEquals hParse
  next =>
    split at h
    next hMath =>
      cases h
      exact reads_of_labelMath hMath
    next => exact reads_of_classifyLabelled h

theorem reads_of_statement? {line : Text} {statement : Statement}
    (h : statement? line = some statement) : Reads (normalize line) statement := by
  unfold statement? at h
  split at h
  next => cases h
  next => exact reads_of_classify (except_toOption_eq_some.mp h)

/-- An address has the exact value of its text. Reading is capped, but above all addresses. -/
theorem value?_of_parseAddress {text : Text} {address : Address}
    (h : parseAddress text = .ok address) : (marked text).value? = some address.toNat := by
  unfold parseAddress at h
  split at h
  next => cases h
  next value hRead =>
    split at h
    next hRange =>
      cases h
      rw [UInt16.toNat_ofNat', Nat.mod_eq_of_lt hRange]
      refine Numeral.value?_of_read? ((read?_marked text).trans hRead) ?_
      exact Nat.lt_trans hRange (by decide)
    next => cases h

namespace Reads

variable {text : Text}

/-- The address that code continues at stands behind the equals sign. -/
theorem value?_setAddress {address : Address} (h : Reads text (.setAddress address)) :
    (marked (trim (behind '=' text))).value? = some address.toNat := by
  cases h with
  | setAddress hStar hEquals hAddress =>
      rw [eq_cons_of_after? hStar, behind_trimStart (by decide) (by decide) hEquals]
      exact value?_of_parseAddress hAddress

/-- The address of a label without a name stands in front of the colon. -/
theorem value?_addressLabel {address : Address} {rest : Text}
    (h : Reads text (.addressLabel address rest)) :
    (marked (upTo ':' text)).value? = some address.toNat := by
  cases h with
  | addressLabel hColon hAddress =>
      rw [(of_cut? hColon).1]
      exact value?_of_parseAddress hAddress

/-- The distance stands behind the first sign of what follows the equals sign. -/
theorem value?_labelMath {name dependency : Text} {offset : Int}
    (h : Reads text (.labelMath name dependency offset)) :
    Radix.decimal.value? (trim (behindSign (behind '=' text))) = some offset.natAbs := by
  cases h with
  | @labelMath left expression middle right negative distance hEquals hSign hDistance =>
      have hOffset : (if negative = true then -(distance : Int) else distance).natAbs =
          distance := by cases negative <;> simp
      rw [(of_cut? hEquals).2, behindSign_of_cut hSign, hOffset]
      unfold readDistance? at hDistance
      split at hDistance
      next hShort =>
        rw [Radix.read?_eq_min, Option.map_eq_some_iff] at hDistance
        obtain ⟨value, hValue, hMin⟩ := hDistance
        have hLimit : value < numeralLimit := calc
          value < 10 ^ (trim right).length := Radix.value?_lt hValue
          _ ≤ 10 ^ 3 := Nat.pow_le_pow_right (by decide) hShort
          _ ≤ numeralLimit := by decide
        obtain rfl : value = distance := by omega
        exact hValue
      next => cases hDistance

end Reads

/-- The entries of a value list, next to the bytes that they are read as. -/
theorem value?_of_parseByteList {text : Text} {bytes : List Byte}
    (h : parseByteList text = .ok bytes) :
    List.Forall₂ (fun entry byte => (marked (trim entry)).value? = some byte.toNat)
      (fields ',' text) bytes := by
  refine (forall₂_of_mapM h).imp fun entry byte hByte => ?_
  unfold parseByte at hByte
  split at hByte
  next => cases hByte
  next value hRead =>
    split at hByte
    next hRange =>
      cases hByte
      rw [UInt8.toNat_ofNat', Nat.mod_eq_of_lt (Nat.lt_succ_of_le hRange)]
      refine Numeral.value?_of_read? ((read?_marked _).trans hRead) ?_
      exact Nat.lt_of_le_of_lt hRange (by decide)
    next => cases hByte

/-- The part of an operand that stands for its value: what follows a `#`, and otherwise what
is in front of a comma and inside of parentheses, if there are any. -/
def valueText (text : Text) : Text :=
  match after? '#' text with
  | some inner => trim inner
  | none => match after? '(' text with
    | some inner => trim (upTo ',' (upTo ')' inner))
    | none => trim (upTo ',' text)

/-- The number that may stand in an operand, in the radix of the operand. -/
def operandNumeral (text : Text) : Numeral :=
  { radix := operandRadix text, digits := valueText (operandText text) }

section

variable {radix : Radix} {text : Text} {operand : Operand}

theorem number?_of_value? {value : Value} (h : value? radix text = some value) :
    value.number? = radix.read? (trim text) := by
  simp only [value?] at h
  split at h
  next number hRead =>
    cases h
    exact hRead.symm
  next hRead =>
    split at h
    next =>
      cases h
      exact hRead.symm
    next => cases h

/-- The shape around a value adds no number to it. -/
theorem number?_of_map {shape : Value → Operand}
    (hShape : ∀ value, (shape value).number? = value.number?)
    (h : (value? radix text).map shape = some operand) :
    operand.number? = radix.read? (trim text) := by
  obtain ⟨value, hValue, rfl⟩ := Option.map_eq_some_iff.mp h
  rw [hShape, number?_of_value? hValue]

/-- A text that does not start with a digit is not read. -/
theorem read?_cons_of_not_digit {c : Char} (h : radix.digit? c = none) (rest : Text) :
    radix.read? (c :: rest) = none := by
  rw [Radix.read?_eq (List.cons_ne_nil c rest), Radix.readFrom, h]

theorem number?_of_immediateLabel? {select : ByteSelect}
    (h : immediateLabel? select text = some operand) : operand.number? = none := by
  simp only [immediateLabel?] at h
  split at h
  next =>
    cases h
    rfl
  next => cases h

/-- The number of an immediate operand is all that follows the sign. -/
theorem number?_of_immediate? (h : immediate? radix text = some operand) :
    operand.number? = radix.read? (trim text) := by
  simp only [immediate?] at h
  split at h
  next label hLow =>
    have hSign : radix.digit? '<' = none := by cases radix <;> decide
    rw [number?_of_immediateLabel? h, eq_cons_of_after? hLow, read?_cons_of_not_digit hSign]
  next =>
    split at h
    next label hHigh =>
      have hSign : radix.digit? '>' = none := by cases radix <;> decide
      rw [number?_of_immediateLabel? h, eq_cons_of_after? hHigh, read?_cons_of_not_digit hSign]
    next =>
      obtain ⟨number, hRead, rfl⟩ := Option.map_eq_some_iff.mp h
      exact hRead.symm

/-- The number in parentheses ends at the comma or with the parentheses. -/
theorem number?_of_indirect? {inside behind : Text}
    (h : indirect? radix inside behind = some operand) :
    operand.number? = radix.read? (trim (upTo ',' inside)) := by
  simp only [indirect?] at h
  split at h
  next value index hComma =>
    split at h
    next =>
      rw [(of_cut? hComma).1]
      exact number?_of_map (fun _ => rfl) h
    next => cases h
  next hComma =>
    rw [upTo_eq_self hComma]
    split at h
    next => exact number?_of_map (fun _ => rfl) h
    next =>
      split at h
      next => cases h
      next =>
        split at h
        next => exact number?_of_map (fun _ => rfl) h
        next => cases h

/-- The number of a direct operand ends at the comma. -/
theorem number?_of_direct? (h : direct? radix text = some operand) :
    operand.number? = radix.read? (trim (upTo ',' text)) := by
  simp only [direct?] at h
  split at h
  next hComma =>
    rw [upTo_eq_self hComma]
    exact number?_of_map (fun _ => rfl) h
  next value index hComma =>
    rw [(of_cut? hComma).1]
    split at h
    next => exact number?_of_map (fun _ => rfl) h
    next =>
      split at h
      next => exact number?_of_map (fun _ => rfl) h
      next => cases h

/-- An operand has the number that is read from its place in the text, and no number if none is
read there. `A` alone is not read as a number in any radix. -/
theorem number?_of_operand? (h : operand? radix text = some operand)
    (hOperand : operand ≠ .accumulator) :
    operand.number? = radix.read? (valueText text) := by
  unfold operand? at h
  split at h
  next hEmpty =>
    cases h
    rw [hEmpty]
    rfl
  next =>
    split at h
    next =>
      cases h
      exact absurd rfl hOperand
    next =>
      unfold valueText
      cases hHash : after? '#' text with
      | some inner =>
          simp only [hHash] at h ⊢
          exact number?_of_immediate? h
      | none =>
          simp only [hHash] at h ⊢
          cases hParen : after? '(' text with
          | none =>
              simp only [hParen] at h ⊢
              exact number?_of_direct? h
          | some inner =>
              simp only [hParen] at h ⊢
              cases hClose : cut? ')' inner with
              | none =>
                  rw [hClose] at h
                  cases h
              | some parts =>
                  rw [hClose] at h
                  rw [(of_cut? hClose).1]
                  exact number?_of_indirect? h

/-- An operand has the number of its place in the text as it came, in the radix that a dollar sign
anywhere in it selects. -/
theorem number?_of_parseOperand (h : parseOperand text = .ok operand)
    (hOperand : operand ≠ .accumulator) : operand.number? = (operandNumeral text).read? := by
  unfold parseOperand at h
  split at h
  next parsed hParsed =>
    cases h
    exact number?_of_operand? hParsed hOperand
  next => cases h

end

end Assembly
end Micro6502
