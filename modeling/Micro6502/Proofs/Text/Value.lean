import Mathlib.Data.Nat.Digits.Defs
import Micro6502.Text.Numeral

/-! The value of a string of digits, and what is read of it. Reading stops growing at a limit,
so it yields the value where this lies below the limit, and the limit everywhere else. -/

namespace Micro6502.Text

/-- The value of a non-empty string of digits of any length, the most significant one first. -/
def Radix.value? (radix : Radix) (digits : Text) : Option Nat :=
  if digits = [] then none
  else (digits.mapM radix.digit?).map fun values => Nat.ofDigits radix.base values.reverse

/-- What more digits make of a number whose earlier digits amount to `value`. -/
def Radix.extend (radix : Radix) (value : Nat) (digits : List Nat) : Nat :=
  digits.foldl (fun value digit => digit + radix.base * value) value

/-- From nothing on, extending by digits is the value of the digits in the base. -/
theorem Radix.extend_zero (radix : Radix) (digits : List Nat) :
    radix.extend 0 digits = Nat.ofDigits radix.base digits.reverse := by
  rw [Nat.ofDigits_eq_foldr, List.foldr_reverse]
  rfl

/-- A number that has reached the limit once stays there. -/
theorem Radix.min_step (radix : Radix) (value digit : Nat) :
    min (min value numeralLimit * radix.base + digit) numeralLimit =
      min (digit + radix.base * value) numeralLimit := by
  have hBase : 1 ≤ radix.base := by cases radix <;> decide
  rw [Nat.add_comm digit, Nat.mul_comm radix.base]
  rcases Nat.le_total value numeralLimit with hBelow | hAbove
  · rw [Nat.min_eq_left hBelow]
  · have hGrown : numeralLimit ≤ numeralLimit * radix.base := Nat.le_mul_of_pos_right _ hBase
    have hLarger := Nat.mul_le_mul_right radix.base hAbove
    rw [Nat.min_eq_right hAbove, Nat.min_eq_right (by omega), Nat.min_eq_right (by omega)]

/-- Reading goes on from a number that may be cut off already. It comes to the true number, cut
off at the same limit, because what is above the limit never falls below it again. -/
theorem Radix.readFrom_eq (radix : Radix) (value : Nat) (digits : Text) :
    radix.readFrom (min value numeralLimit) digits =
      (digits.mapM radix.digit?).map
        fun values => min (radix.extend value values) numeralLimit := by
  induction digits generalizing value with
  | nil => rfl
  | cons c rest ih =>
      rw [Radix.readFrom, List.mapM_cons]
      cases radix.digit? c with
      | none => rfl
      | some digit =>
          dsimp only
          rw [radix.min_step, ih]
          cases rest.mapM radix.digit? with
          | none => rfl
          | some values => rfl

/-- Reading yields the value, up to the limit. -/
theorem Radix.read?_eq_min (radix : Radix) (digits : Text) :
    radix.read? digits = (radix.value? digits).map (min · numeralLimit) := by
  unfold Radix.read? Radix.value?
  cases digits with
  | nil => rfl
  | cons c rest =>
      have hRead := radix.readFrom_eq 0 (c :: rest)
      rw [if_neg (by simp), if_neg (List.cons_ne_nil c rest), Option.map_map]
      rw [Nat.zero_min] at hRead
      simp only [hRead, radix.extend_zero]
      rfl

theorem Radix.digit?_lt {radix : Radix} {c : Char} {digit : Nat}
    (h : radix.digit? c = some digit) : digit < radix.base := by
  have hLe : ∀ d e : Char, d ≤ e ↔ d.toNat ≤ e.toNat := fun _ _ => UInt32.le_iff_toNat_le
  simp only [Radix.digit?, hLe, Char.reduceToNat] at h
  cases radix with
  | decimal => grind [Radix.base]
  | hex => grind [Radix.base]

/-- Every character of a number is one digit below the base, and none is left out. -/
theorem Radix.mapM_digit? {radix : Radix} {digits : Text} {values : List Nat}
    (h : digits.mapM radix.digit? = some values) :
    values.length = digits.length ∧ ∀ digit ∈ values, digit < radix.base := by
  induction digits generalizing values with
  | nil =>
      cases h
      exact ⟨rfl, by simp⟩
  | cons c rest ih =>
      simp only [List.mapM_cons, Option.bind_eq_bind, Option.bind_eq_some_iff] at h
      obtain ⟨digit, hDigit, others, hOthers, hPure⟩ := h
      cases hPure
      obtain ⟨hLength, hRest⟩ := ih hOthers
      exact ⟨congrArg (· + 1) hLength, List.forall_mem_cons.mpr ⟨digit?_lt hDigit, hRest⟩⟩

/-- A number of so many digits lies below that power of the base. -/
theorem Radix.value?_lt {radix : Radix} {digits : Text} {value : Nat}
    (h : radix.value? digits = some value) : value < radix.base ^ digits.length := by
  have hBase : 1 < radix.base := by cases radix <;> decide
  unfold Radix.value? at h
  split at h
  next => cases h
  next =>
    obtain ⟨values, hValues, rfl⟩ := Option.map_eq_some_iff.mp h
    obtain ⟨hLength, hDigits⟩ := Radix.mapM_digit? hValues
    rw [← hLength, ← List.length_reverse]
    exact Nat.ofDigits_lt_base_pow_length hBase fun digit hMem =>
      hDigits digit (List.mem_reverse.mp hMem)

/-- A string of digits with its radix. -/
structure Numeral where
  radix : Radix
  digits : Text

namespace Numeral

def value? (numeral : Numeral) : Option Nat := numeral.radix.value? numeral.digits

def read? (numeral : Numeral) : Option Nat := numeral.radix.read? numeral.digits

/-- A number below the limit is the value of what it was read from. -/
theorem value?_of_read? {numeral : Numeral} {number : Nat}
    (h : numeral.read? = some number) (hLimit : number < numeralLimit) :
    numeral.value? = some number := by
  unfold read? at h
  rw [Radix.read?_eq_min, Option.map_eq_some_iff] at h
  obtain ⟨value, hValue, hMin⟩ := h
  obtain rfl : value = number := by omega
  exact hValue

theorem value?_eq_none {numeral : Numeral} (h : numeral.read? = none) : numeral.value? = none := by
  unfold read? at h
  rw [Radix.read?_eq_min, Option.map_eq_none_iff] at h
  exact h

end Numeral

/-- A text that carries its own radix, as a numeral. -/
def marked (text : Text) : Numeral :=
  match after? '$' text with
  | some digits => { radix := .hex, digits }
  | none => { radix := .decimal, digits := text }

/-- A text that carries its own radix is read as the numeral that it stands for. -/
theorem read?_marked (text : Text) : (marked text).read? = readMarked? text := by
  unfold marked readMarked?
  cases after? '$' text with
  | some digits | none => rfl

end Micro6502.Text
