import Micro6502.Proofs.Assembly.Program
import Micro6502.Proofs.Assembly.Settling

/-! What the rest of the assembler sees of a table. An operand is encoded with the addresses of
settled labels, and a line that waits for a label is filled with one of them; nothing else that
a table says has a part in it. -/

namespace Micro6502.Assembly

section

variable {symbols other : SymbolTable}

/-- A label in an operand counts by its address alone, once it is settled. -/
theorem resolveValue_label (symbols : SymbolTable) (placeholder : Nat) (name : Text) :
    resolveValue symbols placeholder (.label name) = match symbols.address? name with
      | some address => (address.toNat, none)
      | none => (placeholder, some { name, select := .low }) := by
  cases hFound : symbols.lookup? name <;>
    simp only [resolveValue, SymbolTable.address?, hFound, Option.map_none, Option.map_some]

theorem encodeHalf_eq (mnemonic : Text) (forms : List Descriptor) (symbols : SymbolTable)
    (select : ByteSelect) (name : Text) :
    encodeHalf mnemonic forms symbols select name =
      require mnemonic forms .immediate >>= fun form => match symbols.address? name with
        | some address => .ok (emit form (select.apply address).toNat none)
        | none => .ok (emit form bytePlaceholder (some { name, select })) := by
  cases hFound : symbols.lookup? name <;>
    simp only [encodeHalf, SymbolTable.address?, hFound, Option.map_none, Option.map_some] <;> rfl

variable (h : ∀ name, other.address? name = symbols.address? name)

include h

theorem resolveValue_congr : resolveValue other = resolveValue symbols := by
  funext placeholder value
  cases value with
  | number value => rfl
  | label name => rw [resolveValue_label, resolveValue_label, h]

/-- Tables that give the same addresses for names give the same encodings. -/
theorem encode_congr (mnemonic : Text) (forms : List Descriptor) (operand : Operand)
    (address : Address) : encode mnemonic forms operand address other =
      encode mnemonic forms operand address symbols := by
  have hValue := resolveValue_congr h
  unfold encode
  cases Catalog.inMode? forms .relative with
  | some branch => cases operand <;> simp only [encodeBranch, hValue]
  | none =>
      cases operand with
      | immediateLabel select name => simp only [encodeHalf_eq, h]
      | _ => simp only [encodePointer, encodeIndexed, encodeIndirect, encodeDirect, hValue]

/-- The text of an operand is read without a look at the labels, and what it refers to is encoded
the same. -/
theorem encodeStatement_congr (forms? : FormLookup) (mnemonic operand : Text)
    (address : Address) : encodeStatement forms? mnemonic operand address other =
      encodeStatement forms? mnemonic operand address symbols := by
  simp only [encodeStatement, encode_congr h]

end

/-- A line of code with another number for its line of source. -/
def CodeLine.renumber (number : Nat → Nat) (code : CodeLine) : CodeLine :=
  { code with line := number code.line }

/-- A line of code without the number of its line of source. -/
def CodeLine.unnumbered (code : CodeLine) : CodeLine := { code with line := 0 }

/-- A line is filled in without a look at its number. -/
theorem CodeLine.fill_renumber (number : Nat → Nat) (code : CodeLine) (target : Address) :
    (code.renumber number).fill target = (code.fill target).map (renumber number) := by
  obtain ⟨address, bytes, descriptor, line, pending⟩ := code
  simp only [fill, renumber]
  split
  · split
    next hMode => exact if_pos hMode
    next hMode => exact if_neg hMode
  · rfl
  · rfl

theorem CodeLine.fill_unnumbered (code : CodeLine) (target : Address) :
    code.unnumbered.fill target = (code.fill target).map CodeLine.unnumbered :=
  code.fill_renumber (fun _ => 0) target

/-- Of two lines that differ in nothing but their numbers, both can be filled in or neither. -/
theorem CodeLine.exists_fill {code moved finished : CodeLine} {target : Address}
    (h : code.fill target = .ok finished) (hMoved : moved.unnumbered = code.unnumbered) :
    ∃ result, moved.fill target = .ok result ∧ result.unnumbered = finished.unnumbered := by
  have hFill := moved.fill_unnumbered target
  rw [hMoved, code.fill_unnumbered, h] at hFill
  cases hResult : moved.fill target with
  | error cause =>
      rw [hResult] at hFill
      cases hFill
  | ok result =>
      rw [hResult] at hFill
      exact ⟨result, rfl, (Except.ok.inj hFill).symm⟩

/-- What a line is filled with depends on the addresses of settled labels alone, and its number
plays no part in it. -/
theorem exists_fillLine {symbols other : SymbolTable} {code moved finished : CodeLine}
    (h : fillLine symbols code = .ok finished)
    (hAddress : ∀ name, other.address? name = symbols.address? name)
    (hMoved : moved.unnumbered = code.unnumbered) :
    ∃ result, fillLine other moved = .ok result ∧ result.unnumbered = finished.unnumbered := by
  have hPending : moved.pending = code.pending := by
    simpa only [CodeLine.unnumbered] using congrArg CodeLine.pending hMoved
  rcases fillLine_eq_ok h with ⟨hNone, rfl⟩ | ⟨reference, label, hSome, hLabel, hFill⟩
  · exact ⟨moved, by rw [fillLine, hPending, hNone], hMoved⟩
  · have hOther := hAddress reference.name
    simp only [SymbolTable.address?, hLabel, Option.map_some, Option.map_eq_some_iff] at hOther
    obtain ⟨another, hAnother, hSame⟩ := hOther
    obtain ⟨result, hResult, hUnnumbered⟩ := CodeLine.exists_fill hFill hMoved
    rw [← hSame] at hResult
    exact ⟨result, by simp only [fillLine, hPending, hSome, hAnother, hResult], hUnnumbered⟩

/-- What holds of one line holds of the whole code: if it can be finished with one table, then it
can be with the other, with the same bytes in the same places. -/
theorem exists_mapM_fillLine {symbols other : SymbolTable} {code moved finished : List CodeLine}
    (h : List.Forall₂ (fun line done => fillLine symbols line = .ok done) code finished)
    (hAddress : ∀ name, other.address? name = symbols.address? name)
    (hMoved : moved.map CodeLine.unnumbered = code.map CodeLine.unnumbered) :
    ∃ result, moved.mapM (fillLine other) = .ok result ∧
      result.map CodeLine.unnumbered = finished.map CodeLine.unnumbered := by
  induction h generalizing moved with
  | nil =>
      rw [List.map_nil, List.map_eq_nil_iff] at hMoved
      subst hMoved
      exact ⟨[], rfl, rfl⟩
  | @cons line done _ _ hLine _ ih =>
      obtain ⟨first, rest, rfl, hFirst, hRest⟩ := List.map_eq_cons_iff.mp hMoved
      obtain ⟨result, hResult, hSame⟩ := exists_fillLine hLine hAddress hFirst
      obtain ⟨results, hResults, hAll⟩ := ih hRest
      refine ⟨result :: results, ?_, by rw [List.map_cons, List.map_cons, hSame, hAll]⟩
      rw [List.mapM_cons, hResult, hResults]
      rfl

end Micro6502.Assembly
