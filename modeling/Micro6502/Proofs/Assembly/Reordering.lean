import Micro6502.Proofs.Assembly.Entry
import Micro6502.Proofs.Assembly.Visibility

/-! Relative definitions among the other lines of a source. The first pass does not look
through a definition that is not settled, so it lays down the same code wherever such
definitions stand; and settling does not depend on their order. -/

namespace Micro6502.Assembly

namespace SymbolTable

/-- The settled labels, without their lines. -/
def plain (table : SymbolTable) : List Label :=
  (table.labels.filter fun label => label.dependency.isNone).map Label.bare

/-- The relative labels, wherever they are defined. -/
def relatives (table : SymbolTable) : List Label :=
  (table.labels.filter fun label => label.dependency.isSome).map Label.bare

/-- The address of a name is found among the settled labels alone. -/
theorem address?_eq_plain (table : SymbolTable) (name : Text) :
    table.address? name = (table.plain.find? fun label => label.name = name).map Label.address := by
  have hSame : (fun label => decide (label.name = name)) ∘ Label.bare =
      fun label => decide (label.name = name) := rfl
  have hLookup : table.lookup? name =
      (table.labels.filter fun label => label.dependency.isNone).find?
        fun label => label.name = name := by
    rw [List.find?_filter]
    unfold lookup?
    congr 1
    funext label
    simp only [decide_eq_true_eq, Bool.decide_and, Bool.decide_eq_true, Bool.and_comm]
  rw [plain, List.find?_map, hSame, ← hLookup, address?]
  cases hFound : table.lookup? name with
  | none => rfl
  | some label => exact congrArg some (Label.address_bare (lookup?_eq_some hFound).2.2).symm

/-- A table is its settled and its relative labels, in some order. -/
theorem perm_plain_append (table : SymbolTable) :
    (table.labels.map Label.bare).Perm (table.plain ++ table.relatives) := by
  have hRelative : ∀ label : Label, (!label.dependency.isNone) = label.dependency.isSome := by
    intro label
    cases label.dependency <;> rfl
  have hSplit := List.filter_append_perm (fun label : Label => label.dependency.isNone) table.labels
  simp only [hRelative] at hSplit
  rw [plain, relatives, ← List.map_append]
  exact (hSplit.map Label.bare).symm

end SymbolTable

namespace Layout

variable {forms? : FormLookup} {layout next final other : Layout} {line number : Nat}
  {source : Text} {statement : Statement}

/-- What a layout has besides relative labels and the numbers of lines. -/
def core (layout : Layout) : Layout :=
  { layout with
    symbols := { labels := layout.symbols.plain }
    code := layout.code.map CodeLine.unnumbered }

/-- A relative definition leaves the core alone, and any other statement is entered there as it
is. -/
theorem core_entered (layout : Layout) (line : Nat) (statement : Statement) :
    (layout.entered line statement).core =
      if statement.isRelative then layout.core else layout.core.entered 0 statement := by
  cases statement with
  | labelMath name dependency offset =>
      simp [core, entered, entry?, placed, Statement.isRelative, SymbolTable.plain]
  | label name rest =>
      simp [core, entered, entry?, placed, Statement.isRelative, SymbolTable.plain, Label.bare]
  | _ => simp [core, entered, entry?, placed, moveTo, Statement.isRelative, SymbolTable.plain]

theorem core_append (layout : Layout) (line : Nat) (encoding : Encoding) :
    (layout.append line encoding).core = layout.core.append 0 encoding := by
  simp [core, append, CodeLine.unnumbered]

/-- An address that is seen is seen in the core. -/
theorem address?_eq_of_core (h : other.core = layout.core) (name : Text) :
    other.symbols.address? name = layout.symbols.address? name := by
  have hPlain : other.symbols.plain = layout.symbols.plain :=
    congrArg (fun core => core.symbols.labels) h
  rw [SymbolTable.address?_eq_plain, SymbolTable.address?_eq_plain, hPlain]

/-- Layouts with the same core and the same relative labels have tables that agree. -/
theorem alike_of_core (h : other.core = layout.core) (hDistinct : layout.symbols.Distinct)
    (hRelatives : other.symbols.relatives.Perm layout.symbols.relatives) :
    layout.symbols.Alike other.symbols where
  distinct := hDistinct
  labels := by
    have hPlain : other.symbols.plain = layout.symbols.plain :=
      congrArg (fun core => core.symbols.labels) h
    refine other.symbols.perm_plain_append.trans ?_
    refine .trans ?_ layout.symbols.perm_plain_append.symm
    rw [hPlain]
    exact hRelatives.append_left _

theorem code_eq_of_core (h : other.core = layout.core) :
    other.code.toList.map CodeLine.unnumbered = layout.code.toList.map CodeLine.unnumbered := by
  have hCode : other.core.code = layout.core.code := congrArg Layout.code h
  rw [← Array.toList_map, ← Array.toList_map]
  exact congrArg Array.toList hCode

/-- A statement is encoded with the core alone. -/
theorem encodeStatement_eq_of_core (h : other.core = layout.core) (forms? : FormLookup)
    (mnemonic operand : Text) :
    encodeStatement forms? mnemonic operand other.counter other.symbols =
      encodeStatement forms? mnemonic operand layout.counter layout.symbols := by
  have hCounter : other.core.counter = layout.core.counter := congrArg Layout.counter h
  rw [show other.counter = layout.counter from hCounter,
    encodeStatement_congr (address?_eq_of_core h)]

/-- A statement adds its name behind the others, and its label to the relative ones if it is
relative. -/
theorem labels_entered (layout : Layout) (line : Nat) (statement : Statement) :
    (layout.entered line statement).symbols.labels.map Label.name =
        layout.symbols.labels.map Label.name ++ statement.name?.toList ∧
      (layout.entered line statement).symbols.relatives =
        layout.symbols.relatives ++ statement.relative?.toList := by
  cases statement with
  | labelMath name dependency offset =>
      simp [entered, entry?, Statement.name?, Statement.relative?, SymbolTable.relatives,
        Label.bare]
  | label name rest =>
      simp [entered, entry?, Statement.name?, Statement.relative?, SymbolTable.relatives]
  | _ => simp [entered, entry?, Statement.name?, Statement.relative?, SymbolTable.relatives]

end Layout

/-- The name that a line of source defines, if it defines one. -/
def definedName? (source : Text) : Option Text := (statement? source).bind Statement.name?

/-- The relative label that a line of source defines, wherever it stands. -/
def definedRelative? (source : Text) : Option Label :=
  (statement? source).bind Statement.relative?

/-- Whether a line of source defines a label relative to another one. -/
def isRelativeLine (source : Text) : Bool := (statement? source).any Statement.isRelative

/-- Whether a line of source defines a label relative to itself. -/
def isSelfRelativeLine (source : Text) : Bool := (statement? source).any Statement.isSelfRelative

/-- The lines that are not relative definitions. -/
def withoutRelatives (sources : List Text) : List Text :=
  sources.filter fun source => !isRelativeLine source

theorem withoutRelatives_cons_relative {source : Text} (h : isRelativeLine source = true)
    (rest : List Text) : withoutRelatives (source :: rest) = withoutRelatives rest :=
  List.filter_cons_of_neg (by simp [h])

theorem withoutRelatives_cons_other {source : Text} (h : isRelativeLine source = false)
    (rest : List Text) : withoutRelatives (source :: rest) = source :: withoutRelatives rest :=
  List.filter_cons_of_pos (by simp [h])

namespace Layout

variable {forms? : FormLookup} {layout next final other : Layout} {line number : Nat}
  {source : Text} {statement : Statement}

theorem statement?_of_blank (h : normalize source = []) : statement? source = none :=
  if_pos h

/-- What lines leave behind in the table. If all of them are relative definitions, they leave
nothing else behind. -/
structure Leaves (layout : Layout) (sources : List Text) (next : Layout) : Prop where
  names : next.symbols.labels.map Label.name =
    layout.symbols.labels.map Label.name ++ sources.filterMap definedName?
  relatives : next.symbols.relatives =
    layout.symbols.relatives ++ sources.filterMap definedRelative?
  grounded : ∀ source ∈ sources, isSelfRelativeLine source = false
  core : withoutRelatives sources = [] → next.core = layout.core

/-- What two stretches of lines leave behind one after the other, they leave behind together. -/
theorem Leaves.trans {first second : List Text} (h : Leaves layout first next)
    (hNext : Leaves next second final) : Leaves layout (first ++ second) final where
  names := by rw [hNext.names, h.names, List.append_assoc, List.filterMap_append]
  relatives := by rw [hNext.relatives, h.relatives, List.append_assoc, List.filterMap_append]
  grounded := List.forall_mem_append.mpr ⟨h.grounded, hNext.grounded⟩
  core := by
    intro hNone
    rw [withoutRelatives, List.filter_append, List.append_eq_nil_iff] at hNone
    exact (hNext.core hNone.2).trans (h.core hNone.1)

/-- A statement leaves behind the name that it defines. It is not relative to itself, since it was
accepted. -/
theorem leaves_entered (hStatement : statement? source = some statement)
    (hEnter : layout.enter line statement = .ok next) : Leaves layout [source] next := by
  obtain rfl := eq_of_enter hEnter
  have hLabels := labels_entered layout line statement
  have hName : definedName? source = statement.name? := by
    rw [definedName?, hStatement, Option.bind_some]
  have hRelative : definedRelative? source = statement.relative? := by
    rw [definedRelative?, hStatement, Option.bind_some]
  constructor
  · rw [hLabels.1, ← hName]
    rfl
  · rw [hLabels.2, ← hRelative]
    rfl
  · simp [isSelfRelativeLine, hStatement, (admits_of_enter hEnter).grounded]
  · intro hNone
    have hKind : statement.isRelative = true := by
      simpa [withoutRelatives, isRelativeLine, hStatement] using hNone
    rw [core_entered, if_pos hKind]

/-- The code on a line adds nothing to the table. -/
theorem Takes.leaves (h : Takes forms? layout line source next) :
    Leaves layout [source] next := by
  cases h with
  | blank hBlank =>
      have hNone := statement?_of_blank hBlank
      constructor
      · simp [definedName?, hNone]
      · simp [definedRelative?, hNone]
      · simp [isSelfRelativeLine, hNone]
      · intro _
        rfl
  | silent hStatement hEnter _ => exact leaves_entered hStatement hEnter
  | code hStatement hEnter hCode _ =>
      have hEntered := leaves_entered hStatement hEnter
      refine ⟨hEntered.names, hEntered.relatives, hEntered.grounded, ?_⟩
      intro hNone
      have hKind := Statement.code?_of_isRelative (by
        simpa [withoutRelatives, isRelativeLine, hStatement] using hNone)
      cases hKind.symm.trans hCode

theorem leaves_addLines {sources : List Text}
    (h : layout.addLines forms? line sources = .ok final) : Leaves layout sources final := by
  induction sources generalizing layout line with
  | nil =>
      cases h
      exact ⟨(List.append_nil _).symm, (List.append_nil _).symm, fun _ => nofun, fun _ => rfl⟩
  | cons source rest ih =>
      obtain ⟨next, hAdd, hRest⟩ := addLines_cons h
      exact (takes_of_addLine hAdd).leaves.trans (ih hRest)

/-- A statement that defines no relative label is entered anywhere as it is where the core is
the same, if its own label is new there. -/
theorem exists_enter (h : layout.enter line statement = .ok next) (hCore : other.core = layout.core)
    (hKind : statement.isRelative = false)
    (hFresh : ∀ name ∈ statement.name?, other.symbols.defines name = false) (number : Nat) :
    ∃ after, other.enter number statement = .ok after ∧ after.core = next.core := by
  obtain rfl := eq_of_enter h
  have hAdmits : other.Admits statement := ⟨hFresh, Statement.not_isSelfRelative hKind⟩
  refine ⟨_, enter_of_admits hAdmits number, ?_⟩
  rw [core_entered, core_entered, hCore]

/-- The same for a line and the code on it. -/
theorem Takes.exists_takes (h : Takes forms? layout line source next)
    (hCore : other.core = layout.core) (hKind : isRelativeLine source = false)
    (hFresh : ∀ name ∈ definedName? source, other.symbols.defines name = false) (number : Nat) :
    ∃ after, Takes forms? other number source after ∧ after.core = next.core := by
  cases h with
  | blank hBlank => exact ⟨other, .blank hBlank, hCore⟩
  | silent hStatement hEnter hCode =>
      simp only [isRelativeLine, hStatement, Option.any_some] at hKind
      simp only [definedName?, hStatement, Option.bind_some] at hFresh
      obtain ⟨after, hAfter, hSame⟩ := exists_enter hEnter hCore hKind hFresh number
      exact ⟨after, .silent hStatement hAfter hCode, hSame⟩
  | code hStatement hEnter hCode hEncode =>
      simp only [isRelativeLine, hStatement, Option.any_some] at hKind
      simp only [definedName?, hStatement, Option.bind_some] at hFresh
      obtain ⟨after, hAfter, hSame⟩ := exists_enter hEnter hCore hKind hFresh number
      rw [← encodeStatement_eq_of_core hSame] at hEncode
      refine ⟨_, .code hStatement hAfter hCode hEncode, ?_⟩
      rw [core_append, core_append, hSame]

/-- A relative definition is taken in anywhere, if its name is new there and another one than
that of the label it builds on. -/
theorem exists_takes_relative (hKind : isRelativeLine source = true)
    (hFresh : ∀ name ∈ definedName? source, other.symbols.defines name = false)
    (hGrounded : isSelfRelativeLine source = false) (forms? : FormLookup) (number : Nat) :
    ∃ after, Takes forms? other number source after := by
  cases hStatement : statement? source with
  | none =>
      rw [isRelativeLine, hStatement] at hKind
      cases hKind
  | some statement =>
      simp only [isRelativeLine, hStatement, Option.any_some] at hKind
      simp only [definedName?, hStatement, Option.bind_some] at hFresh
      simp only [isSelfRelativeLine, hStatement, Option.any_some] at hGrounded
      exact ⟨_, .silent hStatement (enter_of_admits ⟨hFresh, hGrounded⟩ number)
        (Statement.code?_of_isRelative hKind)⟩

/-- Relative definitions pass by the core until the first of the other lines comes. -/
theorem exists_next {sources kept : List Text}
    (h : layout.addLines forms? line sources = .ok final)
    (hKept : withoutRelatives sources = source :: kept) :
    ∃ before after following rest, before.core = layout.core ∧
      Takes forms? before following source after ∧
      after.addLines forms? (following + 1) rest = .ok final ∧ withoutRelatives rest = kept := by
  induction sources generalizing layout line with
  | nil => cases hKept
  | cons first rest ih =>
      obtain ⟨next, hAdd, hRest⟩ := addLines_cons h
      have hTakes := takes_of_addLine hAdd
      cases hKind : isRelativeLine first with
      | true =>
          rw [withoutRelatives_cons_relative hKind] at hKept
          obtain ⟨before, after, following, more, hCore, hFound⟩ := ih hRest hKept
          have hPassed := hTakes.leaves.core (withoutRelatives_cons_relative hKind [])
          exact ⟨before, after, following, more, hCore.trans hPassed, hFound⟩
      | false =>
          rw [withoutRelatives_cons_other hKind] at hKept
          cases hKept
          exact ⟨layout, next, line, rest, rfl, hTakes, hRest, rfl⟩

/-- Lines that come to the same without the relative definitions among them come to the same
core, wherever these stand, as long as their names are new. -/
theorem exists_addLines {sources moved : List Text}
    (h : layout.addLines forms? line sources = .ok final) (hCore : other.core = layout.core)
    (hRest : withoutRelatives moved = withoutRelatives sources)
    (hNames : (other.symbols.labels.map Label.name ++ moved.filterMap definedName?).Nodup)
    (hGrounded : ∀ source ∈ moved, isSelfRelativeLine source = false) (number : Nat) :
    ∃ last, other.addLines forms? number moved = .ok last ∧ last.core = final.core := by
  -- Along the moved lines. A relative one leaves the core alone and needs no partner; any other
  -- one is also the next of its kind among the lines that were accepted.
  induction moved generalizing layout other line number sources with
  | nil => exact ⟨other, rfl, hCore.trans ((leaves_addLines h).core hRest.symm).symm⟩
  | cons source rest ih =>
      have hFresh : ∀ name ∈ definedName? source, other.symbols.defines name = false := by
        intro name hName
        rw [SymbolTable.defines_eq_false]
        rw [List.filterMap_cons, hName] at hNames
        exact fun hMem => (List.nodup_append.mp hNames).2.2 name hMem name List.mem_cons_self rfl
      have hMore : ∀ {after}, Takes forms? other number source after →
          (after.symbols.labels.map Label.name ++ rest.filterMap definedName?).Nodup := by
        intro after hTakes
        rw [hTakes.leaves.names, List.append_assoc, ← List.filterMap_append]
        exact hNames
      rw [List.forall_mem_cons] at hGrounded
      cases hKind : isRelativeLine source with
      | true =>
          rw [withoutRelatives_cons_relative hKind] at hRest
          obtain ⟨after, hTakes⟩ := exists_takes_relative hKind hFresh hGrounded.1 forms? number
          have hPassed := hTakes.leaves.core (withoutRelatives_cons_relative hKind [])
          obtain ⟨last, hLast, hSame⟩ := ih h (hPassed.trans hCore) hRest (hMore hTakes)
            hGrounded.2 (number + 1)
          exact ⟨last, addLines_of_takes hTakes hLast, hSame⟩
      | false =>
          rw [withoutRelatives_cons_other hKind] at hRest
          obtain ⟨before, next, following, more, hBefore, hNext, hAfter, hKept⟩ :=
            exists_next h hRest.symm
          obtain ⟨after, hTakes, hSameCore⟩ := hNext.exists_takes (hCore.trans hBefore.symm) hKind
            hFresh number
          obtain ⟨last, hLast, hSame⟩ := ih hAfter hSameCore hKept.symm (hMore hTakes)
            hGrounded.2 (number + 1)
          exact ⟨last, addLines_of_takes hTakes hLast, hSame⟩

end Layout

/-- What a line of code comes to, wherever its line of source stands. -/
def CodeLine.content (code : CodeLine) : Address × List Byte × Descriptor :=
  (code.address, code.bytes, code.descriptor)

/-- The position of relative definitions does not matter. When lines of source change places,
but for those that define no relative label, which keep their order, then what was accepted is
accepted again: with the same code at the same addresses, the same origin and the same count of
address labels, and with the same names at the same addresses. -/
theorem assemble_reordered {source moved : Text} {program : Program}
    (h : assemble source = .ok program)
    (hLines : (Text.lines moved).Perm (Text.lines source))
    (hRest : withoutRelatives (Text.lines moved) = withoutRelatives (Text.lines source)) :
    ∃ result, assemble moved = .ok result ∧
      result.lines.map CodeLine.content = program.lines.map CodeLine.content ∧
      result.origin = program.origin ∧ result.addressLabels = program.addressLabels ∧
      (SymbolTable.entries result.labels).Perm (SymbolTable.entries program.labels) := by
  obtain ⟨layout, hAssembles⟩ := exists_layout h
  have hLeaves := Layout.leaves_addLines hAssembles.laidOut
  have hNames : ((Text.lines moved).filterMap definedName?).Nodup := by
    rw [(hLines.filterMap definedName?).nodup_iff]
    have hDistinct := hAssembles.orderly.distinct
    rwa [SymbolTable.Distinct, hLeaves.names] at hDistinct
  have hStart : ({} : Layout).core = ({} : Layout).core := rfl
  obtain ⟨last, hLast, hCore⟩ := Layout.exists_addLines hAssembles.laidOut hStart hRest hNames
    (fun line hLine => hLeaves.grounded line (hLines.mem_iff.mp hLine)) 1
  have hRelatives : last.symbols.relatives.Perm layout.symbols.relatives := by
    rw [(Layout.leaves_addLines hLast).relatives, hLeaves.relatives]
    exact (hLines.filterMap definedRelative?).append_left _
  have hAlike := Layout.alike_of_core hCore hAssembles.orderly.distinct hRelatives
  obtain ⟨finished, hFinished, hContent⟩ := exists_mapM_fillLine hAssembles.lines
    hAlike.settle.address? (Layout.code_eq_of_core hCore)
  refine ⟨_, assemble_of_addLines hLast (hAlike.settle.complaint? hAssembles.settled) hFinished,
    ?_, ?_, ?_, ?_⟩
  · have hMap : ∀ lines : List CodeLine, lines.map CodeLine.content =
        (lines.map CodeLine.unnumbered).map CodeLine.content := by
      intro lines
      rw [List.map_map]
      rfl
    rw [hMap finished, hContent, ← hMap]
  · exact (congrArg Layout.origin hCore).trans hAssembles.origin.symm
  · exact (congrArg Layout.addressLabels hCore).trans hAssembles.addressLabels.symm
  · rw [hAssembles.labels]
    exact hAlike.settle.entries hAssembles.settled

/-- Two relative definitions that build on each other and on a label between them, and that
change places. -/
theorem assemble_reordered_swap :
    let source := "LOW = TOP - 1\nLDA LOW\nTOP: STA HIGH,X\nHIGH = LOW + 2".toList
    let moved := "HIGH = LOW + 2\nLDA LOW\nTOP: STA HIGH,X\nLOW = TOP - 1".toList
    ∃ program, assemble source = .ok program ∧
      (Text.lines moved).Perm (Text.lines source) ∧
      withoutRelatives (Text.lines moved) = withoutRelatives (Text.lines source) ∧
      ∃ result, assemble moved = .ok result ∧
        result.lines.map CodeLine.content = program.lines.map CodeLine.content ∧
        result.origin = program.origin ∧ result.addressLabels = program.addressLabels ∧
        (SymbolTable.entries result.labels).Perm (SymbolTable.entries program.labels) := by
  intro source moved
  have hLines : (Text.lines moved).Perm (Text.lines source) := by decide +kernel
  have hRest : withoutRelatives (Text.lines moved) = withoutRelatives (Text.lines source) := by
    decide +kernel
  exact ⟨_, rfl, hLines, hRest, assemble_reordered rfl hLines hRest⟩

end Micro6502.Assembly
