import Mathlib.Data.Fintype.Card
import Mathlib.Data.Set.Finite.List
import Micro6502.Proofs.Assembly.Sweep

/-! What is said of labels that cannot be settled. A label that depends on a name which is not
there is named before all others. Where there is none, whatever cannot be settled has come upon a
circle, and the first such label is named. -/

namespace Micro6502.Assembly

open Relation

/-- The first of the entries that have a property. -/
def IsFirst {α : Type} (p : α → Prop) (entries : List α) (entry : α) : Prop :=
  ∃ front back, entries = front ++ entry :: back ∧ p entry ∧ ∀ other ∈ front, ¬ p other

theorem IsFirst.mem {α : Type} {p : α → Prop} {entries : List α} {entry : α}
    (h : IsFirst p entries entry) : entry ∈ entries := by
  obtain ⟨front, back, rfl, -⟩ := h
  simp

theorem IsFirst.holds {α : Type} {p : α → Prop} {entries : List α} {entry : α}
    (h : IsFirst p entries entry) : p entry := by
  obtain ⟨front, back, -, hEntry, -⟩ := h
  exact hEntry

/-- A search that ends at an entry with a property has come to the first one. -/
theorem exists_isFirst {α β : Type} {p : α → Prop} {f : α → Option β} {entries : List α}
    (hNone : ∀ entry ∈ entries, f entry = none ↔ ¬ p entry) {result : β}
    (h : entries.findSome? f = some result) :
    ∃ entry, IsFirst p entries entry ∧ f entry = some result := by
  obtain ⟨front, entry, back, rfl, hEntry, hFront⟩ := List.findSome?_eq_some_iff.mp h
  refine ⟨entry, ⟨front, back, rfl, ?_, fun other hOther => ?_⟩, hEntry⟩
  · by_contra hNot
    rw [(hNone entry (by simp)).mpr hNot] at hEntry
    cases hEntry
  · exact (hNone other (by simp [hOther])).mp (hFront other hOther)

/-- Induction along the edges of a finite graph, from an entry that leads to no circle. -/
theorem induction_of_acyclic {α : Type} {r : α → α → Prop} {entries : List α}
    (hEntries : ∀ entry next, r entry next → next ∈ entries) {p : α → Prop}
    (hStep : ∀ entry, (∀ next, r entry next → p next) → p entry) {start : α}
    (hAcyclic : ∀ entry, ReflTransGen r start entry → ¬ TransGen r entry entry) : p start := by
  have hReached : {entry | ReflTransGen r start entry} ⊆ {entry | entry ∈ start :: entries} := by
    intro entry hEntry
    cases hEntry with
    | refl => exact List.mem_cons_self
    | tail _ hLast => exact List.mem_cons_of_mem _ (hEntries _ _ hLast)
  have hFinite : Finite {entry // ReflTransGen r start entry} :=
    ((start :: entries).finite_toSet.subset hReached).to_subtype
  have hWellFounded : WellFounded fun next entry : {entry // ReflTransGen r start entry} =>
      TransGen r entry.val next.val := by
    have hTrans : IsTrans {entry // ReflTransGen r start entry} fun next entry =>
        TransGen r entry.val next.val := ⟨fun _ _ _ hFirst hSecond => hSecond.trans hFirst⟩
    have hIrrefl : Std.Irrefl fun next entry : {entry // ReflTransGen r start entry} =>
        TransGen r entry.val next.val := ⟨fun entry => hAcyclic entry.val entry.property⟩
    exact Finite.wellFounded_of_trans_of_irrefl _
  have hAll : ∀ entry : {entry // ReflTransGen r start entry}, p entry.val := by
    intro entry
    apply hWellFounded.induction (C := fun entry => p entry.val) entry
    intro entry ih
    exact hStep entry.val fun next hNext => ih ⟨next, entry.property.tail hNext⟩ (.single hNext)
  exact hAll ⟨start, .refl⟩

namespace SymbolTable

/-- One label is defined relative to another. -/
def Depends (table : SymbolTable) (label next : Label) : Prop :=
  label ∈ table.labels ∧ next ∈ table.labels ∧
    ∃ dependency, label.dependency = some dependency ∧ next.name = dependency.label

/-- The label is defined relative to a name that is not in the table. -/
def Dangles (table : SymbolTable) (label : Label) : Prop :=
  ∃ dependency, label.dependency = some dependency ∧ table.defines dependency.label = false

/-- No chain leads from the label to a plain one. -/
def Stranded (table : SymbolTable) (label : Label) : Prop :=
  ∀ way base, ¬ table.Chain label way base

/-- From one label to the next, the dependencies come to a label from which they come back. -/
def RunsInCircle (table : SymbolTable) (label : Label) : Prop :=
  ∃ other, ReflTransGen table.Depends label other ∧ TransGen table.Depends other other

section

variable {table : SymbolTable} {label : Label} {diagnostic : Diagnostic}

theorem defines_eq_true {name : Text} :
    table.defines name = true ↔ ∃ label ∈ table.labels, label.name = name := by
  simp [defines]

/-- No chain goes on from a name that is not there. -/
theorem Dangles.stranded (h : table.Dangles label) : table.Stranded label := by
  obtain ⟨dependency, hDependency, hNone⟩ := h
  intro way base hChain
  cases hChain with
  | plain _ hPlain => cases hPlain.symm.trans hDependency
  | @relative _ next _ other _ _ hOther hNext hRest =>
      cases hOther.symm.trans hDependency
      have hDefined := defines_eq_true.mpr ⟨next, hRest.mem, hNext⟩
      rw [hNone] at hDefined
      cases hDefined

/-- Where all names are defined, dependencies that come to no circle come to a plain label. -/
theorem runsInCircle_of_stranded (hDefined : ∀ other ∈ table.labels, ¬ table.Dangles other)
    (hLabel : label ∈ table.labels) (h : table.Stranded label) : table.RunsInCircle label := by
  by_contra hOpen
  have hChain : label ∈ table.labels → ∃ way base, table.Chain label way base := by
    apply induction_of_acyclic (r := table.Depends)
      (p := fun other => other ∈ table.labels → ∃ way base, table.Chain other way base)
      fun _ _ hDepends => hDepends.2.1
    · intro other ih hOther
      cases hDependency : other.dependency with
      | none => exact ⟨[], other, .plain hOther hDependency⟩
      | some dependency =>
          have hName : table.defines dependency.label = true := by
            by_contra hNone
            exact hDefined other hOther ⟨dependency, hDependency, Bool.eq_false_iff.mpr hNone⟩
          obtain ⟨next, hNext, hSame⟩ := defines_eq_true.mp hName
          obtain ⟨way, base, hRest⟩ :=
            ih next ⟨hOther, hNext, dependency, hDependency, hSame⟩ hNext
          exact ⟨dependency :: way, base, .relative hOther hDependency hSame hRest⟩
    · exact fun other hReached hCircle => hOpen ⟨other, hReached, hCircle⟩
  obtain ⟨way, base, hChain⟩ := hChain hLabel
  exact h way base hChain

/-- Behind a label, its chain is shorter. -/
theorem Chain.exists_rest (hDistinct : table.Distinct) {base next : Label} {way : List Dependency}
    (h : table.Chain label way base) (hNext : table.Depends label next) :
    ∃ rest, table.Chain next rest base ∧ rest.length < way.length := by
  obtain ⟨-, hMem, dependency, hDependency, hName⟩ := hNext
  cases h with
  | plain _ hPlain => cases hPlain.symm.trans hDependency
  | relative _ hSame hFollowing hRest =>
      cases hDependency.symm.trans hSame
      obtain rfl := hDistinct.eq_of_name_eq hRest.mem hMem (hName.trans hFollowing.symm)
      exact ⟨_, hRest, Nat.lt_succ_self _⟩

/-- A chain does not come back to its label. -/
theorem Chain.acyclic (hDistinct : table.Distinct) {base : Label} {way : List Dependency}
    (h : table.Chain label way base) : ¬ TransGen table.Depends label label := by
  have hShorter : ∀ other, TransGen table.Depends label other →
      ∃ rest, table.Chain other rest base ∧ rest.length < way.length := by
    intro other hDepends
    induction hDepends with
    | single hNext => exact h.exists_rest hDistinct hNext
    | tail _ hNext ih =>
        obtain ⟨rest, hRest, hLess⟩ := ih
        obtain ⟨last, hLast, hShort⟩ := hRest.exists_rest hDistinct hNext
        exact ⟨last, hLast, Nat.lt_trans hShort hLess⟩
  intro hAround
  obtain ⟨rest, hRest, hLess⟩ := hShorter label hAround
  obtain ⟨rfl, -⟩ := h.unique hDistinct hRest
  exact Nat.lt_irrefl _ hLess

/-- The search for missing names passes over just the labels that depend on none. -/
theorem missing?_eq_none : table.missing? label = none ↔ ¬ table.Dangles label := by
  cases hDependency : label.dependency with
  | none => simp [missing?, Dangles, hDependency]
  | some dependency => simp [missing?, Dangles, hDependency]

@[simp] theorem defines_settle (table : SymbolTable) (name : Text) :
    table.settle.defines name = table.defines name := by
  simp [defines, settle, List.any_map, Function.comp_def]

/-- Settling leaves a label alone that depends on a name which is not there. -/
theorem missing?_settled (table : SymbolTable) (label : Label) :
    table.settle.missing? (table.settled label) = table.missing? label := by
  cases hDependency : label.dependency with
  | none => simp [settled, missing?, hDependency]
  | some dependency =>
      cases hReach : table.reach? table.labels.length dependency.label with
      | none => simp [settled, missing?, hDependency, hReach]
      | some base =>
          obtain ⟨next, hNext, way, last, hChain⟩ := exists_chain hReach
          have hDefined := defines_eq_true.mpr ⟨next, hChain.mem, hNext⟩
          simp [settled, missing?, hDependency, hReach, hDefined]

/-- Settling leaves a label relative just if no chain leads from it to a plain one. -/
theorem dependency_settled_eq_none (hDistinct : table.Distinct) (hLabel : label ∈ table.labels) :
    (table.settled label).dependency = none ↔ ¬ table.Stranded label := by
  constructor
  · intro hSettled hStranded
    obtain ⟨way, base, hChain⟩ := exists_chain_of_settled hLabel hSettled
    exact hStranded way base hChain
  · intro hReaches
    simp only [Stranded, not_forall, not_not] at hReaches
    obtain ⟨way, base, hChain⟩ := hReaches
    rw [hChain.settled_eq hDistinct]

/-- The search for circles passes over just the labels that could be settled. -/
theorem circular?_settled_eq_none (hDistinct : table.Distinct) (hLabel : label ∈ table.labels) :
    circular? (table.settled label) = none ↔ ¬ table.Stranded label := by
  rw [← dependency_settled_eq_none hDistinct hLabel, circular?]
  cases (table.settled label).dependency with
  | none | some dependency => simp

theorem eq_of_circular?_settled (h : circular? (table.settled label) = some diagnostic) :
    diagnostic = ⟨label.line, .circularLabel label.name⟩ := by
  obtain ⟨-, hDiagnostic⟩ := circular?_eq_some.mp h
  rwa [name_settled, line_settled] at hDiagnostic

/-- What is wrong after settling can be told from the labels in front of it. -/
theorem complaint?_settle (table : SymbolTable) : table.settle.complaint? =
    match table.labels.findSome? table.missing? with
    | some diagnostic => some diagnostic
    | none => table.labels.findSome? fun label => circular? (table.settled label) := by
  have hMissing : table.settle.labels.findSome? table.settle.missing? =
      table.labels.findSome? table.missing? := by
    rw [settle, List.findSome?_map]
    congr 1
    funext label
    exact missing?_settled table label
  rw [complaint?, hMissing, settle, List.findSome?_map]
  rfl

/-- A label that depends on a missing name is found before all others. -/
theorem exists_dangling (h : table.settle.complaint? = some diagnostic)
    (hDangles : ∃ label ∈ table.labels, table.Dangles label) :
    ∃ label dependency, IsFirst table.Dangles table.labels label ∧
      label.dependency = some dependency ∧
      diagnostic = ⟨label.line, .missingDependentLabel label.name dependency.label⟩ := by
  rw [complaint?_settle] at h
  cases hFound : table.labels.findSome? table.missing? with
  | none =>
      obtain ⟨label, hLabel, hDangles⟩ := hDangles
      have hNone := List.findSome?_eq_none_iff.mp hFound label hLabel
      exact absurd hDangles (missing?_eq_none.mp hNone)
  | some found =>
      simp only [hFound, Option.some.injEq] at h
      obtain ⟨label, hFirst, hMissing⟩ :=
        exists_isFirst (fun _ _ => missing?_eq_none) hFound
      obtain ⟨dependency, hDependency, -, hDiagnostic⟩ := missing?_eq_some.mp hMissing
      exact ⟨label, dependency, hFirst, hDependency, h.symm.trans hDiagnostic⟩

/-- Where no name is missing, the first label that cannot be settled is found. -/
theorem exists_stranded (hDistinct : table.Distinct)
    (h : table.settle.complaint? = some diagnostic)
    (hDefined : ∀ label ∈ table.labels, ¬ table.Dangles label) :
    ∃ label, IsFirst table.Stranded table.labels label ∧
      diagnostic = ⟨label.line, .circularLabel label.name⟩ := by
  have hNone : table.labels.findSome? table.missing? = none := by
    rw [List.findSome?_eq_none_iff]
    exact fun label hLabel => missing?_eq_none.mpr (hDefined label hLabel)
  rw [complaint?_settle, hNone] at h
  obtain ⟨label, hFirst, hCircular⟩ :=
    exists_isFirst (fun other hOther => circular?_settled_eq_none hDistinct hOther) h
  exact ⟨label, hFirst, eq_of_circular?_settled hCircular⟩

/-- Sweeping fails with the words in which the settled table is complained of. -/
theorem resolve_eq_error (hDistinct : table.Distinct) :
    table.resolve = .error diagnostic ↔ table.settle.complaint? = some diagnostic := by
  rw [resolve, sweeps_eq_settle hDistinct]
  cases table.settle.complaint? with
  | none | some other => simp

end

/-- What is said of a table that cannot be settled is right. If a label depends on a name that is
not there, the first one that does is reported, with this name; if none does, the first one that no
chain leads from is, and its dependencies run in a circle. Either way the line is that of a label
that cannot be settled, and the first pass ends with the same words. There is nothing to say just
of a table without missing names and circles. -/
theorem resolve_diagnosis {table : SymbolTable} (hBuilt : table.Built) :
    (∀ diagnostic, table.resolve = .error diagnostic →
      ((∃ label ∈ table.labels, table.Dangles label) →
        ∃ label dependency, IsFirst table.Dangles table.labels label ∧
          label.dependency = some dependency ∧
          diagnostic = ⟨label.line, .missingDependentLabel label.name dependency.label⟩) ∧
      ((∀ label ∈ table.labels, ¬ table.Dangles label) →
        ∃ label, IsFirst table.Stranded table.labels label ∧ table.RunsInCircle label ∧
          diagnostic = ⟨label.line, .circularLabel label.name⟩) ∧
      (∃ label ∈ table.labels, table.Stranded label ∧ diagnostic.line = label.line) ∧
      ∀ layout : Layout, layout.symbols = table → layout.close = .error diagnostic) ∧
    ((∃ result, table.resolve = .ok result) ↔
      ∀ label ∈ table.labels, ¬ table.Dangles label ∧ ¬ TransGen table.Depends label label) := by
  have hDistinct := hBuilt.distinct
  have hCircle : ∀ diagnostic, table.settle.complaint? = some diagnostic →
      (∀ label ∈ table.labels, ¬ table.Dangles label) →
      ∃ label, IsFirst table.Stranded table.labels label ∧ table.RunsInCircle label ∧
        diagnostic = ⟨label.line, .circularLabel label.name⟩ := by
    intro diagnostic hComplaint hDefined
    obtain ⟨label, hFirst, hDiagnostic⟩ := exists_stranded hDistinct hComplaint hDefined
    exact ⟨label, hFirst, runsInCircle_of_stranded hDefined hFirst.mem hFirst.holds, hDiagnostic⟩
  constructor
  · intro diagnostic hError
    have hComplaint := (resolve_eq_error hDistinct).mp hError
    refine ⟨exists_dangling hComplaint, hCircle diagnostic hComplaint, ?_, ?_⟩
    · by_cases hDangles : ∃ label ∈ table.labels, table.Dangles label
      · obtain ⟨label, dependency, hFirst, -, rfl⟩ := exists_dangling hComplaint hDangles
        exact ⟨label, hFirst.mem, hFirst.holds.stranded, rfl⟩
      · have hDefined : ∀ label ∈ table.labels, ¬ table.Dangles label := by
          simpa using hDangles
        obtain ⟨label, hFirst, rfl⟩ := exists_stranded hDistinct hComplaint hDefined
        exact ⟨label, hFirst.mem, hFirst.holds, rfl⟩
    · rintro layout rfl
      rw [Layout.close, hComplaint]
  · constructor
    · rintro ⟨result, hResult⟩ label hLabel
      have hNone := ((resolve_eq_ok hDistinct).mp hResult).1
      obtain ⟨way, base, hChain⟩ := (complaint?_settle_eq_none hDistinct).mp hNone label hLabel
      exact ⟨fun hDangles => hDangles.stranded way base hChain, hChain.acyclic hDistinct⟩
    · intro hSound
      cases hResult : table.resolve with
      | ok result => exact ⟨result, rfl⟩
      | error diagnostic =>
          have hComplaint := (resolve_eq_error hDistinct).mp hResult
          obtain ⟨label, -, ⟨other, -, hAround⟩, -⟩ :=
            hCircle diagnostic hComplaint fun label hLabel => (hSound label hLabel).1
          obtain ⟨next, hDepends, -⟩ := TransGen.head'_iff.mp hAround
          exact absurd hAround (hSound other hDepends.1).2

/-- A circle in front of a chain that ends at a missing name; and a label that leads into a circle
which it does not lie on. -/
theorem resolve_diagnosis_mixed :
    let ping : Label := ⟨"PING".toList, 0, some ⟨"PONG".toList, 1⟩, 1⟩
    let pong : Label := ⟨"PONG".toList, 0, some ⟨"PING".toList, -1⟩, 2⟩
    let outer : Label := ⟨"OUTER".toList, 0, some ⟨"INNER".toList, 1⟩, 3⟩
    let inner : Label := ⟨"INNER".toList, 0, some ⟨"ABSENT".toList, 1⟩, 4⟩
    let tail : Label := ⟨"TAIL".toList, 0, some ⟨"PING".toList, 7⟩, 5⟩
    let missing : SymbolTable := { labels := [ping, pong, outer, inner] }
    let circular : SymbolTable := { labels := [tail, ping, pong] }
    missing.Built ∧ circular.Built ∧
      missing.resolve =
        .error ⟨4, .missingDependentLabel "INNER".toList "ABSENT".toList⟩ ∧
      IsFirst missing.Dangles missing.labels inner ∧
      (∃ label ∈ missing.labels, missing.Stranded label ∧ 4 = label.line) ∧
      circular.resolve = .error ⟨5, .circularLabel "TAIL".toList⟩ ∧
      IsFirst circular.Stranded circular.labels tail ∧ circular.RunsInCircle tail := by
  intro ping pong outer inner tail missing circular
  have hMissing : missing.Built := by
    have hPing : defineRelative {} ping.name ⟨pong.name, 1⟩ 0 1 = .ok { labels := [ping] } := by rfl
    have hPong : defineRelative { labels := [ping] } pong.name ⟨ping.name, -1⟩ 0 2 =
        .ok { labels := [ping, pong] } := by rfl
    have hOuter : defineRelative { labels := [ping, pong] } outer.name ⟨inner.name, 1⟩ 0 3 =
        .ok { labels := [ping, pong, outer] } := by rfl
    have hInner : defineRelative { labels := [ping, pong, outer] } inner.name
        ⟨"ABSENT".toList, 1⟩ 0 4 = .ok missing := by rfl
    exact .relative (.relative (.relative (.relative .empty hPing) hPong) hOuter) hInner
  have hCircular : circular.Built := by
    have hTail : defineRelative {} tail.name ⟨ping.name, 7⟩ 0 5 = .ok { labels := [tail] } := by rfl
    have hPing : defineRelative { labels := [tail] } ping.name ⟨pong.name, 1⟩ 0 1 =
        .ok { labels := [tail, ping] } := by rfl
    have hPong : defineRelative { labels := [tail, ping] } pong.name ⟨ping.name, -1⟩ 0 2 =
        .ok circular := by rfl
    exact .relative (.relative (.relative .empty hTail) hPing) hPong
  have hMissingError : missing.resolve =
      .error ⟨4, .missingDependentLabel "INNER".toList "ABSENT".toList⟩ :=
    (resolve_eq_error hMissing.distinct).mpr (by decide +kernel)
  have hCircularError : circular.resolve = .error ⟨5, .circularLabel "TAIL".toList⟩ :=
    (resolve_eq_error hCircular.distinct).mpr (by decide +kernel)
  have hDefined : ∀ label ∈ circular.labels, ¬ circular.Dangles label := by
    intro label hLabel
    have hNone : ∀ label ∈ circular.labels, circular.missing? label = none := by decide +kernel
    exact missing?_eq_none.mp (hNone label hLabel)
  have hDangling : ∃ label ∈ missing.labels, missing.Dangles label :=
    ⟨inner, by simp [missing], ⟨"ABSENT".toList, 1⟩, rfl, by decide +kernel⟩
  obtain ⟨hDangles, -, hStranded, -⟩ := (resolve_diagnosis hMissing).1 _ hMissingError
  obtain ⟨-, hCircle, -⟩ := (resolve_diagnosis hCircular).1 _ hCircularError
  obtain ⟨label, dependency, hDangles, -, hDiagnostic⟩ := hDangles hDangling
  have hInner : label = inner := by
    have hLine : label.line = 4 := (congrArg Diagnostic.line hDiagnostic).symm
    have hAll : ∀ other ∈ missing.labels, other.line = 4 → other = inner := by decide +kernel
    exact hAll label hDangles.mem hLine
  obtain ⟨label, hFirst, hRuns, hDiagnostic⟩ := hCircle hDefined
  have hTail : label = tail := by
    have hLine : label.line = 5 := (congrArg Diagnostic.line hDiagnostic).symm
    have hAll : ∀ other ∈ circular.labels, other.line = 5 → other = tail := by decide +kernel
    exact hAll label hFirst.mem hLine
  rw [hInner] at hDangles
  rw [hTail] at hFirst hRuns
  exact ⟨hMissing, hCircular, hMissingError, hDangles, hStranded, hCircularError, hFirst, hRuns⟩

end SymbolTable
end Micro6502.Assembly
