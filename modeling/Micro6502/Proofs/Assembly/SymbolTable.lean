import Mathlib.Data.List.Nodup
import Micro6502.Assembly.SymbolTable

/-! Symbol tables while they grow and when they are settled. Names stay distinct,
definitions are only ever appended, and settling leaves a plain label as it is; so
an address that was seen once is the address of the label for good. -/

namespace Micro6502.Assembly

/-- Where keys are distinct, a key selects the one entry that has it. -/
theorem filter_eq_singleton {α β : Type} [DecidableEq β] {key : α → β} {entries : List α}
    (h : (entries.map key).Nodup) {entry : α} (hEntry : entry ∈ entries) :
    (entries.filter fun other => key other = key entry) = [entry] := by
  induction entries with
  | nil => cases hEntry
  | cons first rest ih =>
      rw [List.map_cons, List.nodup_cons] at h
      obtain ⟨hFirst, hRest⟩ := h
      rcases List.mem_cons.mp hEntry with rfl | hEntry
      · have hNone : (rest.filter fun other => key other = key entry) = [] := by
          rw [List.filter_eq_nil_iff]
          intro other hOther hKey
          exact hFirst (of_decide_eq_true hKey ▸ List.mem_map_of_mem hOther)
        rw [List.filter_cons_of_pos (by simp), hNone]
      · have hKey : key first ≠ key entry := fun he => hFirst (he ▸ List.mem_map_of_mem hEntry)
        rw [List.filter_cons_of_neg (by simpa using hKey)]
        exact ih hRest hEntry

namespace SymbolTable

/-- No two labels share a name. -/
def Distinct (table : SymbolTable) : Prop := (table.labels.map Label.name).Nodup

theorem defines_eq_false {table : SymbolTable} {name : Text} :
    table.defines name = false ↔ name ∉ table.labels.map Label.name := by
  simp only [defines, List.any_eq_false, decide_eq_true_eq, List.mem_map, not_exists, not_and]

theorem Distinct.push {table : SymbolTable} (h : table.Distinct) {label : Label}
    (hNew : table.defines label.name = false) : (table.push label).Distinct := by
  have hFresh := defines_eq_false.mp hNew
  simp only [Distinct, SymbolTable.push, List.map_append, List.map_cons, List.map_nil]
  refine List.Nodup.append h (List.nodup_singleton _) ?_
  simpa using hFresh

/-- A definition that is accepted is of a new name, and it is appended. -/
theorem define_eq_ok {table next : SymbolTable} {name : Text} {address : Address} {line : Nat}
    (h : table.define name address line = .ok next) :
    table.defines name = false ∧
      next = table.push { name, address, dependency := none, line } := by
  unfold define at h
  split at h
  · cases h
  · cases h
    exact ⟨by simp_all, rfl⟩

/-- A relative definition that is accepted is of a new name, too. Its own address is only where it
stands. -/
theorem defineRelative_eq_ok {table next : SymbolTable} {name : Text}
    {dependency : Dependency} {address : Address} {line : Nat}
    (h : table.defineRelative name dependency address line = .ok next) :
    table.defines name = false ∧
      next = table.push { name, address, dependency := some dependency, line } := by
  unfold defineRelative at h
  split at h
  · cases h
  · split at h
    · cases h
    · cases h
      exact ⟨by simp_all, rfl⟩

/-- Two labels of a table with the same name are the same label. -/
theorem Distinct.eq_of_name_eq {table : SymbolTable} (h : table.Distinct) {label other : Label}
    (hLabel : label ∈ table.labels) (hOther : other ∈ table.labels)
    (hName : other.name = label.name) : other = label :=
  List.inj_on_of_nodup_map h hOther hLabel hName

/-- What a look-up yields is a label of the table, of the name that was asked for, and not
relative. -/
theorem lookup?_eq_some {table : SymbolTable} {name : Text} {label : Label}
    (h : table.lookup? name = some label) :
    label ∈ table.labels ∧ label.name = name ∧ label.dependency = none := by
  have hFound := List.find?_some h
  simp only [Bool.and_eq_true, decide_eq_true_eq, Option.isNone_iff_eq_none] at hFound
  exact ⟨List.mem_of_find?_eq_some h, hFound.1, hFound.2⟩

/-- Among distinct names, a settled label is found under its own. -/
theorem Distinct.lookup?_eq {table : SymbolTable} (h : table.Distinct) {label : Label}
    (hLabel : label ∈ table.labels) (hPlain : label.dependency = none) :
    table.lookup? label.name = some label := by
  cases hFound : table.lookup? label.name with
  | none =>
      have hNone := List.find?_eq_none.mp hFound label hLabel
      simp [hPlain] at hNone
  | some other =>
      obtain ⟨hOther, hName, -⟩ := lookup?_eq_some hFound
      rw [h.eq_of_name_eq hLabel hOther hName]

/-- Later definitions hide no earlier one. -/
theorem lookup?_of_prefix {table later : SymbolTable} (h : table.labels <+: later.labels)
    {name : Text} {label : Label} (hFound : table.lookup? name = some label) :
    later.lookup? name = some label := by
  obtain ⟨more, hMore⟩ := h
  unfold lookup? at hFound ⊢
  rw [← hMore, List.find?_append, hFound]
  rfl

theorem settled_of_plain {table : SymbolTable} {label : Label} (h : label.dependency = none) :
    table.settled label = label := by
  unfold settled
  rw [h]

@[simp] theorem name_settled (table : SymbolTable) (label : Label) :
    (table.settled label).name = label.name := by
  unfold settled
  split
  · rfl
  · split <;> rfl

@[simp] theorem line_settled (table : SymbolTable) (label : Label) :
    (table.settled label).line = label.line := by
  unfold settled
  split
  · rfl
  · split <;> rfl

/-- Names stay distinct, since settling changes none of them. -/
theorem Distinct.settle {table : SymbolTable} (h : table.Distinct) : table.settle.Distinct := by
  have hNames : table.settle.labels.map Label.name = table.labels.map Label.name := by
    simp [SymbolTable.settle, Function.comp_def]
  unfold Distinct
  rw [hNames]
  exact h

/-- Settling never changes what a look-up has already found. -/
theorem Distinct.lookup?_settle {table : SymbolTable} (h : table.Distinct) {name : Text}
    {label : Label} (hFound : table.lookup? name = some label) :
    table.settle.lookup? name = some label := by
  obtain ⟨hLabel, rfl, hPlain⟩ := lookup?_eq_some hFound
  have hSettled : label ∈ table.settle.labels :=
    List.mem_map.mpr ⟨label, hLabel, settled_of_plain hPlain⟩
  exact h.settle.lookup?_eq hSettled hPlain

/-- The complaint about a missing label names the relative label that asks for it, and its line. -/
theorem missing?_eq_some {table : SymbolTable} {label : Label} {diagnostic : Diagnostic} :
    table.missing? label = some diagnostic ↔
      ∃ dependency, label.dependency = some dependency ∧ table.defines dependency.label = false ∧
        diagnostic = ⟨label.line, .missingDependentLabel label.name dependency.label⟩ := by
  cases hDependency : label.dependency with
  | none => simp [missing?, hDependency]
  | some dependency =>
      cases hName : table.defines dependency.label with
      | true => simp [missing?, hDependency, hName]
      | false => simp [missing?, hDependency, hName, eq_comm (a := diagnostic)]

/-- Whatever is left relative, and asks for nothing missing, is said to run in a circle. -/
theorem circular?_eq_some {label : Label} {diagnostic : Diagnostic} :
    circular? label = some diagnostic ↔
      label.dependency ≠ none ∧ diagnostic = ⟨label.line, .circularLabel label.name⟩ := by
  cases hDependency : label.dependency with
  | none => simp [circular?, hDependency]
  | some dependency => simp [circular?, hDependency, eq_comm (a := diagnostic)]

/-- A table about which there is no complaint is settled throughout. -/
theorem dependency_eq_none {table : SymbolTable} (h : table.complaint? = none) {label : Label}
    (hLabel : label ∈ table.labels) : label.dependency = none := by
  unfold complaint? at h
  split at h
  · cases h
  · have hNone := List.findSome?_eq_none_iff.mp h label hLabel
    unfold circular? at hNone
    split at hNone
    · assumption
    · cases hNone

/-- More steps lead to the same place. -/
theorem reach?_succ {table : SymbolTable} {steps : Nat} {name : Text} {address : Address}
    (h : table.reach? steps name = some address) :
    table.reach? (steps + 1) name = some address := by
  induction steps generalizing name address with
  | zero => cases h
  | succ steps ih =>
      rw [reach?] at h ⊢
      cases hFound : table.find? name with
      | none =>
          rw [hFound] at h
          cases h
      | some label =>
          rw [hFound] at h
          cases hDependency : label.dependency with
          | none => simpa only [hDependency] using h
          | some dependency =>
              simp only [hDependency, Option.map_eq_some_iff] at h ⊢
              obtain ⟨base, hBase, hAddress⟩ := h
              exact ⟨base, ih hBase, hAddress⟩

/-- The place that a name leads to is where the label of that name is settled. -/
theorem address_settled {table : SymbolTable} {name : Text} {address : Address}
    (h : table.reach? table.labels.length name = some address) :
    ∃ label ∈ table.labels, label.name = name ∧ (table.settled label).address = address := by
  cases hLength : table.labels.length with
  | zero =>
      rw [hLength] at h
      cases h
  | succ steps =>
      rw [hLength, reach?] at h
      cases hFound : table.find? name with
      | none =>
          rw [hFound] at h
          cases h
      | some label =>
          have hName := List.find?_some hFound
          refine ⟨label, List.mem_of_find?_eq_some hFound, of_decide_eq_true hName, ?_⟩
          rw [hFound] at h
          cases hDependency : label.dependency with
          | none =>
              simp only [hDependency, Option.some.injEq] at h
              rw [settled_of_plain hDependency, h]
          | some dependency =>
              simp only [hDependency, Option.map_eq_some_iff] at h
              obtain ⟨base, hBase, rfl⟩ := h
              simp only [settled, hDependency, hLength, reach?_succ hBase]

/-- When all labels are settled, a relative one lies at its distance from the other one. -/
theorem exists_base {table : SymbolTable} (h : table.settle.complaint? = none) {label : Label}
    (hLabel : label ∈ table.labels) {dependency : Dependency}
    (hDependency : label.dependency = some dependency) :
    ∃ base ∈ table.settle.labels, base.name = dependency.label ∧
      (table.settled label).address = base.address + .ofInt dependency.offset := by
  have hSettled := dependency_eq_none h (List.mem_map_of_mem hLabel)
  simp only [settled, hDependency] at hSettled ⊢
  cases hReach : table.reach? table.labels.length dependency.label with
  | none =>
      rw [hReach] at hSettled
      cases hDependency.symm.trans hSettled
  | some address =>
      obtain ⟨base, hBase, hName, rfl⟩ := address_settled hReach
      exact ⟨table.settled base, List.mem_map_of_mem hBase, (name_settled table base).trans hName,
        rfl⟩

end SymbolTable
end Micro6502.Assembly
