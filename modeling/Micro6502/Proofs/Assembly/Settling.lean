import Mathlib.Data.List.Perm.Basic
import Micro6502.Proofs.Assembly.SymbolTable

/-! Tables that define the same names in the same way. The order of the definitions plays no
part in a look-up and none in settling, nor do the lines on which they stand and the places
where the relative ones do. -/

namespace Micro6502.Assembly

/-- Where a condition selects one entry at most, it selects the same one in any order. -/
theorem find?_of_perm {α : Type} {p : α → Bool} {entries others : List α}
    (h : others.Perm entries)
    (hUnique : ∀ entry ∈ entries, ∀ other ∈ entries, p entry = true → p other = true →
      other = entry) : others.find? p = entries.find? p := by
  cases hFound : entries.find? p with
  | none =>
      rw [List.find?_eq_none] at hFound ⊢
      exact fun other hOther => hFound other (h.mem_iff.mp hOther)
  | some entry =>
      have hEntry := List.mem_of_find?_eq_some hFound
      cases hOther : others.find? p with
      | none =>
          have hNone := List.find?_eq_none.mp hOther entry (h.mem_iff.mpr hEntry)
          exact absurd (List.find?_some hFound) hNone
      | some other =>
          have hMem := h.mem_iff.mp (List.mem_of_find?_eq_some hOther)
          rw [hUnique entry hEntry other hMem (List.find?_some hFound) (List.find?_some hOther)]

namespace Label

/-- A label without its line, and if it is relative without the place of its definition. -/
def bare (label : Label) : Label :=
  { label with line := 0, address := if label.dependency = none then label.address else 0 }

@[simp] theorem name_bare (label : Label) : label.bare.name = label.name := rfl

@[simp] theorem dependency_bare (label : Label) : label.bare.dependency = label.dependency := rfl

theorem address_bare {label : Label} (h : label.dependency = none) :
    label.bare.address = label.address :=
  if_pos h

/-- Labels that agree without their lines have the same dependency. -/
theorem dependency_eq_of_bare {label other : Label} (h : other.bare = label.bare) :
    other.dependency = label.dependency := by
  rw [← dependency_bare other, h, dependency_bare]

/-- A plain label keeps its address when its line is taken off. -/
theorem address_eq_of_bare {label other : Label} (h : other.bare = label.bare)
    (hPlain : label.dependency = none) : other.address = label.address := by
  have hOther : other.dependency = none := (dependency_eq_of_bare h).trans hPlain
  rw [← address_bare hOther, h, address_bare hPlain]

end Label

namespace SymbolTable

/-- The address of a label that is settled. -/
def address? (table : SymbolTable) (name : Text) : Option Address :=
  (table.lookup? name).map Label.address

/-- The same names are defined in the same way, each of them once. -/
structure Alike (table other : SymbolTable) : Prop where
  distinct : table.Distinct
  labels : (other.labels.map Label.bare).Perm (table.labels.map Label.bare)

namespace Alike

variable {table other : SymbolTable} (h : table.Alike other)

include h

/-- A search for a name finds the same definition in both tables. Names are distinct, so the order
cannot decide which one is found. -/
theorem find?_bare {p : Label → Bool} {name : Text} (hBare : ∀ label, p label.bare = p label)
    (hName : ∀ label, p label = true → label.name = name) :
    (other.labels.find? p).map Label.bare = (table.labels.find? p).map Label.bare := by
  have hSame : p ∘ Label.bare = p := funext hBare
  have hFind : (other.labels.map Label.bare).find? p = (table.labels.map Label.bare).find? p := by
    apply find?_of_perm h.labels
    intro label hLabel another hAnother hFirst hSecond
    have hNodup : ((table.labels.map Label.bare).map Label.name).Nodup := by
      rw [List.map_map]
      exact h.distinct
    exact List.inj_on_of_nodup_map hNodup hAnother hLabel
      ((hName another hSecond).trans (hName label hFirst).symm)
  rwa [List.find?_map, List.find?_map, hSame] at hFind

theorem find? (name : Text) :
    (other.find? name).map Label.bare = (table.find? name).map Label.bare :=
  h.find?_bare (fun _ => rfl) fun _ hName => of_decide_eq_true hName

/-- A name that is settled in one table is settled in the other, at the same address. -/
theorem address? (name : Text) : other.address? name = table.address? name := by
  have hLookup : (other.lookup? name).map Label.bare = (table.lookup? name).map Label.bare := by
    apply h.find?_bare (fun _ => rfl)
    intro label hLabel
    rw [Bool.and_eq_true] at hLabel
    exact of_decide_eq_true hLabel.1
  unfold SymbolTable.address?
  cases hTable : table.lookup? name with
  | none =>
      rw [hTable, Option.map_none, Option.map_eq_none_iff] at hLookup
      rw [hLookup]
  | some label =>
      rw [hTable, Option.map_some, Option.map_eq_some_iff] at hLookup
      obtain ⟨another, hOther, hBare⟩ := hLookup
      rw [hOther]
      exact congrArg some (Label.address_eq_of_bare hBare (lookup?_eq_some hTable).2.2)

/-- The way from a name visits the same labels in both tables. -/
theorem reach? (steps : Nat) (name : Text) :
    other.reach? steps name = table.reach? steps name := by
  induction steps generalizing name with
  | zero => rfl
  | succ steps ih =>
      have hFind := h.find? name
      rw [SymbolTable.reach?, SymbolTable.reach?]
      cases hTable : table.find? name with
      | none =>
          rw [hTable, Option.map_none, Option.map_eq_none_iff] at hFind
          rw [hFind]
      | some label =>
          rw [hTable, Option.map_some, Option.map_eq_some_iff] at hFind
          obtain ⟨another, hOther, hBare⟩ := hFind
          rw [hOther]
          simp only [Label.dependency_eq_of_bare hBare]
          cases hPlain : label.dependency with
          | none => exact congrArg some (Label.address_eq_of_bare hBare hPlain)
          | some dependency =>
              dsimp only
              rw [ih]

/-- Settling does the same to every label. -/
theorem settled : other.settled = table.settled := by
  have hLength : other.labels.length = table.labels.length := by
    have hBare := h.labels.length_eq
    rwa [List.length_map, List.length_map] at hBare
  funext label
  unfold SymbolTable.settled
  rw [hLength]
  simp only [h.reach?]

end Alike

/-- Settling does not look at lines, nor at the place of a relative definition. -/
theorem bare_settled (table : SymbolTable) (label : Label) :
    (table.settled label.bare).bare = (table.settled label).bare := by
  cases hDependency : label.dependency with
  | none =>
      have hBare : label.bare.dependency = none := hDependency
      rw [settled_of_plain hDependency, settled_of_plain hBare]
      simp only [Label.bare, hDependency, if_true]
  | some dependency =>
      have hBare : label.bare.dependency = some dependency := hDependency
      simp only [settled, hDependency, hBare]
      cases table.reach? table.labels.length dependency.label with
      | none => simp [Label.bare, hDependency]
      | some base => rfl

/-- Tables that agree still agree when both are settled. -/
theorem Alike.settle {table other : SymbolTable} (h : table.Alike other) :
    table.settle.Alike other.settle where
  distinct := h.distinct.settle
  labels := by
    -- One function settles both tables, and it sees no more of a label than its bare form.
    have hMap : ∀ labels : List Label, (labels.map table.settled).map Label.bare =
        (labels.map Label.bare).map fun label => (table.settled label).bare := by
      intro labels
      rw [List.map_map, List.map_map]
      exact List.map_congr_left fun label _ => (bare_settled table label).symm
    simp only [SymbolTable.settle, h.settled, hMap]
    exact h.labels.map _

/-- There is no complaint about a table whose labels are all settled. -/
theorem complaint?_eq_none {table : SymbolTable} :
    table.complaint? = none ↔ ∀ label ∈ table.labels, label.dependency = none := by
  constructor
  · exact fun h label => dependency_eq_none h
  · intro h
    have hMissing : table.labels.findSome? table.missing? = none := by
      rw [List.findSome?_eq_none_iff]
      intro label hLabel
      rw [missing?, h label hLabel]
    have hCircular : table.labels.findSome? circular? = none := by
      rw [List.findSome?_eq_none_iff]
      intro label hLabel
      rw [circular?, h label hLabel]
    rw [complaint?, hMissing, hCircular]

/-- If all labels of the one are settled, then so are those of the other. -/
theorem Alike.complaint? {table other : SymbolTable} (h : table.Alike other)
    (hTable : table.complaint? = none) : other.complaint? = none := by
  rw [complaint?_eq_none] at hTable ⊢
  intro label hLabel
  have hBare := h.labels.mem_iff.mp (List.mem_map_of_mem hLabel)
  obtain ⟨another, hAnother, hSame⟩ := List.mem_map.mp hBare
  exact (Label.dependency_eq_of_bare hSame).symm.trans (hTable another hAnother)

/-- The addresses of settled labels, each with its name. -/
def entries (labels : List Label) : List (Text × Address) :=
  labels.map fun label => (label.name, label.address)

/-- Settled tables that agree have the same names at the same addresses, in some order. -/
theorem Alike.entries {table other : SymbolTable} (h : table.Alike other)
    (hTable : table.complaint? = none) :
    (SymbolTable.entries other.labels).Perm (SymbolTable.entries table.labels) := by
  have hBare : ∀ {t : SymbolTable}, t.complaint? = none →
      SymbolTable.entries t.labels = SymbolTable.entries (t.labels.map Label.bare) := by
    intro t ht
    unfold SymbolTable.entries
    rw [List.map_map]
    apply List.map_congr_left
    intro label hLabel
    rw [Function.comp_apply, Label.name_bare, Label.address_bare (dependency_eq_none ht hLabel)]
  rw [hBare hTable, hBare (h.complaint? hTable)]
  exact h.labels.map _

end SymbolTable
end Micro6502.Assembly
