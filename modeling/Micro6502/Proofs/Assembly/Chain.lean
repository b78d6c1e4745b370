import Mathlib.Data.List.Perm.Subperm
import Micro6502.Proofs.Assembly.Settling

/-! Chains of relative labels. From each label at most one chain of dependencies leads to a plain
one. It is never longer than the table, which is why settling may stop after that many steps, and
it says where the label comes to lie. -/

namespace Micro6502.Assembly.SymbolTable

/-- The way from a label, by the names of dependencies, to a plain label. -/
inductive Chain (table : SymbolTable) : Label → List Dependency → Label → Prop
  | plain {label : Label} (hLabel : label ∈ table.labels) (hPlain : label.dependency = none) :
      Chain table label [] label
  | relative {label next base : Label} {dependency : Dependency} {way : List Dependency}
      (hLabel : label ∈ table.labels) (hDependency : label.dependency = some dependency)
      (hNext : next.name = dependency.label) (hRest : Chain table next way base) :
      Chain table label (dependency :: way) base

/-- The sum of the distances along a way. -/
def distance : List Dependency → Int
  | [] => 0
  | dependency :: way => dependency.offset + distance way

section

variable {table : SymbolTable}

theorem Chain.mem {label base : Label} {way : List Dependency} (h : table.Chain label way base) :
    label ∈ table.labels := by
  cases h <;> assumption

/-- Among distinct names there is only one way from a label. -/
theorem Chain.unique (hDistinct : table.Distinct) {label base other : Label}
    {way another : List Dependency} (h : table.Chain label way base)
    (hOther : table.Chain label another other) : another = way ∧ other = base := by
  induction h generalizing another with
  | plain hLabel hPlain =>
      cases hOther with
      | plain => exact ⟨rfl, rfl⟩
      | relative _ hDependency => cases hPlain.symm.trans hDependency
  | @relative label next base dependency way hLabel hDependency hNext hRest ih =>
      cases hOther with
      | plain _ hPlain => cases hPlain.symm.trans hDependency
      | relative _ hSame hFollowing hFollows =>
          cases hDependency.symm.trans hSame
          obtain rfl := hDistinct.eq_of_name_eq hRest.mem hFollows.mem (hFollowing.trans hNext.symm)
          obtain ⟨rfl, rfl⟩ := ih hFollows
          exact ⟨rfl, rfl⟩

/-- A way comes by different labels, for the rest of it is shorter and shorter. -/
theorem Chain.exists_visited (hDistinct : table.Distinct) {label base : Label}
    {way : List Dependency} (h : table.Chain label way base) :
    ∃ visited : List Label, visited.Nodup ∧ visited.length = way.length + 1 ∧
      ∀ other ∈ visited, ∃ rest, table.Chain other rest base ∧ rest.length ≤ way.length := by
  induction h with
  | @plain label hLabel hPlain =>
      refine ⟨[label], List.nodup_singleton _, rfl, fun other hOther => ?_⟩
      obtain rfl := List.mem_singleton.mp hOther
      exact ⟨[], .plain hLabel hPlain, Nat.le_refl _⟩
  | @relative label next base dependency way hLabel hDependency hNext hRest ih =>
      have hAll : table.Chain label (dependency :: way) base :=
        .relative hLabel hDependency hNext hRest
      obtain ⟨visited, hNodup, hLength, hVisited⟩ := ih
      refine ⟨label :: visited, List.nodup_cons.mpr ⟨fun hAgain => ?_, hNodup⟩,
        by rw [List.length_cons, hLength, List.length_cons], ?_⟩
      · obtain ⟨rest, hShort, hLess⟩ := hVisited label hAgain
        obtain ⟨rfl, -⟩ := hAll.unique hDistinct hShort
        exact Nat.not_succ_le_self _ hLess
      · intro other hOther
        rcases List.mem_cons.mp hOther with rfl | hOther
        · exact ⟨_, hAll, Nat.le_refl _⟩
        · obtain ⟨rest, hShort, hLess⟩ := hVisited other hOther
          exact ⟨rest, hShort, Nat.le_succ_of_le hLess⟩

/-- A chain comes by labels of the table, all of them different, and its last one is plain. So it
has fewer dependencies than the table has labels. -/
theorem Chain.length_lt (hDistinct : table.Distinct) {label base : Label}
    {way : List Dependency} (h : table.Chain label way base) :
    way.length < table.labels.length := by
  obtain ⟨visited, hNodup, hLength, hVisited⟩ := h.exists_visited hDistinct
  have hSubset : visited ⊆ table.labels := by
    intro other hOther
    obtain ⟨rest, hChain, -⟩ := hVisited other hOther
    exact hChain.mem
  have hBound := (List.subperm_of_subset hNodup hSubset).length_le
  omega

theorem find?_eq_some {name : Text} {label : Label} (h : table.find? name = some label) :
    label ∈ table.labels ∧ label.name = name := by
  have hFound := List.find?_some h
  exact ⟨List.mem_of_find?_eq_some h, of_decide_eq_true hFound⟩

theorem Distinct.find?_eq (h : table.Distinct) {label : Label} (hLabel : label ∈ table.labels) :
    table.find? label.name = some label := by
  cases hFound : table.find? label.name with
  | none => simpa using List.find?_eq_none.mp hFound label hLabel
  | some other =>
      obtain ⟨hOther, hName⟩ := find?_eq_some hFound
      rw [h.eq_of_name_eq hLabel hOther hName]

/-- Following a chain takes one step more than it has dependencies. -/
theorem Chain.reach?_eq (hDistinct : table.Distinct) {label base : Label}
    {way : List Dependency} (h : table.Chain label way base) {steps : Nat}
    (hSteps : way.length < steps) :
    table.reach? steps label.name = some (base.address + .ofInt (distance way)) := by
  induction h generalizing steps with
  | plain hLabel hPlain =>
      obtain ⟨steps, rfl⟩ := Nat.exists_eq_add_one_of_ne_zero (Nat.ne_zero_of_lt hSteps)
      rw [reach?, hDistinct.find?_eq hLabel]
      simp only [hPlain, distance]
      exact congrArg some (UInt16.add_zero _).symm
  | relative hLabel hDependency hNext hRest ih =>
      obtain ⟨steps, rfl⟩ := Nat.exists_eq_add_one_of_ne_zero (Nat.ne_zero_of_lt hSteps)
      rw [reach?, hDistinct.find?_eq hLabel]
      simp only [hDependency, ← hNext, ih (Nat.lt_of_succ_lt_succ hSteps), Option.map_some,
        Option.some.injEq]
      rw [distance, Int.add_comm, UInt16.ofInt_add, UInt16.add_assoc]

/-- Where a name leads to, a chain leads from its label. -/
theorem exists_chain {steps : Nat} {name : Text} {address : Address}
    (h : table.reach? steps name = some address) :
    ∃ label, label.name = name ∧ ∃ way base, table.Chain label way base := by
  induction steps generalizing name address with
  | zero => cases h
  | succ steps ih =>
      rw [reach?] at h
      cases hFound : table.find? name with
      | none =>
          rw [hFound] at h
          cases h
      | some label =>
          obtain ⟨hLabel, hName⟩ := find?_eq_some hFound
          rw [hFound] at h
          refine ⟨label, hName, ?_⟩
          cases hDependency : label.dependency with
          | none => exact ⟨[], label, .plain hLabel hDependency⟩
          | some dependency =>
              simp only [hDependency, Option.map_eq_some_iff] at h
              obtain ⟨_, hReach, -⟩ := h
              obtain ⟨next, hNext, way, base, hRest⟩ := ih hReach
              exact ⟨dependency :: way, base, .relative hLabel hDependency hNext hRest⟩

/-- A chain says where its label is settled. -/
theorem Chain.settled_eq (hDistinct : table.Distinct) {label base : Label}
    {way : List Dependency} (h : table.Chain label way base) :
    table.settled label =
      { label with address := base.address + .ofInt (distance way), dependency := none } := by
  cases h with
  | plain hLabel hPlain =>
      have hZero : label.address + .ofInt (distance []) = label.address := UInt16.add_zero _
      rw [settled_of_plain hPlain, hZero, ← hPlain]
  | @relative _ next _ dependency way hLabel hDependency hNext hRest =>
      have hReach := hRest.reach?_eq hDistinct (hRest.length_lt hDistinct)
      rw [hNext] at hReach
      simp only [settled, hDependency, hReach]
      rw [distance, Int.add_comm, UInt16.ofInt_add, UInt16.add_assoc]

/-- A label is settled only where a chain leads from it to a plain one. -/
theorem exists_chain_of_settled {label : Label} (hLabel : label ∈ table.labels)
    (hSettled : (table.settled label).dependency = none) :
    ∃ way base, table.Chain label way base := by
  cases hDependency : label.dependency with
  | none => exact ⟨[], label, .plain hLabel hDependency⟩
  | some dependency =>
      cases hReach : table.reach? table.labels.length dependency.label with
      | none =>
          simp only [settled, hDependency, hReach] at hSettled
          cases hSettled
      | some address =>
          obtain ⟨next, hNext, way, base, hRest⟩ := exists_chain hReach
          exact ⟨dependency :: way, base, .relative hLabel hDependency hNext hRest⟩

/-- All labels can be settled just if a chain leads from every label to a plain one. -/
theorem complaint?_settle_eq_none (hDistinct : table.Distinct) :
    table.settle.complaint? = none ↔
      ∀ label ∈ table.labels, ∃ way base, table.Chain label way base := by
  rw [complaint?_eq_none, settle, List.forall_mem_map]
  refine forall₂_congr fun label hLabel => ⟨exists_chain_of_settled hLabel, ?_⟩
  rintro ⟨way, base, hChain⟩
  rw [hChain.settled_eq hDistinct]

/-- A distance from an address, which may lead below it, wraps in both directions. -/
theorem toNat_add_ofInt (address : Address) (offset : Int) :
    ((address + .ofInt offset).toNat : Int) = ((address.toNat : Int) + offset) % 65536 := by
  have hOffset : (UInt16.ofInt offset).toNat = (offset % 2 ^ 16).toNat % 2 ^ 16 :=
    UInt16.toNat_ofNat'
  rw [UInt16.toNat_add, hOffset]
  omega

/-- A label and what becomes of it. -/
structure Settles (table : SymbolTable) (label settled : Label) : Prop where
  name : settled.name = label.name
  line : settled.line = label.line
  dependency : settled.dependency = none
  plain : label.dependency = none → settled.address = label.address
  address : ∀ way base, table.Chain label way base →
    (settled.address.toNat : Int) = ((base.address.toNat : Int) + distance way) % 65536

/-- Settling moves a relative label to the end of its chain, plus the distances on the way, and
leaves the rest of it alone. -/
theorem settles_settled (hDistinct : table.Distinct) {label : Label}
    (hSettled : (table.settled label).dependency = none) :
    table.Settles label (table.settled label) where
  name := name_settled table label
  line := line_settled table label
  dependency := hSettled
  plain hPlain := by rw [settled_of_plain hPlain]
  address way base hChain := by
    rw [hChain.settled_eq hDistinct]
    exact toNat_add_ofInt base.address (distance way)

end

end Micro6502.Assembly.SymbolTable
