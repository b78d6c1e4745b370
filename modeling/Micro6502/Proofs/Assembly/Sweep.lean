import Mathlib.Logic.Function.Iterate
import Mathlib.Logic.Relation
import Micro6502.Assembly.Layout
import Micro6502.Proofs.Assembly.Chain

/-! Settling by sweeps. Another way of settling a table is to go over it again and again and to
settle in place what can be settled by now, so that one sweep sees labels which it has settled
itself. It comes to an end, and it comes to the same as following every chain on its own. -/

namespace Micro6502.Assembly.SymbolTable

/-- A relative label at its address, if its dependency is settled by now. -/
def advance? (table : SymbolTable) (label : Label) : Option Label :=
  match label.dependency with
  | none => none
  | some dependency => match table.lookup? dependency.label with
    | none => none
    | some base =>
      some { label with address := base.address + .ofInt dependency.offset, dependency := none }

/-- Go on over the labels behind those that were passed, and settle each one in place if that can
be done by now. The flag says whether any label has been settled. -/
def sweepFrom (passed : List Label) (progress : Bool) : List Label → SymbolTable × Bool
  | [] => ({ labels := passed }, progress)
  | label :: rest => match advance? { labels := passed ++ label :: rest } label with
    | none => sweepFrom (passed ++ [label]) progress rest
    | some settled => sweepFrom (passed ++ [settled]) true rest

def sweep (table : SymbolTable) : SymbolTable × Bool := sweepFrom [] false table.labels

/-- The number of labels that are not settled. -/
def unsettled (table : SymbolTable) : Nat :=
  table.labels.countP fun label => label.dependency.isSome

/-- One label is settled in place. -/
inductive Advances (table : SymbolTable) : SymbolTable → Prop
  | label {front back : List Label} {label settled : Label}
      (hLabels : table.labels = front ++ label :: back)
      (hAdvance : table.advance? label = some settled) :
      Advances table { labels := front ++ settled :: back }

/-- A label is settled in place only if its dependency is settled by now, and it comes to lie at
its distance from that one. -/
theorem advance?_eq_some {table : SymbolTable} {label settled : Label}
    (h : table.advance? label = some settled) :
    ∃ dependency base, label.dependency = some dependency ∧
      table.lookup? dependency.label = some base ∧
      settled = { label with
        address := base.address + .ofInt dependency.offset
        dependency := none } := by
  unfold advance? at h
  split at h
  · cases h
  next dependency hDependency =>
    split at h
    · cases h
    next base hBase =>
      cases h
      exact ⟨dependency, base, hDependency, hBase, rfl⟩

theorem advance?_eq_none {table : SymbolTable} {label : Label}
    (h : table.advance? label = none) {dependency : Dependency}
    (hDependency : label.dependency = some dependency) :
    table.lookup? dependency.label = none := by
  rw [advance?, hDependency] at h
  cases hBase : table.lookup? dependency.label with
  | none => rfl
  | some base => simp [hBase] at h

/-- Each label that is settled leaves one less to settle. This is what brings the sweeps to an
end. -/
theorem Advances.unsettled_lt {table next : SymbolTable} (h : Advances table next) :
    next.unsettled < table.unsettled := by
  obtain ⟨hLabels, hAdvance⟩ := h
  obtain ⟨dependency, base, hDependency, -, rfl⟩ := advance?_eq_some hAdvance
  simp only [unsettled, hLabels, List.countP_append, List.countP_cons, hDependency,
    Option.isSome_none, Option.isSome_some, if_true]
  simp

theorem unsettled_le {table later : SymbolTable}
    (h : Relation.ReflTransGen Advances table later) : later.unsettled ≤ table.unsettled := by
  induction h with
  | refl => exact Nat.le_refl _
  | tail _ hLast ih => exact Nat.le_trans (Nat.le_of_lt hLast.unsettled_lt) ih

/-- A sweep settles labels one after the other, and reports progress if there was one at least. If
there was none, then no label can be settled. -/
theorem sweepFrom_advances (passed : List Label) (progress : Bool) (rest : List Label) :
    let table : SymbolTable := { labels := passed ++ rest }
    Relation.ReflTransGen Advances table (sweepFrom passed progress rest).1 ∧
      ((sweepFrom passed progress rest).2 = true → progress = true ∨
        (sweepFrom passed progress rest).1.unsettled < table.unsettled) ∧
      ((sweepFrom passed progress rest).2 = false → progress = false ∧
        (sweepFrom passed progress rest).1 = table ∧
        ∀ label ∈ rest, table.advance? label = none) := by
  induction rest generalizing passed progress with
  | nil =>
      dsimp only [sweepFrom]
      rw [List.append_nil]
      exact ⟨.refl, .inl, fun h => ⟨h, rfl, fun _ => nofun⟩⟩
  | cons label rest ih =>
      dsimp only [sweepFrom]
      split
      next hNone =>
        have hRest := ih (passed ++ [label]) progress
        rw [List.append_assoc, List.singleton_append] at hRest
        refine ⟨hRest.1, hRest.2.1, fun hIdle => ?_⟩
        obtain ⟨hProgress, hSame, hStuck⟩ := hRest.2.2 hIdle
        exact ⟨hProgress, hSame, List.forall_mem_cons.mpr ⟨hNone, hStuck⟩⟩
      next settled hSome =>
        have hRest := ih (passed ++ [settled]) true
        rw [List.append_assoc, List.singleton_append] at hRest
        have hStep : Advances { labels := passed ++ label :: rest }
            { labels := passed ++ settled :: rest } := .label rfl hSome
        refine ⟨.head hStep hRest.1, fun _ => .inr ?_, fun hIdle => ?_⟩
        · exact Nat.lt_of_le_of_lt (unsettled_le hRest.1) hStep.unsettled_lt
        · cases (hRest.2.2 hIdle).1

/-- No label can be settled any more. -/
def Stuck (table : SymbolTable) : Prop := ∀ label ∈ table.labels, table.advance? label = none

/-- A sweep does nothing but settle labels in place, one after another. -/
theorem advances_sweep (table : SymbolTable) :
    Relation.ReflTransGen Advances table table.sweep.1 :=
  (sweepFrom_advances [] false table.labels).1

/-- A sweep with progress has settled a label, so there are fewer left. -/
theorem unsettled_sweep {table : SymbolTable} (h : table.sweep.2 = true) :
    table.sweep.1.unsettled < table.unsettled := by
  rcases (sweepFrom_advances [] false table.labels).2.1 h with hFalse | hLess
  · cases hFalse
  · exact hLess

/-- A sweep without progress has changed nothing, and no label is left that could be settled. -/
theorem stuck_of_sweep {table : SymbolTable} (h : table.sweep.2 = false) :
    table.sweep.1 = table ∧ table.Stuck :=
  ((sweepFrom_advances [] false table.labels).2.2 h).2

/-- Sweep over the labels until a sweep makes no progress. -/
def sweeps (table : SymbolTable) : SymbolTable :=
  if table.sweep.2 then table.sweep.1.sweeps else table.sweep.1
termination_by table.unsettled
decreasing_by exact unsettled_sweep (by assumption)

/-- There are no more sweeps with progress than labels to settle. -/
theorem exists_iterate_sweeps (table : SymbolTable) :
    ∃ count ≤ table.unsettled, table.sweeps = (fun t : SymbolTable => t.sweep.1)^[count] table ∧
      Relation.ReflTransGen Advances table table.sweeps ∧ table.sweeps.sweep.2 = false := by
  fun_induction sweeps table with
  | case1 table hProgress ih =>
      obtain ⟨count, hCount, hIterate, hAdvances, hIdle⟩ := ih
      refine ⟨count + 1, ?_, ?_, (advances_sweep table).trans hAdvances, hIdle⟩
      · exact Nat.lt_of_le_of_lt hCount (unsettled_sweep hProgress)
      · rw [Function.iterate_succ_apply]
        exact hIterate
  | case2 table hProgress =>
      have hIdle := Bool.eq_false_iff.mpr hProgress
      rw [(stuck_of_sweep hIdle).1]
      exact ⟨0, Nat.zero_le _, rfl, .refl, hIdle⟩

section

variable {table current next : SymbolTable}

/-- A table on the way from `table` to its settled form. Its relative labels are still as they
were. -/
structure Between (table current : SymbolTable) : Prop where
  settled : current.labels.map table.settled = table.settle.labels
  relative : ∀ label ∈ current.labels, label.dependency ≠ none → label ∈ table.labels

theorem between_refl (table : SymbolTable) : table.Between table :=
  ⟨rfl, fun _ hLabel _ => hLabel⟩

/-- What has been settled so far lies where its name leads to. -/
theorem Between.reach?_eq (h : table.Between current) (hDistinct : table.Distinct) {name : Text}
    {label : Label} (hLookup : current.lookup? name = some label) :
    table.reach? table.labels.length name = some label.address := by
  obtain ⟨hLabel, rfl, hPlain⟩ := lookup?_eq_some hLookup
  have hMem : label ∈ table.settle.labels := by
    rw [← h.settled]
    exact List.mem_map.mpr ⟨label, hLabel, settled_of_plain hPlain⟩
  obtain ⟨first, hFirst, rfl⟩ := List.mem_map.mp hMem
  obtain ⟨way, base, hChain⟩ := exists_chain_of_settled hFirst hPlain
  rw [name_settled, hChain.reach?_eq hDistinct (hChain.length_lt hDistinct),
    hChain.settled_eq hDistinct]

/-- To settle a label in place is to settle it by following its chain. -/
theorem Between.advances (h : table.Between current) (hDistinct : table.Distinct)
    (hNext : Advances current next) : table.Between next := by
  obtain @⟨front, back, label, advanced, hLabels, hAdvance⟩ := hNext
  obtain ⟨dependency, base, hDependency, hBase, rfl⟩ := advance?_eq_some hAdvance
  have hReach := h.reach?_eq hDistinct hBase
  constructor
  · rw [← h.settled, hLabels, List.map_append, List.map_append, List.map_cons, List.map_cons]
    simp only [SymbolTable.settled, hDependency, hReach]
  · intro other hOther hRelative
    rw [List.mem_append, List.mem_cons] at hOther
    refine h.relative other ?_ hRelative
    rw [hLabels, List.mem_append, List.mem_cons]
    rcases hOther with hFront | rfl | hBack
    · exact .inl hFront
    · exact absurd rfl hRelative
    · exact .inr (.inr hBack)

/-- Any number of labels may be settled in place, one after the other. -/
theorem Between.run (h : table.Between current) (hDistinct : table.Distinct)
    (hRun : Relation.ReflTransGen Advances current next) : table.Between next := by
  induction hRun with
  | refl => exact h
  | tail _ hLast ih => exact ih.advances hDistinct hLast

/-- Every label is there under its name, either settled or as it was. -/
theorem Between.exists_now (h : table.Between current) (hDistinct : table.Distinct)
    {label : Label} (hLabel : label ∈ table.labels) :
    ∃ now ∈ current.labels, now.name = label.name ∧ (now.dependency = none ∨ now = label) := by
  have hMem : table.settled label ∈ current.labels.map table.settled := by
    rw [h.settled]
    exact List.mem_map_of_mem hLabel
  obtain ⟨now, hNow, hSame⟩ := List.mem_map.mp hMem
  have hName : now.name = label.name := by
    rw [← name_settled table now, hSame, name_settled]
  refine ⟨now, hNow, hName, ?_⟩
  by_cases hPlain : now.dependency = none
  · exact .inl hPlain
  · exact .inr (hDistinct.eq_of_name_eq hLabel (h.relative now hNow hPlain) hName)

/-- Where no label can be settled any more, all labels are settled from which a chain leads to a
plain one. -/
theorem Between.lookup?_ne_none (h : table.Between current) (hDistinct : table.Distinct)
    (hStuck : current.Stuck) {label base : Label} {way : List Dependency}
    (hChain : table.Chain label way base) : current.lookup? label.name ≠ none := by
  have hFound : ∀ now ∈ current.labels, now.dependency = none →
      current.lookup? now.name ≠ none := by
    intro now hNow hPlain hNone
    simpa [hPlain] using List.find?_eq_none.mp hNone now hNow
  induction hChain with
  | plain hLabel hPlain =>
      obtain ⟨now, hNow, hName, hSettled | rfl⟩ := h.exists_now hDistinct hLabel
      · exact hName ▸ hFound now hNow hSettled
      · exact hFound now hNow hPlain
  | relative hLabel hDependency hNext _ ih =>
      obtain ⟨now, hNow, hName, hSettled | rfl⟩ := h.exists_now hDistinct hLabel
      · exact hName ▸ hFound now hNow hSettled
      · rw [hNext] at ih
        exact absurd (advance?_eq_none (hStuck now hNow) hDependency) ih

/-- Where no label can be settled any more, the table is settled. -/
theorem Between.eq_settle (h : table.Between current) (hDistinct : table.Distinct)
    (hStuck : current.Stuck) : current = table.settle := by
  have hDone : ∀ label ∈ current.labels, table.settled label = label := by
    intro label hLabel
    cases hDependency : label.dependency with
    | none => exact settled_of_plain hDependency
    | some dependency =>
        cases hReach : table.reach? table.labels.length dependency.label with
        | none => simp only [SymbolTable.settled, hDependency, hReach]
        | some address =>
            obtain ⟨next, hNext, way, base, hChain⟩ := exists_chain hReach
            have hLookup := h.lookup?_ne_none hDistinct hStuck hChain
            rw [hNext] at hLookup
            exact absurd (advance?_eq_none (hStuck label hLabel) hDependency) hLookup
  have hLabels : current.labels = table.settle.labels := by
    rw [← h.settled, List.map_congr_left hDone, List.map_id']
  exact congrArg SymbolTable.mk hLabels

/-- Repeated sweeps settle a table just as following the chains of its labels does. -/
theorem sweeps_eq_settle (hDistinct : table.Distinct) : table.sweeps = table.settle := by
  obtain ⟨-, -, -, hRun, hIdle⟩ := exists_iterate_sweeps table
  exact ((between_refl table).run hDistinct hRun).eq_settle hDistinct (stuck_of_sweep hIdle).2

end

/-- Sweep over the labels, and say what is wrong if one of them is left. -/
def resolve (table : SymbolTable) : Except Diagnostic SymbolTable :=
  match table.sweeps.complaint? with
  | some diagnostic => .error diagnostic
  | none => .ok table.sweeps

/-- The tables that come out of any series of accepted definitions. -/
inductive Built : SymbolTable → Prop
  | empty : Built {}
  | plain {table next : SymbolTable} {name : Text} {address : Address} {line : Nat}
      (hTable : Built table) (hDefine : table.define name address line = .ok next) : Built next
  | relative {table next : SymbolTable} {name : Text} {dependency : Dependency}
      {address : Address} {line : Nat} (hTable : Built table)
      (hDefine : table.defineRelative name dependency address line = .ok next) : Built next

/-- Every accepted definition is of a new name. -/
theorem Built.distinct {table : SymbolTable} (h : table.Built) : table.Distinct := by
  induction h with
  | empty => exact List.nodup_nil
  | plain _ hDefine ih =>
      obtain ⟨hNew, rfl⟩ := define_eq_ok hDefine
      exact ih.push hNew
  | relative _ hDefine ih =>
      obtain ⟨hNew, rfl⟩ := defineRelative_eq_ok hDefine
      exact ih.push hNew

/-- Sweeping succeeds just if there is nothing to complain of in the settled table, and that table
is what comes out. -/
theorem resolve_eq_ok {table result : SymbolTable} (hDistinct : table.Distinct) :
    table.resolve = .ok result ↔ table.settle.complaint? = none ∧ result = table.settle := by
  rw [resolve, sweeps_eq_settle hDistinct]
  cases table.settle.complaint? with
  | none => simp [eq_comm]
  | some diagnostic => simp

/-- Sweeping settles relative labels in any order of definition. It comes to an end, with the table
that the first pass goes on with; nothing is left just if a chain leads from every label to a plain
one; then every label lies where its chain ends, plus the distances on the way; and no address
depends on the order in which labels were defined. -/
theorem resolve_of_built {table : SymbolTable} (hBuilt : table.Built) :
    (∃ count ≤ table.unsettled,
      table.sweeps = (fun t : SymbolTable => t.sweep.1)^[count] table ∧
      table.sweeps.sweep.2 = false) ∧
    (∀ layout : Layout, layout.symbols = table →
      layout.close = table.resolve.map fun symbols => { layout with symbols }) ∧
    ((∃ result, table.resolve = .ok result) ↔
      ∀ label ∈ table.labels, ∃ way base, table.Chain label way base) ∧
    ∀ result, table.resolve = .ok result →
      List.Forall₂ table.Settles table.labels result.labels ∧
      ∀ other : SymbolTable, other.Built → other.labels.Perm table.labels →
        ∃ another, other.resolve = .ok another ∧
          ∀ name, another.address? name = result.address? name := by
  have hDistinct := hBuilt.distinct
  refine ⟨?_, ?_, ?_, ?_⟩
  · obtain ⟨count, hCount, hIterate, -, hIdle⟩ := exists_iterate_sweeps table
    exact ⟨count, hCount, hIterate, hIdle⟩
  · rintro layout rfl
    rw [Layout.close, resolve, sweeps_eq_settle hDistinct]
    cases layout.symbols.settle.complaint? with
    | none => rfl
    | some diagnostic => rfl
  · simp only [resolve_eq_ok hDistinct, exists_and_left, exists_eq, and_true]
    exact complaint?_settle_eq_none hDistinct
  · intro result hResult
    obtain ⟨hSettled, rfl⟩ := (resolve_eq_ok hDistinct).mp hResult
    constructor
    · rw [settle, List.forall₂_map_right_iff, List.forall₂_same]
      intro label hLabel
      exact settles_settled hDistinct (dependency_eq_none hSettled (List.mem_map_of_mem hLabel))
    · intro other hOther hPerm
      have hAlike : table.Alike other := ⟨hDistinct, hPerm.map _⟩
      exact ⟨_, (resolve_eq_ok hOther.distinct).mpr ⟨hAlike.settle.complaint? hSettled, rfl⟩,
        hAlike.settle.address?⟩

/-- Two labels that are relative to one further down, the second by way of an address below zero;
and the same labels the other way round. -/
theorem resolve_of_built_backwards :
    let last : Label := ⟨"LAST".toList, 0x0300, some ⟨"NEXT".toList, 12⟩, 1⟩
    let next : Label := ⟨"NEXT".toList, 0x0300, some ⟨"BASE".toList, -9⟩, 2⟩
    let base : Label := ⟨"BASE".toList, 0x0002, none, 3⟩
    let table : SymbolTable := { labels := [last, next, base] }
    let other : SymbolTable := { labels := [base, next, last] }
    table.Built ∧ other.Built ∧ other.labels.Perm table.labels ∧
      ∃ result, table.resolve = .ok result ∧
        result.labels.map Label.address = [0x0005, 0xFFF9, 0x0002] ∧
        List.Forall₂ table.Settles table.labels result.labels ∧
        ∃ another, other.resolve = .ok another ∧
          ∀ name, another.address? name = result.address? name := by
  intro last next base table other
  have hBuilt : table.Built := by
    have hLast : defineRelative {} last.name ⟨next.name, 12⟩ 0x0300 1 =
        .ok { labels := [last] } := by rfl
    have hNext : defineRelative { labels := [last] } next.name ⟨base.name, -9⟩ 0x0300 2 =
        .ok { labels := [last, next] } := by rfl
    have hBase : define { labels := [last, next] } base.name 0x0002 3 = .ok table := by rfl
    exact .plain (.relative (.relative .empty hLast) hNext) hBase
  have hOther : other.Built := by
    have hBase : define {} base.name 0x0002 3 = .ok { labels := [base] } := by rfl
    have hNext : defineRelative { labels := [base] } next.name ⟨base.name, -9⟩ 0x0300 2 =
        .ok { labels := [base, next] } := by rfl
    have hLast : defineRelative { labels := [base, next] } last.name ⟨next.name, 12⟩ 0x0300 1 =
        .ok other := by rfl
    exact .relative (.relative (.plain .empty hBase) hNext) hLast
  have hPerm : other.labels.Perm table.labels := by decide +kernel
  have hResult : table.resolve = .ok table.settle :=
    (resolve_eq_ok hBuilt.distinct).mpr ⟨by decide +kernel, rfl⟩
  obtain ⟨-, -, -, hAll⟩ := resolve_of_built hBuilt
  obtain ⟨hSettles, hAlike⟩ := hAll _ hResult
  exact ⟨hBuilt, hOther, hPerm, _, hResult, by decide +kernel, hSettles, hAlike other hOther hPerm⟩

end Micro6502.Assembly.SymbolTable
