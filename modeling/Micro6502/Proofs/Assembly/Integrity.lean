import Mathlib.Data.List.Induction
import Micro6502.Proofs.Assembly.Diagnosis

/-! A symbol table over any series of calls, whether they succeed or not. Its names are those that
were defined, in the order in which they first were; a call that fails defines nothing; and the
address that has been found for a name once is its address for good. -/

namespace Micro6502.Assembly

/-- Whether a label is defined relative to itself. -/
def Label.refersToItself (label : Label) : Bool :=
  match label.dependency with
  | none => false
  | some dependency => label.name = dependency.label

namespace SymbolTable

/-- What may be asked of a symbol table. A label that is to be defined is given as it would stand
in the table; it is plain if it has no dependency. -/
inductive Call where
  | define (label : Label)
  | resolve

/-- Define a label, plain or relative. -/
def introduce (table : SymbolTable) (label : Label) : Except Cause SymbolTable :=
  match label.dependency with
  | none => table.define label.name label.address label.line
  | some dependency => table.defineRelative label.name dependency label.address label.line

/-- The table after a call. A definition that fails leaves the table to the caller; what has been
settled stays so, also if something else cannot be. -/
def after (table : SymbolTable) : Call → SymbolTable
  | .define label => match table.introduce label with
    | .error _ => table
    | .ok next => next
  | .resolve => table.sweeps

/-- The name that a call may define. A label that refers to itself is never accepted. -/
def Call.name? : Call → Option Text
  | .define label => if label.refersToItself then none else some label.name
  | .resolve => none

/-- The names that calls define, each where it comes first. -/
def definedNames (calls : List Call) : List Text := (calls.filterMap Call.name?).eraseDups

/-- A call gives a name an address: it defines the name as a plain label, or it settles it, because
a chain leads from its label to a plain one. -/
def Provides (table : SymbolTable) (name : Text) : Call → Prop
  | .define label => label.name = name ∧ label.dependency = none ∧ table.defines name = false
  | .resolve => ∃ label ∈ table.labels, label.name = name ∧ ¬ table.Stranded label

/-- One of the calls gives a name an address. -/
def Provided (name : Text) : SymbolTable → List Call → Prop
  | _, [] => False
  | table, call :: rest => table.Provides name call ∨ Provided name (table.after call) rest

section

variable {table next : SymbolTable} {label : Label} {name : Text} {cause : Cause}

/-- A label is refused for its name, if that is taken, and else for referring to itself. -/
theorem introduce_eq (table : SymbolTable) (label : Label) : table.introduce label =
    if table.defines label.name then .error (.duplicateLabel label.name)
    else if label.refersToItself then .error (.selfReferentialLabel label.name)
    else .ok (table.push label) := by
  obtain ⟨name, address, dependency, line⟩ := label
  cases dependency with
  | none => simp [introduce, define, Label.refersToItself]
  | some dependency => simp [introduce, defineRelative, Label.refersToItself]

/-- A definition is refused for one of two reasons, and a name that is taken comes first. -/
theorem introduce_eq_error : table.introduce label = .error cause ↔
    table.defines label.name = true ∧ cause = .duplicateLabel label.name ∨
      table.defines label.name = false ∧ label.refersToItself = true ∧
        cause = .selfReferentialLabel label.name := by
  rw [introduce_eq]
  cases hDefines : table.defines label.name with
  | true => simp [eq_comm (a := cause)]
  | false =>
      cases hItself : label.refersToItself with
      | true | false => simp [eq_comm (a := cause)]

theorem eq_push_of_introduce (h : table.introduce label = .ok next) : next = table.push label := by
  rw [introduce_eq] at h
  split at h
  · cases h
  · split at h
    · cases h
    · exact (Except.ok.inj h).symm

/-- A refused definition leaves the table alone, and any other appends its label. -/
theorem after_define (table : SymbolTable) (label : Label) : table.after (.define label) =
    if table.defines label.name || label.refersToItself then table else table.push label := by
  rw [after, introduce_eq]
  cases table.defines label.name with
  | true => rfl
  | false =>
      cases label.refersToItself with
      | true | false => rfl

/-- On distinct names, to settle labels in place is to settle them all at once. -/
theorem after_resolve (hDistinct : table.Distinct) : table.after .resolve = table.settle :=
  sweeps_eq_settle hDistinct

theorem Distinct.after (h : table.Distinct) (call : Call) : (table.after call).Distinct := by
  cases call with
  | resolve =>
      rw [after_resolve h]
      exact h.settle
  | define label =>
      rw [after_define]
      split
      · exact h
      · simp_all [h.push]

/-- Names are only ever added, behind those that are there. -/
theorem names_after (hDistinct : table.Distinct) (call : Call) :
    (table.after call).labels.map Label.name = table.labels.map Label.name ++
      call.name?.toList.removeAll (table.labels.map Label.name) := by
  cases call with
  | resolve => simp [after_resolve hDistinct, settle, Call.name?, Function.comp_def]
  | define label =>
      rw [after_define]
      cases hItself : label.refersToItself with
      | true => simp [Call.name?, hItself]
      | false =>
          cases hDefines : table.defines label.name with
          | true =>
              have hName := defines_eq_true.mp hDefines
              simp [Call.name?, hItself, List.removeAll, hName]
          | false =>
              have hName := defines_eq_false.mp hDefines
              simp only [List.mem_map] at hName
              simp [Call.name?, hItself, List.removeAll, hName, push]

/-- One more call adds its name behind the others, unless it is there already or there is none. -/
theorem definedNames_concat (calls : List Call) (call : Call) :
    definedNames (calls ++ [call]) =
      definedNames calls ++ call.name?.toList.removeAll (definedNames calls) := by
  unfold definedNames
  rw [List.filterMap_append, List.eraseDups_append]
  generalize calls.filterMap Call.name? = names
  cases hName : call.name? with
  | none => simp [hName]
  | some name =>
      by_cases hDefined : name ∈ names
      · simp [hName, hDefined, List.removeAll]
      · simp [hName, hDefined, List.removeAll, List.eraseDups_cons]

/-- No series of calls makes two labels of one name. -/
theorem distinct_foldl_after (calls : List Call) : (calls.foldl after {}).Distinct :=
  List.foldlRecOn calls after List.nodup_nil fun _ hDistinct call _ => hDistinct.after call

/-- The names in the table are those that were defined, in the order in which they first were. -/
theorem names_foldl_after (calls : List Call) :
    (calls.foldl after {}).labels.map Label.name = definedNames calls := by
  induction calls using List.reverseRecOn with
  | nil => rfl
  | append_singleton calls call ih =>
      rw [List.foldl_concat, names_after (distinct_foldl_after calls), ih, definedNames_concat]

/-- No single call changes what a look-up has found. -/
theorem lookup?_after (hDistinct : table.Distinct) (call : Call)
    (hFound : table.lookup? name = some label) : (table.after call).lookup? name = some label := by
  cases call with
  | resolve =>
      rw [after_resolve hDistinct]
      exact hDistinct.lookup?_settle hFound
  | define other =>
      rw [after_define]
      split
      · exact hFound
      · exact lookup?_of_prefix (List.prefix_append _ _) hFound

/-- Any number of calls leave what a look-up has found, by induction from call to call. -/
theorem lookup?_foldl_after (hDistinct : table.Distinct) (calls : List Call)
    (hFound : table.lookup? name = some label) :
    (calls.foldl after table).lookup? name = some label := by
  induction calls generalizing table with
  | nil => exact hFound
  | cons call rest ih => exact ih (hDistinct.after call) (lookup?_after hDistinct call hFound)

theorem lookup?_eq_none : table.lookup? name = none ↔
    ∀ label ∈ table.labels, label.name = name → label.dependency ≠ none := by
  simp [lookup?]

/-- Nothing is found just under an absent name and under one whose label waits to be settled. -/
theorem Distinct.lookup?_eq_none (h : table.Distinct) : table.lookup? name = none ↔
    table.defines name = false ∨
      ∃ label ∈ table.labels, label.name = name ∧ label.dependency ≠ none := by
  rw [SymbolTable.lookup?_eq_none]
  constructor
  · intro hNone
    cases hDefines : table.defines name with
    | false => exact .inl rfl
    | true =>
        obtain ⟨label, hLabel, hName⟩ := defines_eq_true.mp hDefines
        exact .inr ⟨label, hLabel, hName, hNone label hLabel hName⟩
  · rintro (hAbsent | ⟨waiting, hWaiting, hSame, hPending⟩) label hLabel hName
    · have hDefines := defines_eq_true.mpr ⟨label, hLabel, hName⟩
      rw [hAbsent] at hDefines
      cases hDefines
    · rwa [h.eq_of_name_eq hWaiting hLabel (hName.trans hSame.symm)]

/-- A name without an address gets one from a call just if the call provides it. -/
theorem lookup?_after_eq_none (hDistinct : table.Distinct) (call : Call) :
    (table.after call).lookup? name = none ↔
      table.lookup? name = none ∧ ¬ table.Provides name call := by
  cases call with
  | resolve =>
      have hSettled : table.settle.lookup? name = none ↔
          ∀ label ∈ table.labels, label.name = name → table.Stranded label := by
        rw [lookup?_eq_none, settle, List.forall_mem_map]
        refine forall₂_congr fun label hLabel => ?_
        rw [name_settled, ne_eq, dependency_settled_eq_none hDistinct hLabel, not_not]
      rw [after_resolve hDistinct, hSettled]
      constructor
      · intro hStranded
        constructor
        · rw [lookup?_eq_none]
          intro label hLabel hName hPlain
          exact hStranded label hLabel hName [] label (.plain hLabel hPlain)
        · rintro ⟨label, hLabel, hName, hReaches⟩
          exact hReaches (hStranded label hLabel hName)
      · rintro ⟨-, hNot⟩ label hLabel hName
        by_contra hReaches
        exact hNot ⟨label, hLabel, hName, hReaches⟩
  | define label =>
      rw [after_define]
      split
      next hRefused =>
        have hNot : ¬ table.Provides name (.define label) := by
          rintro ⟨rfl, hPlain, hNew⟩
          simp [hNew, Label.refersToItself, hPlain] at hRefused
        simp [hNot]
      next hAccepted =>
        have hProvides : table.Provides name (.define label) ↔
            label.name = name ∧ label.dependency = none := by
          constructor
          · exact fun hProvides => ⟨hProvides.1, hProvides.2.1⟩
          · rintro ⟨rfl, hPlain⟩
            exact ⟨rfl, hPlain, by simp_all⟩
        rw [hProvides]
        simp [lookup?, push]

/-- After any series of calls a name is without an address just if it was without one before and
no call in the series has given it one. -/
theorem lookup?_foldl_after_eq_none (hDistinct : table.Distinct) (calls : List Call) :
    (calls.foldl after table).lookup? name = none ↔
      table.lookup? name = none ∧ ¬ Provided name table calls := by
  induction calls generalizing table with
  | nil => simp [Provided]
  | cons call rest ih =>
      rw [List.foldl_cons, ih (hDistinct.after call), lookup?_after_eq_none hDistinct, Provided,
        not_or, and_assoc]

end

/-- What holds of a symbol table however it was used. Its names are distinct and stand in the order
in which they were first defined. A definition fails just if the name is there, or if the label
refers to itself under a new name, and leaves the table as it was. What a look-up has found, it
finds after all later calls too. It finds nothing just if the name is absent or its label still
waits to be settled, that is, if no call has given the name an address. -/
theorem integrity_of_calls (calls : List Call) :
    let table := calls.foldl after {}
    (table.Distinct ∧ table.labels.map Label.name = definedNames calls) ∧
    (∀ label,
      (∀ cause, table.introduce label = .error cause ↔
        label.name ∈ definedNames calls ∧ cause = .duplicateLabel label.name ∨
          label.name ∉ definedNames calls ∧ label.refersToItself = true ∧
            cause = .selfReferentialLabel label.name) ∧
      (∀ cause, table.introduce label = .error cause → table.after (.define label) = table) ∧
      ∀ next, table.introduce label = .ok next →
        table.after (.define label) = next ∧ next = table.push label) ∧
    (∀ name label, table.lookup? name = some label →
      ∀ later, ((calls ++ later).foldl after {}).lookup? name = some label) ∧
    ∀ name,
      (table.lookup? name = none ↔ name ∉ definedNames calls ∨
        ∃ label ∈ table.labels, label.name = name ∧ label.dependency ≠ none) ∧
      (table.lookup? name = none ↔ ¬ Provided name {} calls) := by
  intro table
  have hDistinct : table.Distinct := distinct_foldl_after calls
  have hNames : table.labels.map Label.name = definedNames calls := names_foldl_after calls
  have hAbsent : ∀ name, table.defines name = false ↔ name ∉ definedNames calls := by
    intro name
    rw [defines_eq_false, hNames]
  have hPresent : ∀ name, table.defines name = true ↔ name ∈ definedNames calls := by
    intro name
    rw [← Bool.not_eq_false, hAbsent, not_not]
  refine ⟨⟨hDistinct, hNames⟩, fun label => ⟨fun cause => ?_, fun cause hError => ?_,
    fun next hOk => ?_⟩, fun name label hFound later => ?_, fun name => ⟨?_, ?_⟩⟩
  · rw [introduce_eq_error, hPresent, hAbsent]
  · rw [after, hError]
  · rw [after, hOk]
    exact ⟨rfl, eq_push_of_introduce hOk⟩
  · rw [List.foldl_append]
    exact lookup?_foldl_after hDistinct later hFound
  · rw [hDistinct.lookup?_eq_none, hAbsent]
  · have hEmpty : Distinct {} := List.nodup_nil
    have hNone : lookup? {} name = none := rfl
    rw [lookup?_foldl_after_eq_none hEmpty, and_iff_right hNone]

/-- A label is settled by a call that fails for another one, and keeps its address when the other
one's dependency is defined and settled too. -/
theorem integrity_of_calls_interleaved :
    let ping : Label := ⟨"PING".toList, 0x0600, some ⟨"PONG".toList, 1⟩, 1⟩
    let base : Label := ⟨"BASE".toList, 0x0300, none, 2⟩
    let tail : Label := ⟨"TAIL".toList, 0x0600, some ⟨"BASE".toList, -2⟩, 3⟩
    let again : Label := ⟨"BASE".toList, 0x0400, none, 4⟩
    let itself : Label := ⟨"SELF".toList, 0x0600, some ⟨"SELF".toList, 1⟩, 5⟩
    let pong : Label := ⟨"PONG".toList, 0x0700, none, 6⟩
    let calls : List Call :=
      [.define ping, .define base, .define tail, .define again, .define itself, .resolve]
    let more : List Call := [.define pong, .resolve]
    let table := calls.foldl after {}
    let later := (calls ++ more).foldl after {}
    table.labels.map Label.name = ["PING".toList, "BASE".toList, "TAIL".toList] ∧
      table.introduce again = .error (.duplicateLabel "BASE".toList) ∧
      table.after (.define again) = table ∧
      table.introduce itself = .error (.selfReferentialLabel "SELF".toList) ∧
      table.lookup? "PING".toList = none ∧ ¬ Provided "PING".toList {} calls ∧
      table.lookup? "TAIL".toList = some { tail with address := 0x02FE, dependency := none } ∧
      later.lookup? "TAIL".toList = some { tail with address := 0x02FE, dependency := none } := by
  intro ping base tail again itself pong calls more table later
  have hTable : table = settle { labels := [ping, base, tail] } :=
    after_resolve (distinct_foldl_after
      [.define ping, .define base, .define tail, .define again, .define itself])
  obtain ⟨⟨-, hNames⟩, hDefine, hLater, hNone⟩ := integrity_of_calls calls
  have hAgain := ((hDefine again).1 (.duplicateLabel again.name)).mpr
    (.inl ⟨by decide +kernel, rfl⟩)
  have hItself := ((hDefine itself).1 (.selfReferentialLabel itself.name)).mpr
    (.inr ⟨by decide +kernel, rfl, rfl⟩)
  have hPing : table.lookup? "PING".toList = none := by
    rw [hTable]
    decide +kernel
  have hTail : table.lookup? "TAIL".toList =
      some { tail with address := 0x02FE, dependency := none } := by
    rw [hTable]
    decide +kernel
  have hDefined : definedNames calls = ["PING".toList, "BASE".toList, "TAIL".toList] := by
    decide +kernel
  exact ⟨hNames.trans hDefined, hAgain, (hDefine again).2.1 _ hAgain, hItself, hPing,
    (hNone "PING".toList).2.mp hPing, hTail, hLater _ _ hTail more⟩

end SymbolTable
end Micro6502.Assembly
