import Micro6502.Assembly.Layout
import Micro6502.Proofs.Assembly.Encoding
import Micro6502.Proofs.Assembly.SymbolTable

/-! The first pass as steps. A line of source is taken in by at most one label and
at most one line of code, in this order; `Takes` says so once. From it come the two
invariants of the pass: what was laid down stays, and nothing is numbered twice. -/

namespace Micro6502.Assembly

theorem except_toOption_eq_some {ε α : Type} {x : Except ε α} {a : α} :
    x.toOption = some a ↔ x = .ok a := by
  cases x <;> simp [Except.toOption]

/-- The statement on a line of source, if there is one. -/
def statement? (source : Text) : Option Statement :=
  if normalize source = [] then none else (classify (normalize source)).toOption

/-- The mnemonic and the operand that a statement carries, if it carries any. -/
def Statement.code? : Statement → Except Cause (Option (Text × Text))
  | .setAddress _ | .labelMath _ _ _ => .ok none
  | .addressLabel _ rest | .label _ rest =>
    if rest = [] then .ok none else (parseInstruction rest).map some
  | .instruction mnemonic operand => .ok (some (mnemonic, operand))

/-- The name of the byte directive. -/
def directiveName : Text := Operation.dcb.mnemonic

/-- Code is either the value list of a directive or an instruction with its operand. -/
theorem encodeStatement_eq_ok {mnemonic operand : Text} {address : Address}
    {symbols : SymbolTable} {encoding : Encoding}
    (h : encodeStatement Catalog.forMnemonic? mnemonic operand address symbols = .ok encoding) :
    (mnemonic = directiveName ∧ ∃ bytes, parseByteList operand = .ok bytes ∧
      bytes.length ≤ directiveLimit ∧
      encoding = { descriptor := .byteDirective bytes.length, bytes, pending := none }) ∨
    ∃ forms parsed, Catalog.forMnemonic? mnemonic = some forms ∧
      (∀ form ∈ forms, form ∈ Catalog.all) ∧ parseOperand operand = .ok parsed ∧
      encode mnemonic forms parsed address symbols = .ok encoding := by
  unfold encodeStatement at h
  split at h
  · cases h
  next forms hForms =>
    split at h
    next hDirective =>
      left
      obtain ⟨form, hMem, hOperation⟩ := List.any_eq_true.mp hDirective
      have hName := ((Catalog.mem_of_forMnemonic? hForms).mp hMem).2
      refine ⟨by rw [← hName, Descriptor.mnemonic, of_decide_eq_true hOperation]; rfl, ?_⟩
      unfold encodeDirective at h
      split at h
      · cases h
      next bytes hBytes =>
        split at h
        next hLimit =>
          cases h
          exact ⟨bytes, hBytes, hLimit, rfl⟩
        next => cases h
    next hInstruction =>
      right
      split at h
      · cases h
      next parsed hParse =>
        refine ⟨forms, parsed, hForms, ?_, hParse, h⟩
        intro form hMem
        have hNamed := ((Catalog.mem_of_forMnemonic? hForms).mp hMem).1
        refine Catalog.mem_all_of_mem_named hNamed fun hOperation => hInstruction ?_
        exact List.any_eq_true.mpr ⟨form, hMem, decide_eq_true hOperation⟩

/-- The directive is no executable instruction, and it is the one form of its name. -/
theorem ne_directiveName {mnemonic : Text} {forms : List Descriptor}
    (hForms : Catalog.forMnemonic? mnemonic = some forms)
    (hAll : ∀ form ∈ forms, form ∈ Catalog.all) : mnemonic ≠ directiveName := by
  rintro rfl
  have hMem : .byteDirective 0 ∈ forms :=
    (Catalog.mem_of_forMnemonic? hForms).mpr ⟨Catalog.mem_named.mpr (.inr rfl), rfl⟩
  exact Catalog.operation_ne_of_mem (hAll _ hMem) rfl

/-- An encoding as a line of code at its place. -/
def Encoding.placed (encoding : Encoding) (address : Address) (line : Nat) : CodeLine :=
  { address, bytes := encoding.bytes, descriptor := encoding.descriptor, line,
    pending := encoding.pending }

namespace Layout

/-- The part of a statement that comes before its code: a label or a new address. -/
def enter (layout : Layout) (line : Nat) : Statement → Except Cause Layout
  | .setAddress address => .ok (layout.moveTo address)
  | .labelMath name label offset => layout.defineRelative line name { label, offset }
  | .addressLabel address _ =>
    .ok { layout.moveTo address with addressLabels := layout.addressLabels + 1 }
  | .label name _ => layout.define line name
  | .instruction _ _ => .ok layout

/-- The ways in which a line of source is taken in. -/
inductive Takes (forms? : FormLookup) (layout : Layout) (line : Nat) (source : Text) :
    Layout → Prop
  | blank (hBlank : normalize source = []) : Takes forms? layout line source layout
  | silent {statement : Statement} {entered : Layout}
      (hStatement : statement? source = some statement)
      (hEnter : layout.enter line statement = .ok entered)
      (hCode : statement.code? = .ok none) : Takes forms? layout line source entered
  | code {statement : Statement} {entered : Layout} {mnemonic operand : Text}
      {encoding : Encoding} (hStatement : statement? source = some statement)
      (hEnter : layout.enter line statement = .ok entered)
      (hCode : statement.code? = .ok (some (mnemonic, operand)))
      (hEncode : encodeStatement forms? mnemonic operand entered.counter entered.symbols =
        .ok encoding) : Takes forms? layout line source (entered.append line encoding)

variable {forms? : FormLookup} {layout next final : Layout} {line : Nat} {source : Text}

/-- An instruction or directive that is accepted is one more line of code, at the counter. -/
theorem addStatement_eq_ok {mnemonic operand : Text}
    (h : layout.addStatement forms? line mnemonic operand = .ok next) :
    ∃ encoding, encodeStatement forms? mnemonic operand layout.counter layout.symbols =
      .ok encoding ∧ next = layout.append line encoding := by
  unfold addStatement at h
  split at h
  · cases h
  next encoding hEncode =>
    cases h
    exact ⟨encoding, hEncode, rfl⟩

/-- What follows a label is code as it would be on a line of its own. -/
theorem takes_of_addRest {statement : Statement} {entered : Layout} {rest : Text}
    (hStatement : statement? source = some statement)
    (hEnter : layout.enter line statement = .ok entered)
    (hRest : statement.code? = if rest = [] then .ok none else (parseInstruction rest).map some)
    (h : entered.addRest forms? line rest = .ok next) : Takes forms? layout line source next := by
  unfold addRest at h
  split at h
  next hEmpty =>
    cases h
    exact .silent hStatement hEnter (by rw [hRest, if_pos hEmpty])
  next hEmpty =>
    rw [if_neg hEmpty] at hRest
    split at h
    · cases h
    next mnemonic operand hParse =>
      obtain ⟨encoding, hEncode, rfl⟩ := addStatement_eq_ok h
      exact .code hStatement hEnter (by rw [hRest, hParse]; rfl) hEncode

/-- Nothing is taken in that `Takes` does not list. -/
theorem takes_of_addLine (h : layout.addLine forms? line source = .ok next) :
    Takes forms? layout line source next := by
  simp only [addLine] at h
  split at h
  next hBlank =>
    cases h
    exact .blank hBlank
  next hBlank =>
    split at h
    · cases h
    next statement hClassify =>
      have hStatement : statement? source = some statement := by
        rw [statement?, if_neg hBlank, hClassify]
        rfl
      cases statement with
      | setAddress address =>
          cases h
          exact .silent hStatement rfl rfl
      | labelMath name label offset => exact .silent hStatement h rfl
      | addressLabel address rest => exact takes_of_addRest hStatement rfl rfl h
      | label name rest =>
          simp only [add] at h
          split at h
          · cases h
          next entered hDefine => exact takes_of_addRest hStatement hDefine rfl h
      | instruction mnemonic operand =>
          obtain ⟨encoding, hEncode, rfl⟩ := addStatement_eq_ok h
          exact .code hStatement rfl rfl hEncode

/-- A label in front of a colon stands for the place that the counter has reached. -/
theorem mem_of_enter {name rest : Text} (h : layout.enter line (.label name rest) = .ok next) :
    { name, address := layout.counter, dependency := none, line } ∈ next.symbols.labels := by
  simp only [enter, define] at h
  split at h
  · cases h
  next symbols hDefine =>
    cases h
    rw [(SymbolTable.define_eq_ok hDefine).2]
    exact List.mem_append_right _ (List.mem_singleton.mpr rfl)

/-- A label in front of a colon is in the table once its line is taken in. -/
theorem Takes.exists_label (h : Takes forms? layout line source next) {name rest : Text}
    (hStatement : statement? source = some (.label name rest)) :
    ∃ label ∈ next.symbols.labels, label.name = name ∧ label.dependency = none := by
  cases h with
  | blank hBlank => simp [statement?, hBlank] at hStatement
  | silent hOther hEnter _ | code hOther hEnter _ _ =>
      cases hStatement.symm.trans hOther
      have hMem := mem_of_enter hEnter
      exact ⟨_, hMem, rfl, rfl⟩

/-- A statement lays down no code before its own, and it defines at most one label,
of a name that is new. -/
theorem enter_eq_ok {statement : Statement} (h : layout.enter line statement = .ok next) :
    next.code = layout.code ∧ (next.symbols = layout.symbols ∨
      ∃ label : Label, layout.symbols.defines label.name = false ∧
        next.symbols = layout.symbols.push label) := by
  cases statement with
  | setAddress address =>
      cases h
      exact ⟨rfl, .inl rfl⟩
  | addressLabel address rest =>
      cases h
      exact ⟨rfl, .inl rfl⟩
  | instruction mnemonic operand =>
      cases h
      exact ⟨rfl, .inl rfl⟩
  | labelMath name label offset =>
      simp only [enter, defineRelative] at h
      split at h
      · cases h
      next symbols hDefine =>
        cases h
        obtain ⟨hNew, hPush⟩ := SymbolTable.defineRelative_eq_ok hDefine
        exact ⟨rfl, .inr ⟨_, hNew, hPush⟩⟩
  | label name rest =>
      simp only [enter, define] at h
      split at h
      · cases h
      next symbols hDefine =>
        cases h
        obtain ⟨hNew, hPush⟩ := SymbolTable.define_eq_ok hDefine
        exact ⟨rfl, .inr ⟨_, hNew, hPush⟩⟩

/-- All labels and all code of a layout are at the front of a later one. -/
structure Extends (layout later : Layout) : Prop where
  symbols : layout.symbols.labels <+: later.symbols.labels
  code : layout.code.toList <+: later.code.toList

theorem Extends.refl (layout : Layout) : Extends layout layout :=
  ⟨List.prefix_refl _, List.prefix_refl _⟩

theorem Extends.trans (first : Extends layout next) (second : Extends next final) :
    Extends layout final :=
  ⟨first.symbols.trans second.symbols, first.code.trans second.code⟩

theorem extends_enter {statement : Statement} (h : layout.enter line statement = .ok next) :
    Extends layout next := by
  obtain ⟨hCode, hSame | ⟨label, -, hPush⟩⟩ := enter_eq_ok h
  · exact ⟨hSame ▸ List.prefix_refl _, hCode ▸ List.prefix_refl _⟩
  · refine ⟨?_, hCode ▸ List.prefix_refl _⟩
    rw [hPush]
    exact List.prefix_append _ _

theorem extends_append (layout : Layout) (line : Nat) (encoding : Encoding) :
    Extends layout (layout.append line encoding) :=
  ⟨List.prefix_refl _, by simp [append]⟩

/-- A line of source takes nothing back. -/
theorem Takes.extends (h : Takes forms? layout line source next) : Extends layout next := by
  cases h with
  | blank => exact .refl layout
  | silent _ hEnter _ => exact extends_enter hEnter
  | code _ hEnter _ _ => exact (extends_enter hEnter).trans (extends_append _ _ _)

/-- The invariant in front of the line with the given number: names are distinct, and
each line of code has a number of its own, which has been passed. -/
structure Orderly (layout : Layout) (line : Nat) : Prop where
  distinct : layout.symbols.Distinct
  numbered : (layout.code.toList.map CodeLine.line).Nodup
  passed : ∀ code ∈ layout.code.toList, code.line < line

/-- A label or a new address keeps the order, and it uses up no line number. -/
theorem Orderly.enter (h : layout.Orderly line) {statement : Statement}
    (hEnter : layout.enter line statement = .ok next) : next.Orderly line := by
  obtain ⟨hCode, hSymbols⟩ := enter_eq_ok hEnter
  refine ⟨?_, by rw [hCode]; exact h.numbered, by rw [hCode]; exact h.passed⟩
  rcases hSymbols with hSame | ⟨label, hNew, hPush⟩
  · rw [hSame]
    exact h.distinct
  · rw [hPush]
    exact h.distinct.push hNew

/-- A line of code takes the number of its source line, which is then passed. -/
theorem Orderly.append (h : layout.Orderly line) (encoding : Encoding) :
    (layout.append line encoding).Orderly (line + 1) := by
  refine ⟨h.distinct, ?_, ?_⟩
  · simp only [Layout.append, Array.toList_push, List.map_append, List.map_cons, List.map_nil]
    refine List.Nodup.append h.numbered (List.nodup_singleton _) ?_
    simp only [List.disjoint_singleton, List.mem_map, not_exists, not_and]
    intro code hCode
    exact Nat.ne_of_lt (h.passed code hCode)
  · intro code hCode
    simp only [Layout.append, Array.toList_push, List.mem_append, List.mem_singleton] at hCode
    rcases hCode with hCode | rfl
    · exact Nat.lt_succ_of_lt (h.passed code hCode)
    · exact Nat.lt_succ_self line

/-- The invariant goes from one line of source to the next. -/
theorem Orderly.takes (h : layout.Orderly line) (hTakes : Takes forms? layout line source next) :
    next.Orderly (line + 1) := by
  have hLater : ∀ {l : Layout}, l.Orderly line → l.Orderly (line + 1) := fun hl =>
    ⟨hl.distinct, hl.numbered, fun code hCode => Nat.lt_succ_of_lt (hl.passed code hCode)⟩
  cases hTakes with
  | blank => exact hLater h
  | silent _ hEnter _ => exact hLater (h.enter hEnter)
  | code _ hEnter _ _ => exact (h.enter hEnter).append _

theorem orderly_empty (line : Nat) : ({} : Layout).Orderly line :=
  ⟨List.nodup_nil, List.nodup_nil, fun code hCode => by cases hCode⟩

theorem addLines_cons {rest : List Text}
    (h : layout.addLines forms? line (source :: rest) = .ok final) :
    ∃ next, layout.addLine forms? line source = .ok next ∧
      next.addLines forms? (line + 1) rest = .ok final := by
  rw [Layout.addLines] at h
  split at h
  · cases h
  next next hAdd => exact ⟨next, hAdd, h⟩

/-- What is laid down early in a pass is still there at its end. -/
theorem extends_addLines {sources : List Text}
    (h : layout.addLines forms? line sources = .ok final) : Extends layout final := by
  induction sources generalizing layout line with
  | nil =>
      cases h
      exact .refl _
  | cons source rest ih =>
      obtain ⟨next, hAdd, hRest⟩ := addLines_cons h
      exact (takes_of_addLine hAdd).extends.trans (ih hRest)

/-- The invariant holds behind any number of lines, by induction from line to line. -/
theorem Orderly.addLines (hOrderly : layout.Orderly line) {sources : List Text}
    (h : layout.addLines forms? line sources = .ok final) :
    final.Orderly (line + sources.length) := by
  induction sources generalizing layout line with
  | nil =>
      cases h
      exact hOrderly
  | cons source rest ih =>
      obtain ⟨next, hAdd, hRest⟩ := addLines_cons h
      have hFinal := ih (hOrderly.takes (takes_of_addLine hAdd)) hRest
      rwa [List.length_cons, Nat.add_comm rest.length, ← Nat.add_assoc]

/-- A pass comes by every line: what is in front of a line is taken in first, then
the line, then the others. -/
theorem addLines_getElem? {sources : List Text} {i : Nat}
    (h : layout.addLines forms? line sources = .ok final) (hSource : sources[i]? = some source) :
    ∃ before after, layout.addLines forms? line (sources.take i) = .ok before ∧
      Takes forms? before (line + i) source after ∧ Extends after final := by
  induction i generalizing layout line sources with
  | zero =>
      cases sources with
      | nil => cases hSource
      | cons first rest =>
          cases hSource
          obtain ⟨next, hAdd, hRest⟩ := addLines_cons h
          exact ⟨layout, next, rfl, takes_of_addLine hAdd, extends_addLines hRest⟩
  | succ i ih =>
      cases sources with
      | nil => cases hSource
      | cons first rest =>
          obtain ⟨next, hAdd, hRest⟩ := addLines_cons h
          obtain ⟨before, after, hBefore, hTakes, hAfter⟩ := ih hRest hSource
          refine ⟨before, after, ?_, ?_, hAfter⟩
          · rw [List.take_succ_cons, Layout.addLines, hAdd]
            exact hBefore
          · rwa [Nat.add_right_comm] at hTakes

/-- What a line does depends on that part of it alone which counts. -/
theorem addLine_congr {other : Text} (h : normalize other = normalize source) :
    layout.addLine forms? line other = layout.addLine forms? line source := by
  simp only [addLine, h]

/-- A pass depends on the parts of its lines alone which count. -/
theorem addLines_congr {sources others : List Text}
    (h : others.map normalize = sources.map normalize) :
    layout.addLines forms? line others = layout.addLines forms? line sources := by
  induction others generalizing layout line sources with
  | nil =>
      rw [List.map_nil, eq_comm, List.map_eq_nil_iff] at h
      rw [h]
  | cons other rest ih =>
      obtain ⟨source, following, rfl, hSource, hRest⟩ := List.map_eq_cons_iff.mp h.symm
      rw [Layout.addLines, Layout.addLines, addLine_congr hSource.symm]
      cases layout.addLine forms? line source with
      | error cause => rfl
      | ok next => exact ih hRest.symm

end Layout

end Micro6502.Assembly
