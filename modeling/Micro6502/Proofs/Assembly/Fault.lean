import Micro6502.Proofs.Assembly.Immediate
import Micro6502.Proofs.Assembly.Filling
import Micro6502.Proofs.Machine.Compile

/-! Which line of a source is at fault. A source is rejected for a line that is bad in itself, for
a relative label that cannot be settled, or for a label that is missing when it is to be filled in.
Only a fault of the first kind ends the pass over the lines, so it is the first of its kind and
nothing behind it matters. -/

namespace Micro6502.Assembly

/-- Causes that show when all lines have been read: a label is missing somewhere. -/
def Cause.isDeferred : Cause → Bool
  | missingDependentLabel _ _ | circularLabel _ | undefinedLabel _ => true
  | _ => false

/-- The ways of rejecting a source text. -/
inductive Rejects (source : Text) : Diagnostic → Prop
  | line {i : Nat} {line : Text} {before : Layout} {cause : Cause}
      (hLine : (Text.lines source)[i]? = some line)
      (hBefore : Layout.addLines Catalog.forMnemonic? {} 1 ((Text.lines source).take i) =
        .ok before)
      (hFault : before.addLine Catalog.forMnemonic? (i + 1) line = .error cause) :
      Rejects source ⟨i + 1, cause⟩
  | unsettled {layout : Layout} {diagnostic : Diagnostic}
      (hLines : Layout.addLines Catalog.forMnemonic? {} 1 (Text.lines source) = .ok layout)
      (hComplaint : layout.symbols.settle.complaint? = some diagnostic) :
      Rejects source diagnostic
  | undefined {layout : Layout} {code : CodeLine} {name : Text} (hLaidOut : LaidOut source layout)
      (hCode : code ∈ layout.code.toList) (hLacks : code.Lacks source name)
      (hFirst : ∀ other ∈ layout.code.toList, ∀ otherName, other.Lacks source otherName →
        code.line ≤ other.line) :
      Rejects source ⟨code.line, .undefinedLabel name⟩

namespace Layout

variable {forms? : FormLookup} {layout next final : Layout} {line : Nat} {sources : List Text}

/-- A pass that fails does so at one line: all lines in front of it were taken in, and the fault
is the one that it shows there. -/
theorem addLines_eq_error {diagnostic : Diagnostic}
    (h : layout.addLines forms? line sources = .error diagnostic) :
    ∃ i source before cause, sources[i]? = some source ∧
      layout.addLines forms? line (sources.take i) = .ok before ∧
      before.addLine forms? (line + i) source = .error cause ∧
      diagnostic = ⟨line + i, cause⟩ := by
  induction sources generalizing layout line with
  | nil => cases h
  | cons source rest ih =>
      rw [addLines] at h
      cases hAdd : layout.addLine forms? line source with
      | error cause =>
          rw [hAdd] at h
          cases h
          exact ⟨0, source, layout, cause, rfl, rfl, hAdd, rfl⟩
      | ok next =>
          rw [hAdd] at h
          obtain ⟨i, found, before, cause, hFound, hBefore, hFault, rfl⟩ := ih h
          rw [Nat.add_right_comm] at hFault ⊢
          refine ⟨i + 1, found, before, cause, hFound, ?_, hFault, rfl⟩
          rw [List.take_succ_cons, addLines, hAdd]
          exact hBefore

/-- A pass over lines in two parts. What follows a line with a fault is not looked at. -/
theorem addLines_append (forms? : FormLookup) (layout : Layout) (line : Nat)
    (front back : List Text) : layout.addLines forms? line (front ++ back) =
      layout.addLines forms? line front >>= fun next =>
        next.addLines forms? (line + front.length) back := by
  induction front generalizing layout line with
  | nil => rfl
  | cons source rest ih =>
      rw [List.cons_append, addLines, addLines]
      cases layout.addLine forms? line source with
      | error cause => rfl
      | ok next =>
          rw [List.length_cons, Nat.add_comm rest.length, ← Nat.add_assoc]
          exact ih next (line + 1)

end Layout

/-- A line with a fault ends the assembly, once the pass has come that far. -/
theorem assemble_eq_error {source line : Text} {i : Nat} {before : Layout} {cause : Cause}
    (hLine : (Text.lines source)[i]? = some line)
    (hBefore : Layout.addLines Catalog.forMnemonic? {} 1 ((Text.lines source).take i) = .ok before)
    (hFault : before.addLine Catalog.forMnemonic? (i + 1) line = .error cause) :
    assemble source = .error ⟨i + 1, cause⟩ := by
  obtain ⟨hBound, rfl⟩ := List.getElem?_eq_some_iff.mp hLine
  have hLength : ((Text.lines source).take i).length = i :=
    List.length_take_of_le (Nat.le_of_lt hBound)
  have hLines := Layout.addLines_append Catalog.forMnemonic? {} 1 ((Text.lines source).take i)
    ((Text.lines source).drop i)
  rw [List.take_append_drop, hBefore, hLength, List.drop_eq_getElem_cons hBound,
    Nat.add_comm 1] at hLines
  simp only [bind, Except.bind, Layout.addLines, hFault] at hLines
  rw [assemble_eq_bind, hLines]
  rfl

/-- A complaint about the table is about one of its labels, and it is not known before all lines
are. -/
theorem SymbolTable.complaint?_eq_some {table : SymbolTable} {diagnostic : Diagnostic}
    (h : table.complaint? = some diagnostic) :
    ∃ label ∈ table.labels, diagnostic.line = label.line ∧ diagnostic.cause.isDeferred = true := by
  unfold complaint? at h
  split at h
  next found hMissing =>
    cases h
    obtain ⟨label, hLabel, hFault⟩ := List.exists_of_findSome?_eq_some hMissing
    obtain ⟨dependency, -, -, rfl⟩ := missing?_eq_some.mp hFault
    exact ⟨label, hLabel, rfl, rfl⟩
  next =>
    obtain ⟨label, hLabel, hFault⟩ := List.exists_of_findSome?_eq_some h
    obtain ⟨-, rfl⟩ := circular?_eq_some.mp hFault
    exact ⟨label, hLabel, rfl, rfl⟩

/-- The second pass stops at the first line that waits for a label which is defined nowhere. -/
theorem LaidOut.exists_lacking {source : Text} {layout : Layout} (h : LaidOut source layout)
    {diagnostic : Diagnostic} (hFault : assemble source = .error diagnostic) :
    ∃ code ∈ layout.code.toList, ∃ name, code.Lacks source name ∧
      diagnostic = ⟨code.line, .undefinedLabel name⟩ ∧
      ∀ other ∈ layout.code.toList, ∀ otherName, other.Lacks source otherName →
        code.line ≤ other.line := by
  rw [h.assemble_eq, Layout.fill] at hFault
  split at hFault
  next fault hFill =>
    cases hFault
    obtain ⟨before, code, after, hSplit, hBefore, hCode⟩ := exists_of_mapM_eq_error hFill
    have hIncreasing := Layout.increasing_addLines (Layout.orderly_empty 1) .nil h.lines
    have hMem : code ∈ layout.code.toList := by
      rw [hSplit]
      exact List.mem_append_right _ List.mem_cons_self
    obtain ⟨name, hName, hNone, rfl⟩ := fillLine_eq_error (h.hasRoom hMem) hCode
    refine ⟨code, hMem, name, h.lacks_iff.mpr ⟨hName, hNone⟩, rfl, ?_⟩
    intro other hOther otherName hLacks
    obtain ⟨hOtherName, hOtherNone⟩ := h.lacks_iff.mp hLacks
    rw [hSplit] at hOther hIncreasing
    rcases List.mem_append.mp hOther with hEarlier | hLater
    · obtain ⟨filled, hFilled⟩ := hBefore other hEarlier
      exact absurd hOtherNone (lookup?_of_fillLine hFilled hOtherName)
    · rcases List.mem_cons.mp hLater with rfl | hLater
      · exact Nat.le_refl _
      · have hPair := (List.pairwise_append.mp hIncreasing).2.1
        exact Nat.le_of_lt (List.rel_of_pairwise_cons hPair hLater)
  next => cases hFault

/-- A line that waits for a label which is defined nowhere cannot be finished. -/
theorem LaidOut.exists_error {source : Text} {layout : Layout} (h : LaidOut source layout)
    {code : CodeLine} (hCode : code ∈ layout.code.toList) {name : Text}
    (hLacks : code.Lacks source name) : ∃ diagnostic, assemble source = .error diagnostic := by
  obtain ⟨hName, hNone⟩ := h.lacks_iff.mp hLacks
  rw [h.assemble_eq, Layout.fill]
  split
  next fault _ => exact ⟨fault, rfl⟩
  next finished hFinished =>
    -- Every line would have been filled, this one too.
    obtain ⟨i, hBound, rfl⟩ := List.mem_iff_getElem.mp hCode
    have hFill := (forall₂_of_mapM hFinished).get hBound
      ((forall₂_of_mapM hFinished).length_eq ▸ hBound)
    exact absurd hNone (lookup?_of_fillLine hFill hName)

/-- An assembly fails in one of the three ways and in no other. -/
theorem rejects_of_assemble {source : Text} {diagnostic : Diagnostic}
    (h : assemble source = .error diagnostic) : Rejects source diagnostic := by
  cases hLines : Layout.addLines Catalog.forMnemonic? {} 1 (Text.lines source) with
  | error fault =>
      rw [assemble_eq_bind, hLines] at h
      cases h
      obtain ⟨i, line, before, cause, hLine, hBefore, hFault, rfl⟩ :=
        Layout.addLines_eq_error hLines
      rw [Nat.add_comm] at hFault ⊢
      exact .line hLine hBefore hFault
  | ok layout =>
      cases hComplaint : layout.symbols.settle.complaint? with
      | some fault =>
          simp only [assemble, assembleWith, layOut, hLines, Layout.close, hComplaint] at h
          cases h
          exact .unsettled hLines hComplaint
      | none =>
          have hLaidOut : LaidOut source layout := ⟨hLines, hComplaint⟩
          obtain ⟨code, hCode, name, hLacks, rfl, hFirst⟩ := hLaidOut.exists_lacking h
          exact .undefined hLaidOut hCode hLacks hFirst

/-- A source is rejected at one of its lines. -/
theorem Rejects.line_mem {source : Text} {diagnostic : Diagnostic} (h : Rejects source diagnostic) :
    1 ≤ diagnostic.line ∧ diagnostic.line ≤ (Text.lines source).length := by
  cases h with
  | line hLine _ _ =>
      obtain ⟨hBound, -⟩ := List.getElem?_eq_some_iff.mp hLine
      exact ⟨Nat.le_add_left 1 _, hBound⟩
  | unsettled hLines hComplaint =>
      obtain ⟨settled, hSettled, hLine, -⟩ := SymbolTable.complaint?_eq_some hComplaint
      obtain ⟨label, hLabel, rfl⟩ := List.mem_map.mp hSettled
      rcases Layout.exists_definition hLines hLabel with hNone | ⟨i, line, hFound, hNumber, -⟩
      · cases hNone
      · obtain ⟨hBound, -⟩ := List.getElem?_eq_some_iff.mp hFound
        rw [hLine, SymbolTable.line_settled, hNumber]
        omega
  | undefined hLaidOut hCode _ _ =>
      obtain ⟨i, line, hLine, hStems⟩ := hLaidOut.stems hCode
      obtain ⟨hBound, -⟩ := List.getElem?_eq_some_iff.mp hLine
      rw [hStems.line_eq]
      exact ⟨Nat.le_add_left 1 i, hBound⟩

/-- No line is left without room for its label. -/
theorem Rejects.isImmediate {source : Text} {diagnostic : Diagnostic}
    (h : Rejects source diagnostic) (hCause : diagnostic.cause.isDeferred = false) :
    diagnostic.cause.isImmediate = true := by
  cases h with
  | line _ _ hFault => exact (Layout.immediate_addLine _ _ _ _).cause hFault
  | unsettled _ hComplaint =>
      obtain ⟨-, -, -, hDeferred⟩ := SymbolTable.complaint?_eq_some hComplaint
      cases hDeferred.symm.trans hCause
  | undefined => cases hCause

/-- If the lines of a source can be taken in, then it can only be rejected for a label that is
missing. -/
theorem isDeferred_of_addLines {source : Text} {layout : Layout}
    (hLines : Layout.addLines Catalog.forMnemonic? {} 1 (Text.lines source) = .ok layout)
    {diagnostic : Diagnostic} (h : assemble source = .error diagnostic) :
    diagnostic.cause.isDeferred = true := by
  cases rejects_of_assemble h with
  | unsettled _ hComplaint =>
      obtain ⟨-, -, -, hDeferred⟩ := SymbolTable.complaint?_eq_some hComplaint
      exact hDeferred
  | undefined => rfl
  | line hLine hBefore hFault =>
      obtain ⟨before, after, hTaken, hTakes, -⟩ := Layout.addLines_getElem? hLines hLine
      cases hBefore.symm.trans hTaken
      rw [Nat.add_comm] at hTakes
      cases hFault.symm.trans (Layout.addLine_of_takes hTakes)

/-- The assembly of a source fails at one of its lines. Unless it fails for a label that is
missing, this is the first line that is bad: the lines in front of it go through, or fail for
a missing label, and what follows it changes nothing. Lines count as the same when nothing but
case, comments and outer blanks tells them apart. -/
theorem assemble_fault {source : Text} {diagnostic : Diagnostic}
    (h : assemble source = .error diagnostic) :
    1 ≤ diagnostic.line ∧ diagnostic.line ≤ (Text.lines source).length ∧
      (diagnostic.cause.isDeferred = false →
        (∀ front : Text, (Text.lines front).map normalize =
            ((Text.lines source).take (diagnostic.line - 1)).map normalize →
          ∀ other, assemble front = .error other → other.cause.isDeferred = true) ∧
        ∀ longer : Text, ((Text.lines longer).take diagnostic.line).map normalize =
            ((Text.lines source).take diagnostic.line).map normalize →
          assemble longer = .error diagnostic) := by
  have hRejects := rejects_of_assemble h
  refine ⟨hRejects.line_mem.1, hRejects.line_mem.2, fun hCause => ?_⟩
  cases hRejects with
  | unsettled _ hComplaint =>
      obtain ⟨-, -, -, hDeferred⟩ := SymbolTable.complaint?_eq_some hComplaint
      cases hDeferred.symm.trans hCause
  | undefined => cases hCause
  | @line i line before cause hLine hBefore hFault =>
      constructor
      · intro front hFront other hOther
        rw [Nat.add_sub_cancel] at hFront
        exact isDeferred_of_addLines ((Layout.addLines_congr hFront).trans hBefore) hOther
      · intro longer hLonger
        have hBad : Layout.addLines Catalog.forMnemonic? {} 1 ((Text.lines source).take (i + 1)) =
            .error ⟨i + 1, cause⟩ := by
          have hLength : ((Text.lines source).take i).length = i :=
            List.length_take_of_le (Nat.le_of_lt (List.getElem?_eq_some_iff.mp hLine).1)
          rw [List.take_add_one, hLine, Layout.addLines_append, hBefore, hLength, Nat.add_comm 1]
          simp only [bind, Except.bind, Option.toList_some, Layout.addLines, hFault]
        have hAll := Layout.addLines_append Catalog.forMnemonic? {} 1
          ((Text.lines longer).take (i + 1)) ((Text.lines longer).drop (i + 1))
        rw [List.take_append_drop, Layout.addLines_congr hLonger, hBad] at hAll
        rw [assemble_eq_bind, hAll]
        rfl

/-- A branch with a fault, between a line that waits for a label and one with a label that is
there already. The same fault is found with other blanks and other lines after it. -/
theorem assemble_fault_branch :
    let source := "TOP: JMP AWAY\nBNE #1\nTOP: NOP".toList
    let front := "TOP: JMP AWAY".toList
    let longer := "top: jmp away ; far\r\n bne #1\nAWAY: NOP".toList
    let fault : Diagnostic := ⟨2, .invalidSyntax "Invalid branch for BNE".toList⟩
    assemble source = .error fault ∧ fault.cause.isDeferred = false ∧
      (1 ≤ fault.line ∧ fault.line ≤ (Text.lines source).length) ∧
      (∃ other, assemble front = .error other ∧ other.cause.isDeferred = true) ∧
      assemble longer = .error fault := by
  intro source front longer fault
  have hFault : assemble source = .error fault := by rfl
  have hCause : fault.cause.isDeferred = false := rfl
  obtain ⟨hFirst, hLast, hRest⟩ := assemble_fault hFault
  have hFront : (Text.lines front).map normalize =
      ((Text.lines source).take 1).map normalize := by decide +kernel
  have hLonger : ((Text.lines longer).take 2).map normalize =
      ((Text.lines source).take 2).map normalize := by decide +kernel
  have hAlone : assemble front = .error ⟨1, .undefinedLabel "AWAY".toList⟩ := by rfl
  exact ⟨hFault, hCause, ⟨hFirst, hLast⟩, ⟨_, hAlone, (hRest hCause).1 front hFront _ hAlone⟩,
    (hRest hCause).2 longer hLonger⟩

/-- The second pass always has room for the label that it fills in. -/
def HasRoomThroughout (result : Except Diagnostic Program) : Prop :=
  ∀ line size, result ≠ .error ⟨line, .unimplementedPatch size⟩

theorem hasRoomThroughout (source : Text) : HasRoomThroughout (assemble source) := by
  intro line size h
  cases (rejects_of_assemble h).isImmediate rfl

/-- Filling in labels can go wrong in one way only, for an assembler alone and for one that
assembles into a machine: some line waits for a label that no line of the source defines. The
first such line is the one that is reported. -/
theorem assemble_undefined {ρ δ κ : Type} [ByteSource ρ] [Screen δ] [Journal κ]
    {assembler : Assembler} (hReached : assembler.Reached) (m : Machine ρ δ κ) (source : Text) :
    HasRoomThroughout (assemble source) ∧ HasRoomThroughout (assembler.assemble source).1 ∧
      HasRoomThroughout (m.assembleReported assembler source).1 ∧
      ∀ layout, layOut Catalog.forMnemonic? source = .ok layout →
        (∀ code ∈ layout.code.toList, code.pending ≠ none → code.HasRoom) ∧
        ((∃ diagnostic, assemble source = .error diagnostic) ↔
          ∃ code ∈ layout.code.toList, ∃ name, code.Lacks source name) ∧
        ∀ diagnostic, assemble source = .error diagnostic →
          ∃ code ∈ layout.code.toList, ∃ name, code.Lacks source name ∧
            diagnostic = ⟨code.line, .undefinedLabel name⟩ ∧
            (∀ other ∈ layout.code.toList, ∀ otherName, other.Lacks source otherName →
              code.line ≤ other.line) ∧
            ∃ i line mnemonic operand, (Text.lines source)[i]? = some line ∧ code.line = i + 1 ∧
              instruction? line = some (mnemonic, operand) ∧
              (operand.label? = some name ∨ operand.pointer? = some name) := by
  have hAlone : (assembler.assemble source).1 = assemble source :=
    (hReached.sound.assemble source).1
  have hReported : (m.assembleReported assembler source).1 = assemble source := by
    obtain ⟨messages, learnt, hEq, -⟩ := Machine.assembleReported_eq hReached.sound m source
    rw [hEq]
  refine ⟨hasRoomThroughout source, hAlone ▸ hasRoomThroughout source,
    hReported ▸ hasRoomThroughout source, fun closed hClosed => ?_⟩
  obtain ⟨layout, hLaidOut, rfl⟩ := exists_laidOut hClosed
  refine ⟨fun code hCode hPending => ?_, ⟨fun ⟨diagnostic, hFault⟩ => ?_, ?_⟩, ?_⟩
  · refine hLaidOut.hasRoom hCode ?_
    rwa [CodeLine.awaits?, ne_eq, Option.map_eq_none_iff]
  · obtain ⟨code, hCode, name, hLacks, -⟩ := hLaidOut.exists_lacking hFault
    exact ⟨code, hCode, name, hLacks⟩
  · rintro ⟨code, hCode, name, hLacks⟩
    exact hLaidOut.exists_error hCode hLacks
  · intro diagnostic hFault
    obtain ⟨code, hCode, name, hLacks, hDiagnostic, hFirst⟩ := hLaidOut.exists_lacking hFault
    obtain ⟨i, line, hLine, hStems⟩ := hLaidOut.stems hCode
    obtain ⟨-, mnemonic, operand, hInstruction, hName⟩ := hStems.awaits hLacks.1
    exact ⟨code, hCode, name, hLacks, hDiagnostic, hFirst, i, line, mnemonic, operand, hLine,
      hStems.line_eq, hInstruction, hName⟩

/-- Two lines wait for labels that are nowhere, behind one whose label comes later. -/
theorem assemble_undefined_second :
    let m : Machine Congruential (Array (Address × Byte)) (Array Text) :=
      Machine.start {} (.seeded 1) #[] #[]
    let source := "LDA (PTR),Y\nBNE GONE\nNEAR = PTR + 1\nJMP ALSO\nPTR: NOP".toList
    Assembler.Reached {} ∧ HasRoomThroughout (m.assembleReported {} source).1 ∧
      ∃ layout, layOut Catalog.forMnemonic? source = .ok layout ∧
        (∀ code ∈ layout.code.toList, code.pending ≠ none → code.HasRoom) ∧
        (∃ code ∈ layout.code.toList, ∃ name, code.Lacks source name) ∧
        assemble source = .error ⟨2, .undefinedLabel "GONE".toList⟩ := by
  intro m source
  have hAll := assemble_undefined .fresh m source
  have hFault : assemble source = .error ⟨2, .undefinedLabel "GONE".toList⟩ := by rfl
  obtain ⟨hRoom, hIff, -⟩ := hAll.2.2.2 _ rfl
  exact ⟨.fresh, hAll.2.2.1, _, rfl, hRoom, hIff.mp ⟨_, hFault⟩, hFault⟩

end Micro6502.Assembly
