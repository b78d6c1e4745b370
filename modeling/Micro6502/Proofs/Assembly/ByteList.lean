import Micro6502.Proofs.Assembly.Classification
import Micro6502.Proofs.Assembly.Fault
import Micro6502.Proofs.Text.Pieces

/-! The value list of the byte directive, from its text to the bytes of a line. Any text is cut
into entries at its commas; whether it is taken in, and what is wrong with it otherwise, is said
here by looking at the entries as they are written. -/

namespace Micro6502.Assembly

open Text

/-- An entry of a value list with its value: a number, written as an address is, with blanks
around it. -/
inductive Entry : Text → Nat → Prop
  | intro {w x : Text} (hw : Blank w) (number : AddressText) (hx : Blank x) :
      Entry (w ++ number.text ++ x) number.value

/-- A text without the marks of a comment, of a label, of a definition and of a second line. -/
structure Unmarked (list : Text) : Prop where
  comment : ';' ∉ list
  colon : ':' ∉ list
  equals : '=' ∉ list
  newline : '\n' ∉ list

/-- What comes of a value list, by its entries. The first of them that is bad is reported, and
the length of the list if none is. -/
inductive ListOutcome (list : Text) : Except Cause (List Byte) → Prop
  | accepted {bytes : List Byte}
      (hEntries : List.Forall₂ (fun entry byte => Entry entry byte.toNat) (list.splitOn ',') bytes)
      (hLength : bytes.length ≤ 255) : ListOutcome list (.ok bytes)
  | tooLong {bytes : List Byte}
      (hEntries : List.Forall₂ (fun entry byte => Entry entry byte.toNat) (list.splitOn ',') bytes)
      (hLength : 255 < bytes.length) : ListOutcome list (.error (.directiveTooLong bytes.length))
  | outOfRange {front rest : List Text} {entry : Text} {value : Nat}
      (hEntries : list.splitOn ',' = front ++ entry :: rest)
      (hFront : ∀ other ∈ front, ∃ byte : Byte, Entry other byte.toNat)
      (hEntry : Entry entry value) (hValue : 255 < value) :
      ListOutcome list (.error (.outOfRange (min value (2 ^ 32 - 1))))
  | invalid {front rest : List Text} {entry : Text}
      (hEntries : list.splitOn ',' = front ++ entry :: rest)
      (hFront : ∀ other ∈ front, ∃ byte : Byte, Entry other byte.toNat)
      (hEntry : ∀ value, ¬ Entry entry value) :
      ListOutcome list (.error (.invalidDirective (normalize list)))

section

variable {entry text : Text} {value : Nat} {byte : Byte}

theorem Entry.readMarked? (h : Entry entry value) :
    readMarked? (trim entry) = some (min value numeralLimit) := by
  obtain ⟨hw, number, hx⟩ := h
  rw [number.solid.trim_eq_iff.mpr ⟨_, _, hw, hx, rfl⟩, readMarked?_text]

theorem Entry.comma_notMem (h : Entry entry value) : ',' ∉ entry := by
  obtain ⟨hw, number, hx⟩ := h
  simp only [List.mem_append, not_or]
  exact ⟨⟨hw.notMem (by decide), number.notMem (by decide)⟩, hx.notMem (by decide)⟩

/-- What is read as a number is written as one. -/
theorem exists_entry {read : Nat} (h : Text.readMarked? (trim entry) = some read) :
    ∃ value, Entry entry value ∧ read = min value numeralLimit := by
  have hNumber : ∃ number : AddressText, number.text = trim entry := by
    have hDigits : ∀ {radix : Radix} {digits : Text}, radix.read? digits = some read →
        digits ≠ [] ∧ digits ⊆ radix.alphabet := by
      intro radix digits hRead
      rw [Radix.read?_eq_min, Option.map_eq_some_iff] at hRead
      obtain ⟨value, hValue, -⟩ := hRead
      exact Radix.exists_value?.mp ⟨value, hValue⟩
    unfold Text.readMarked? at h
    split at h
    next digits hMark =>
      obtain ⟨hSome, hSubset⟩ := hDigits h
      exact ⟨.hex ⟨digits, hSome, hSubset⟩, (eq_cons_of_after? hMark).symm⟩
    next =>
      obtain ⟨hSome, hSubset⟩ := hDigits h
      exact ⟨.decimal ⟨trim entry, hSome, hSubset⟩, rfl⟩
  obtain ⟨number, hText⟩ := hNumber
  obtain ⟨w, x, hw, hx, hEntry⟩ := exists_trim entry
  rw [← hText] at hEntry
  have hWritten : Entry entry number.value := hEntry ▸ .intro hw number hx
  exact ⟨number.value, hWritten, Option.some.inj (h.symm.trans hWritten.readMarked?)⟩

theorem parseByte_eq_ok : parseByte text entry = .ok byte ↔ Entry entry byte.toNat := by
  have hByte := byte.toNat_lt
  constructor
  · intro h
    unfold parseByte at h
    split at h
    next => cases h
    next read hRead =>
      obtain ⟨value, hEntry, rfl⟩ := exists_entry hRead
      split at h
      next hRange =>
        cases h
        have hExact : min value numeralLimit = value := by
          rw [numeralLimit] at hRange ⊢
          omega
        rwa [UInt8.toNat_ofNat_of_lt' (Nat.lt_succ_of_le hRange), hExact]
      next => cases h
  · intro h
    have hExact : min byte.toNat numeralLimit = byte.toNat :=
      Nat.min_eq_left (by rw [numeralLimit]; omega)
    rw [parseByte, h.readMarked?, hExact]
    simp only [Nat.le_of_lt_succ hByte, if_true, UInt8.ofNat_toNat]

/-- A number that is too large for a byte is reported with the value that was read. -/
theorem Entry.parseByte_of_lt (h : Entry entry value) (hValue : 255 < value) :
    parseByte text entry = .error (.outOfRange (min value (2 ^ 32 - 1))) := by
  have hRange : ¬ min value numeralLimit ≤ 0xFF := by
    rw [numeralLimit]
    omega
  rw [parseByte, h.readMarked?]
  exact if_neg hRange

/-- What is no number is reported with the text of the whole list. -/
theorem parseByte_of_not_entry (h : ∀ value, ¬ Entry entry value) :
    parseByte text entry = .error (.invalidDirective text) := by
  rw [parseByte]
  cases hRead : Text.readMarked? (trim entry) with
  | none => rfl
  | some read =>
      obtain ⟨value, hEntry, -⟩ := exists_entry hRead
      exact absurd hEntry (h value)

end

/-- What a value list is encoded as. -/
def listEncoding (bytes : List Byte) : Encoding :=
  { descriptor := .byteDirective bytes.length, bytes, pending := none }

section

variable {list : Text} {outcome : Except Cause (List Byte)}

theorem normalize_eq_trim_upper (hComment : ';' ∉ list) : normalize list = trim (upper list) := by
  have hPlain : (upper list).takeWhile (· ≠ ';') = upper list := by
    refine List.takeWhile_eq_self_iff.mpr fun c hc => decide_eq_true ?_
    rintro rfl
    exact hComment ((mem_upper_iff (by decide)).mp hc)
  rw [normalize, hPlain]

/-- The entries are read as they are written, although the line is put in capitals and trimmed
before it is cut. -/
theorem parseByteList_normalize (hComment : ';' ∉ list) :
    parseByteList (normalize list) =
      (list.splitOn ',').mapM (parseByte (normalize list)) := by
  have hTrim : parseByte (normalize list) ∘ trim = parseByte (normalize list) := by
    funext entry
    rw [Function.comp_apply, parseByte, trim_trim, parseByte]
  have hUpper : parseByte (normalize list) ∘ upper = parseByte (normalize list) := by
    funext entry
    rw [Function.comp_apply, parseByte, trim_upper, readMarked?_upper, parseByte]
  have hPieces : (fields ',' (normalize list)).map trim =
      ((list.splitOn ',').map upper).map trim := by
    rw [normalize_eq_trim_upper hComment, map_trim_fields_trim rfl, fields_upper (by decide),
      fields_eq_splitOn]
  rw [parseByteList, ← hTrim, ← List.mapM_map, hPieces, List.mapM_map, hTrim, List.mapM_map,
    hUpper]

/-- The list is encoded or rejected just as its entries say. They are traversed in order, so the
first bad one decides, and the length counts only if there is none. -/
theorem ListOutcome.encodeDirective_eq (h : ListOutcome list outcome) (hComment : ';' ∉ list) :
    encodeDirective (normalize list) = outcome.map listEncoding := by
  have hBytes : ∀ {bytes : List Byte},
      List.Forall₂ (fun entry byte => Entry entry byte.toNat) (list.splitOn ',') bytes →
        parseByteList (normalize list) = .ok bytes := by
    intro bytes hEntries
    rw [parseByteList_normalize hComment]
    exact mapM_of_forall₂ (hEntries.imp fun _ _ => parseByte_eq_ok.mpr)
  have hFault : ∀ {front rest : List Text} {entry : Text} {cause : Cause},
      list.splitOn ',' = front ++ entry :: rest →
      (∀ other ∈ front, ∃ byte : Byte, Entry other byte.toNat) →
      parseByte (normalize list) entry = .error cause →
        parseByteList (normalize list) = .error cause := by
    intro front rest entry cause hEntries hFront hEntry
    rw [parseByteList_normalize hComment, hEntries]
    refine mapM_eq_error (fun other hOther => ?_) hEntry
    obtain ⟨byte, hByte⟩ := hFront other hOther
    exact ⟨byte, parseByte_eq_ok.mpr hByte⟩
  rw [encodeDirective]
  cases h with
  | accepted hEntries hLength =>
      rw [hBytes hEntries]
      exact if_pos hLength
  | tooLong hEntries hLength =>
      rw [hBytes hEntries]
      exact if_neg (Nat.not_le.mpr hLength)
  | outOfRange hEntries hFront hEntry hValue =>
      rw [hFault hEntries hFront (hEntry.parseByte_of_lt hValue)]
      rfl
  | invalid hEntries hFront hEntry =>
      rw [hFault hEntries hFront (parseByte_of_not_entry hEntry)]
      rfl

/-- Something comes of every value list. -/
theorem exists_listOutcome (hComment : ';' ∉ list) : ∃ outcome, ListOutcome list outcome := by
  have hParse := parseByteList_normalize hComment
  cases hRead : parseByteList (normalize list) with
  | ok bytes =>
      have hEntries := forall₂_of_mapM (hParse.symm.trans hRead)
      have hEntries := hEntries.imp fun _ _ => parseByte_eq_ok.mp
      rcases Nat.lt_or_ge 255 bytes.length with hLong | hShort
      · exact ⟨_, .tooLong hEntries hLong⟩
      · exact ⟨_, .accepted hEntries hShort⟩
  | error cause =>
      obtain ⟨front, entry, rest, hEntries, hFront, hFault⟩ :=
        exists_of_mapM_eq_error (hParse.symm.trans hRead)
      have hFront : ∀ other ∈ front, ∃ byte : Byte, Entry other byte.toNat := by
        intro other hOther
        obtain ⟨byte, hByte⟩ := hFront other hOther
        exact ⟨byte, parseByte_eq_ok.mp hByte⟩
      by_cases hEntry : ∃ value, Entry entry value
      · obtain ⟨value, hEntry⟩ := hEntry
        rcases Nat.lt_or_ge 255 value with hLarge | hSmall
        · exact ⟨_, .outOfRange hEntries hFront hEntry hLarge⟩
        · -- The entry is a byte, so it is not the one that is at fault.
          have hByte : Entry entry (UInt8.ofNat value).toNat := by
            rwa [UInt8.toNat_ofNat_of_lt' (Nat.lt_succ_of_le hSmall)]
          cases (parseByte_eq_ok.mpr hByte).symm.trans hFault
      · exact ⟨_, .invalid hEntries hFront (not_exists.mp hEntry)⟩

/-- The line of a directive is taken for what it is, and the list is its operand. -/
theorem classify_directive (hPlain : Unmarked list) :
    normalize ("DCB ".toList ++ list) ≠ [] ∧
      classify (normalize ("DCB ".toList ++ list)) =
        .ok (.instruction directiveName (normalize list)) := by
  have hName : directiveName.length = 3 ∧ directiveName ⊆ Catalog.letters :=
    Catalog.mnemonic_of_named (Catalog.mem_named.mpr (.inr rfl))
  have hSolid : Solid directiveName := by decide
  -- Blanks behind the list come off with the line, those in front of it only with the operand.
  have hLine : normalize ("DCB ".toList ++ list) =
      directiveName ++ trimEnd (' ' :: upper list) := by
    have hComment : ';' ∉ "DCB ".toList ++ list := by
      rw [List.mem_append, not_or]
      exact ⟨by decide, hPlain.comment⟩
    rw [normalize_eq_trim_upper hComment, upper_append,
      ← hSolid.trim_append (List.cons_ne_nil _ _)]
    rfl
  have hMark : ∀ {mark : Char}, mark ∈ marks → mark ∉ list →
      mark ∉ trimEnd (' ' :: upper list) := by
    intro mark hMark hList hMem
    rcases List.mem_cons.mp (trimEnd_subset _ hMem) with rfl | hUpper
    · exact absurd hMark (by decide)
    · exact hList ((mem_upper_iff hMark).mp hUpper)
  have hOperand : trim (trimEnd (' ' :: upper list)) = normalize list := by
    rw [trim_trimEnd, trim_cons_blank rfl, normalize_eq_trim_upper hPlain.comment]
  rw [hLine]
  refine ⟨List.append_ne_nil_of_left_ne_nil (List.cons_ne_nil _ _) _, ?_⟩
  rw [classify_instruction hName (hMark (by decide) hPlain.equals)
    (hMark (by decide) hPlain.colon), hOperand]

theorem encodeStatement_directive (operand : Text) (address : Address) (symbols : SymbolTable) :
    encodeStatement Catalog.forMnemonic? directiveName operand address symbols =
      encodeDirective operand := by
  have hForms : Catalog.forMnemonic? directiveName = some [.byteDirective 0] := by decide +kernel
  rw [encodeStatement, hForms]
  rfl

/-- A line with the list lays down its bytes, or fails for the reason that its entries give. -/
theorem ListOutcome.addLine_eq (h : ListOutcome list outcome) (hPlain : Unmarked list)
    {line : Text} (hLine : normalize line = normalize ("DCB ".toList ++ list)) (layout : Layout)
    (number : Nat) :
    layout.addLine Catalog.forMnemonic? number line =
      outcome.map fun bytes => layout.append number (listEncoding bytes) := by
  obtain ⟨hSome, hClassify⟩ := classify_directive hPlain
  rw [Layout.addLine, hLine, if_neg hSome, hClassify]
  simp only [Layout.add, Layout.addStatement, encodeStatement_directive,
    h.encodeDirective_eq hPlain.comment]
  cases outcome with
  | ok bytes | error cause => rfl

theorem lines_directive (hPlain : Unmarked list) :
    Text.lines ("DCB ".toList ++ list) = ["DCB ".toList ++ list] := by
  refine lines_singleton (List.append_ne_nil_of_left_ne_nil (by decide) _) ?_
  rw [List.mem_append, not_or]
  exact ⟨by decide, hPlain.newline⟩

/-- Entries may be joined by commas, for there is none in them. -/
theorem splitOn_joinWith {entries : List Text} {bytes : List Byte} (hSome : entries ≠ [])
    (h : List.Forall₂ (fun entry byte => Entry entry byte.toNat) entries bytes) :
    (joinWith [','] entries).splitOn ',' = entries := by
  have hComma : ∀ entry ∈ entries, ',' ∉ entry := by
    clear hSome
    induction h with
    | nil => exact List.forall_mem_nil _
    | cons hWritten _ ih => exact List.forall_mem_cons.mpr ⟨hWritten.comma_notMem, ih⟩
  exact List.splitOn_intercalate ',' hComma hSome

section

variable (hPlain : Unmarked list)

include hPlain

/-- A line with a value list that is accepted is a program. -/
theorem ListOutcome.assemble_eq {bytes : List Byte} (h : ListOutcome list (.ok bytes)) :
    assemble ("DCB ".toList ++ list) = .ok {
      labels := []
      lines := [(listEncoding bytes).placed programStart 1]
      origin := none
      addressLabels := 0 } := by
  have hLines : Layout.addLines Catalog.forMnemonic? {} 1 (Text.lines ("DCB ".toList ++ list)) =
      .ok (({} : Layout).append 1 (listEncoding bytes)) := by
    rw [lines_directive hPlain, Layout.addLines, h.addLine_eq hPlain rfl]
    rfl
  refine assemble_of_addLines hLines rfl (mapM_fillLine_settled fun line hLine => ?_)
  cases List.mem_singleton.mp hLine
  rfl

/-- In an accepted source the list has one line of code, with its bytes. -/
theorem ListOutcome.exists_line {bytes : List Byte} (h : ListOutcome list (.ok bytes))
    {source line : Text} {i : Nat} {program : Program} (hLine : (Text.lines source)[i]? = some line)
    (hText : normalize line = normalize ("DCB ".toList ++ list))
    (hProgram : assemble source = .ok program) :
    ∃ code, (program.lines.filter fun other => other.line = i + 1) = [code] ∧
      code.bytes = bytes ∧ code.descriptor.size = bytes.length := by
  obtain ⟨hSome, hClassify⟩ := classify_directive hPlain
  have hStatement : statement? line = some (.instruction directiveName (normalize list)) := by
    rw [statement?, hText, if_neg hSome, hClassify]
    rfl
  obtain ⟨layout, hAssembles⟩ := exists_layout hProgram
  obtain ⟨_, entered, encoding, code, -, -, -, hEncode, hFill, hOnly⟩ :=
    hAssembles.exists_encoding hLine hStatement rfl
  rw [encodeStatement_directive, h.encodeDirective_eq hPlain.comment] at hEncode
  cases hEncode
  obtain rfl := eq_of_fillLine_placed rfl hFill
  exact ⟨_, hOnly, rfl, rfl⟩

/-- The complaint about a list is the complaint about the source, if the lines in front of it were
taken in. -/
theorem ListOutcome.assemble_eq_error {cause : Cause} (h : ListOutcome list (.error cause))
    {source line : Text} {i : Nat} {before : Layout} (hLine : (Text.lines source)[i]? = some line)
    (hText : normalize line = normalize ("DCB ".toList ++ list))
    (hBefore : Layout.addLines Catalog.forMnemonic? {} 1 ((Text.lines source).take i) =
      .ok before) : assemble source = .error ⟨i + 1, cause⟩ :=
  Assembly.assemble_eq_error hLine hBefore (h.addLine_eq hPlain hText before (i + 1))

end

end

/-- The bytes of a value list may be written as decimal or as hexadecimal numbers, with any number
of zeros in front of them and any blanks around them, and come out as they are. Of every other text
behind the directive it is told what is wrong: the first entry that is no byte, or else the length
of the list. It is the same in a source with other lines, and in any other style. -/
theorem assemble_byteList {list : Text} (hPlain : Unmarked list) :
    (∃ outcome, ListOutcome list outcome) ∧
    (∀ {entries : List Text} {bytes : List Byte}, list = joinWith [','] entries →
      List.Forall₂ (fun entry byte => Entry entry byte.toNat) entries bytes →
      1 ≤ bytes.length → bytes.length ≤ 255 → ListOutcome list (.ok bytes)) ∧
    (∀ {bytes : List Byte}, ListOutcome list (.ok bytes) →
      (∃ program code, assemble ("DCB ".toList ++ list) = .ok program ∧ program.lines = [code] ∧
        code.bytes = bytes ∧ code.descriptor.size = bytes.length) ∧
      ∀ {source line : Text} {i : Nat} {program : Program}, (Text.lines source)[i]? = some line →
        normalize line = normalize ("DCB ".toList ++ list) → assemble source = .ok program →
        ∃ code, (program.lines.filter fun other => other.line = i + 1) = [code] ∧
          code.bytes = bytes ∧ code.descriptor.size = bytes.length) ∧
    ∀ {cause : Cause}, ListOutcome list (.error cause) →
      assemble ("DCB ".toList ++ list) = .error ⟨1, cause⟩ ∧
      ∀ {source line : Text} {i : Nat} {before : Layout}, (Text.lines source)[i]? = some line →
        normalize line = normalize ("DCB ".toList ++ list) →
        Layout.addLines Catalog.forMnemonic? {} 1 ((Text.lines source).take i) = .ok before →
        assemble source = .error ⟨i + 1, cause⟩ := by
  have hFirst : (Text.lines ("DCB ".toList ++ list))[0]? = some ("DCB ".toList ++ list) := by
    rw [lines_directive hPlain]
    rfl
  refine ⟨exists_listOutcome hPlain.comment, ?_, fun hOutcome => ⟨?_, ?_⟩, fun hOutcome => ⟨?_, ?_⟩⟩
  · intro entries bytes hList hEntries hSome hLength
    have hSome : entries ≠ [] := by
      rintro rfl
      cases hEntries
      cases hSome
    refine .accepted ?_ hLength
    rwa [hList, splitOn_joinWith hSome hEntries]
  · exact ⟨_, _, hOutcome.assemble_eq hPlain, rfl, rfl, rfl⟩
  · exact hOutcome.exists_line hPlain
  · exact hOutcome.assemble_eq_error hPlain hFirst rfl rfl
  · exact hOutcome.assemble_eq_error hPlain

/-- A list in mixed style, and one with two bad entries, each by itself and on the second line of
a source. -/
theorem assemble_byteList_mixed :
    let list := " 007,\t$fF ,$00010".toList
    let bad := "1,$100,X".toList
    Unmarked list ∧ Unmarked bad ∧ ListOutcome list (.ok [7, 255, 16]) ∧
      (∃ program code, assemble ("DCB ".toList ++ list) = .ok program ∧ program.lines = [code] ∧
        code.bytes = [7, 255, 16] ∧ code.descriptor.size = 3) ∧
      (∃ program code, assemble "NOP\n dcb  007,\t$Ff ,$00010 ; three".toList = .ok program ∧
        (program.lines.filter fun other => other.line = 2) = [code] ∧
        code.bytes = [7, 255, 16] ∧ code.descriptor.size = 3) ∧
      ListOutcome bad (.error (.outOfRange 256)) ∧
      assemble ("DCB ".toList ++ bad) = .error ⟨1, .outOfRange 256⟩ ∧
      assemble "NOP\n dcb 1,$100,x ; too large".toList = .error ⟨2, .outOfRange 256⟩ := by
  intro list bad
  have hList : Unmarked list := ⟨by decide, by decide, by decide, by decide⟩
  have hOther : Unmarked bad := ⟨by decide, by decide, by decide, by decide⟩
  have hNil : Blank [] := by decide
  have hGood := assemble_byteList hList
  have hBad := assemble_byteList hOther
  have hEntries : List.Forall₂ (fun entry (byte : Byte) => Entry entry byte.toNat)
      [" 007".toList, "\t$fF ".toList, "$00010".toList] [7, 255, 16] := by
    refine .cons ?_ (.cons ?_ (.cons ?_ .nil))
    · exact .intro (w := [' ']) (by decide) (.decimal ⟨"007".toList, by decide, by decide⟩) hNil
    · exact .intro (w := ['\t']) (x := [' ']) (by decide)
        (.hex ⟨"fF".toList, by decide, by decide⟩) (by decide)
    · exact .intro hNil (.hex ⟨"00010".toList, by decide, by decide⟩) hNil
  have hAccepted : ListOutcome list (.ok [7, 255, 16]) :=
    hGood.2.1 (by decide) hEntries (by decide) (by decide)
  have hSplit : bad.splitOn ',' = ["1".toList] ++ "$100".toList :: ["X".toList] := by decide
  have hFirst : Entry "1".toList 1 :=
    .intro hNil (.decimal ⟨"1".toList, by decide, by decide⟩) hNil
  have hSecond : Entry "$100".toList 256 :=
    .intro hNil (.hex ⟨"100".toList, by decide, by decide⟩) hNil
  have hRefused : ListOutcome bad (.error (.outOfRange 256)) :=
    .outOfRange hSplit (List.forall_mem_singleton.mpr ⟨1, hFirst⟩) hSecond (by decide)
  have hGoodLine : (Text.lines "NOP\n dcb  007,\t$Ff ,$00010 ; three".toList)[1]? =
      some " dcb  007,\t$Ff ,$00010 ; three".toList := by decide
  have hBadLine : (Text.lines "NOP\n dcb 1,$100,x ; too large".toList)[1]? =
      some " dcb 1,$100,x ; too large".toList := by decide
  obtain ⟨hAlone, hWithin⟩ := hGood.2.2.1 hAccepted
  obtain ⟨hBadAlone, hBadWithin⟩ := hBad.2.2.2 hRefused
  obtain ⟨code, hCode⟩ := hWithin hGoodLine (by decide) rfl
  exact ⟨hList, hOther, hAccepted, hAlone, ⟨_, code, rfl, hCode⟩, hRefused, hBadAlone,
    hBadWithin hBadLine (by decide) rfl⟩

end Micro6502.Assembly
