import Micro6502.Proofs.Assembly.Program

/-! Where the lines of a program lie. A walk over the source text with nothing but a
location counter meets the code-bearing lines in the order of the program, and finds
each of them at the counter, with all of its bytes and with nothing left to fill in. -/

namespace Micro6502.Assembly

/-- Where a walk over a source text stands, and what it has met so far. -/
structure Place where
  counter : Address := programStart
  origin : Option Address := none
  addressLabels : Nat := 0

namespace Place

/-- A statement may move the counter before its code is laid down. -/
def enter (place : Place) : Statement → Place
  | .setAddress address => { place with counter := address, origin := some address }
  | .addressLabel address _ =>
    { counter := address, origin := some address, addressLabels := place.addressLabels + 1 }
  | .labelMath _ _ _ | .label _ _ | .instruction _ _ => place

/-- Code moves the counter by its number of bytes. The address behind the top of
memory is zero. -/
def advance (place : Place) (count : Nat) : Place :=
  { place with counter := place.counter + .ofNat count }

end Place

/-- A plain label that is defined at the counter is the one label of its name, and
that is its address. -/
def Statement.Marks (labels : List Label) (line : Nat) (counter : Address) : Statement → Prop
  | .label name _ => (labels.filter fun label => label.name = name) =
      [{ name, address := counter, dependency := none, line }]
  | .setAddress _ | .labelMath _ _ _ | .addressLabel _ _ | .instruction _ _ => True

/-- A finished line of code for the mnemonic on the source line of the given number,
with the counter as it stands there. -/
structure CodeLine.Placed (code : CodeLine) (line : Nat) (counter : Address)
    (mnemonic : Text) : Prop where
  line : code.line = line
  address : code.address = counter
  settled : code.pending = none
  size : code.bytes.length = code.descriptor.size
  mnemonic : code.descriptor.mnemonic = mnemonic
  directive : code.descriptor.operation = .dcb →
    1 ≤ code.bytes.length ∧ code.bytes.length ≤ 0xFF
  instruction : code.descriptor.operation ≠ .dcb →
    code.bytes.head? = some code.descriptor.opcode ∧
      Catalog.decode code.descriptor.opcode = code.descriptor

/-- A walk over lines of source, the first of which has number `line`, next to the lines
of code that they stand for. -/
inductive Walk (labels : List Label) :
    Nat → Place → List Text → List CodeLine → Place → Prop
  | done (line : Nat) (place : Place) : Walk labels line place [] [] place
  | blank {line : Nat} {place last : Place} {source : Text} {sources : List Text}
      {code : List CodeLine} (hBlank : normalize source = [])
      (hRest : Walk labels (line + 1) place sources code last) :
      Walk labels line place (source :: sources) code last
  | silent {line : Nat} {place last : Place} {source : Text} {sources : List Text}
      {code : List CodeLine} {statement : Statement}
      (hStatement : statement? source = some statement)
      (hCode : statement.code? = .ok none)
      (hLabel : statement.Marks labels line place.counter)
      (hRest : Walk labels (line + 1) (place.enter statement) sources code last) :
      Walk labels line place (source :: sources) code last
  | code {line : Nat} {place last : Place} {source : Text} {sources : List Text}
      {first : CodeLine} {rest : List CodeLine} {statement : Statement}
      {mnemonic operand : Text} (hStatement : statement? source = some statement)
      (hCode : statement.code? = .ok (some (mnemonic, operand)))
      (hLabel : statement.Marks labels line place.counter)
      (hPlaced : first.Placed line (place.enter statement).counter mnemonic)
      (hRest : Walk labels (line + 1)
        ((place.enter statement).advance first.bytes.length) sources rest last) :
      Walk labels line place (source :: sources) (first :: rest) last

theorem fields_ne_nil (separator : Char) (text : Text) : Text.fields separator text ≠ [] := by
  cases text with
  | nil => simp [Text.fields]
  | cons c rest =>
      simp only [Text.fields, List.foldr_cons, Text.consPiece]
      split
      · simp
      · split <;> simp

/-- There is no empty value list, since no text is without fields. -/
theorem length_of_parseByteList {operand : Text} {bytes : List Byte}
    (h : parseByteList operand = .ok bytes) : 1 ≤ bytes.length := by
  rw [← (forall₂_of_mapM h).length_eq]
  exact List.length_pos_iff.mpr (fields_ne_nil ',' operand)

/-- Whatever is accepted on a line has, once finished, the shape of a placed line. -/
theorem placed_of_encodeStatement {mnemonic operand : Text} {address : Address}
    {seen symbols : SymbolTable} {encoding : Encoding} {line : Nat} {code : CodeLine}
    (hEncode : encodeStatement Catalog.forMnemonic? mnemonic operand address seen = .ok encoding)
    (hFill : fillLine symbols (encoding.placed address line) = .ok code) :
    code.Placed line address mnemonic := by
  have hFinish := finishes_of_fillLine hFill
  have hDescriptor : code.descriptor = encoding.descriptor := hFinish.descriptor
  have hSize : code.bytes.length = encoding.bytes.length := hFinish.size
  have hOpcode : code.bytes.head? = encoding.bytes.head? := hFinish.opcode
  rcases encodeStatement_eq_ok hEncode with
    ⟨rfl, bytes, hBytes, hLimit, rfl⟩ | ⟨forms, parsed, hForms, hAll, -, hEncoded⟩
  · refine ⟨hFinish.line, hFinish.address, hFinish.settled, ?_, ?_, fun _ => ?_, fun hOther => ?_⟩
    · rw [hSize, hDescriptor]
      rfl
    · rw [hDescriptor]
      rfl
    · rw [hSize]
      exact ⟨length_of_parseByteList hBytes, hLimit⟩
    · rw [hDescriptor] at hOther
      exact absurd rfl hOther
  · obtain ⟨hMem, hHead, hLength⟩ := (encodes_of_encode hEncoded).shape hAll
    refine ⟨hFinish.line, hFinish.address, hFinish.settled, ?_, ?_, fun hOther => ?_, fun _ => ?_⟩
    · rw [hSize, hDescriptor, hLength]
    · rw [hDescriptor]
      exact ((Catalog.mem_of_forMnemonic? hForms).mp hMem).2
    · rw [hDescriptor] at hOther
      exact absurd hOther (Catalog.operation_ne_of_mem (hAll _ hMem))
    · rw [hOpcode, hDescriptor]
      exact ⟨hHead, Catalog.decode_opcode (hAll _ hMem)⟩

namespace Layout

/-- What a layout has in common with a walk. -/
def place (layout : Layout) : Place :=
  { counter := layout.counter, origin := layout.origin, addressLabels := layout.addressLabels }

/-- Setting an address moves the counter of a layout as it moves that of a walk, and a label moves
neither. -/
theorem place_enter {layout entered : Layout} {line : Nat} {statement : Statement}
    (h : layout.enter line statement = .ok entered) :
    entered.place = layout.place.enter statement := by
  cases statement with
  | setAddress address | addressLabel address rest | instruction mnemonic operand =>
      cases h
      rfl
  | labelMath name label offset =>
      simp only [enter, defineRelative] at h
      split at h
      · cases h
      · cases h
        rfl
  | label name rest =>
      simp only [enter, define] at h
      split at h
      · cases h
      · cases h
        rfl

/-- A label that is entered at the counter stays the only one of its name to the end of the pass. -/
theorem marks_of_enter {layout entered final : Layout} {line : Nat} {statement : Statement}
    (h : layout.enter line statement = .ok entered)
    (hFinal : entered.symbols.labels <+: final.symbols.labels) {labels : List Label}
    (hLabels : ∀ label ∈ final.symbols.labels, label.dependency = none →
      (labels.filter fun other => other.name = label.name) = [label]) :
    statement.Marks labels line layout.place.counter := by
  cases statement with
  | label name rest =>
      exact hLabels _ (hFinal.subset (mem_of_enter h)) rfl
  | _ => trivial

/-- A pass over some lines is a walk over them, next to the lines of code that it
appends, as they are finished later. -/
theorem walk_of_addLines {layout final : Layout} {line : Nat} {sources : List Text}
    (h : layout.addLines Catalog.forMnemonic? line sources = .ok final)
    {labels : List Label} (hLabels : ∀ label ∈ final.symbols.labels, label.dependency = none →
      (labels.filter fun other => other.name = label.name) = [label])
    {symbols : SymbolTable} {added finished : List CodeLine}
    (hAdded : layout.code.toList ++ added = final.code.toList)
    (hFill : List.Forall₂ (fun before after => fillLine symbols before = .ok after)
      added finished) :
    Walk labels line layout.place sources finished final.place := by
  induction sources generalizing layout line added finished with
  | nil =>
      cases h
      obtain rfl : added = [] := List.append_right_eq_self.mp hAdded
      cases hFill
      exact .done line _
  | cons source rest ih =>
      obtain ⟨next, hAdd, hRest⟩ := addLines_cons h
      have hLater := extends_addLines hRest
      cases takes_of_addLine hAdd with
      | blank hBlank => exact .blank hBlank (ih hRest hAdded hFill)
      | silent hStatement hEnter hCode =>
          refine .silent hStatement hCode (marks_of_enter hEnter hLater.symbols hLabels) ?_
          rw [← place_enter hEnter]
          rw [← (enter_eq_ok hEnter).1] at hAdded
          exact ih hRest hAdded hFill
      | @code statement entered mnemonic operand encoding hStatement hEnter hCode hEncode =>
          obtain ⟨later, hSplit⟩ := hLater.code
          have hAppend : (entered.append line encoding).code.toList =
              layout.code.toList ++ [encoding.placed entered.counter line] := by
            rw [← (enter_eq_ok hEnter).1]
            simp [append, Encoding.placed]
          obtain rfl : added = encoding.placed entered.counter line :: later := by
            rw [← hSplit, hAppend, List.append_assoc] at hAdded
            exact List.append_cancel_left hAdded
          cases hFill with
          | @cons _ first _ others hFirst hOthers =>
              have hPlaced := placed_of_encodeStatement hEncode hFirst
              refine .code hStatement hCode (marks_of_enter hEnter hLater.symbols hLabels) ?_ ?_
              · rw [← place_enter hEnter]
                exact hPlaced
              · have hSize : first.bytes.length = encoding.bytes.length :=
                  (finishes_of_fillLine hFirst).size
                rw [← place_enter hEnter, hSize]
                exact ih hRest hSplit hOthers

end Layout

/-- The layout of every accepted source text: its lines of code are met by a walk with
a location counter from the start of programs on, and the second pass moves none of
them and resizes none of them. -/
theorem assemble_walk {source : Text} {program : Program} (h : assemble source = .ok program) :
    (∃ last : Place, Walk program.labels 1 {} (Text.lines source) program.lines last ∧
      program.origin = last.origin ∧ program.addressLabels = last.addressLabels) ∧
    ∃ layout, layOut Catalog.forMnemonic? source = .ok layout ∧
      List.Forall₂ (fun before after : CodeLine => after.address = before.address ∧
        after.bytes.length = before.bytes.length) layout.code.toList program.lines := by
  obtain ⟨layout, hAssembles⟩ := exists_layout h
  have hLabels : ∀ label ∈ layout.symbols.labels, label.dependency = none →
      (program.labels.filter fun other => other.name = label.name) = [label] := by
    intro label hMem hPlain
    apply hAssembles.filter_label
    exact hAssembles.lookup?_settle (List.prefix_refl _)
      (hAssembles.orderly.distinct.lookup?_eq hMem hPlain)
  refine ⟨⟨layout.place, ?_, hAssembles.origin, hAssembles.addressLabels⟩, ?_⟩
  · exact Layout.walk_of_addLines hAssembles.laidOut hLabels (List.nil_append _) hAssembles.lines
  · refine ⟨_, hAssembles.layOut_eq, hAssembles.lines.imp fun before after hFill => ?_⟩
    have hFinish := finishes_of_fillLine hFill
    exact ⟨hFinish.address, hFinish.size⟩

/-- Code across the top of memory, an address label, a directive and a label ahead. -/
theorem assemble_walk_wrapped :
    ∃ program, assemble "*=$FFFE\nLDA END\n$0300: DCB 1,2\nEND: NOP".toList = .ok program ∧
      (∃ last : Place, Walk program.labels 1 {}
        (Text.lines "*=$FFFE\nLDA END\n$0300: DCB 1,2\nEND: NOP".toList) program.lines last ∧
        program.origin = last.origin ∧ program.addressLabels = last.addressLabels) ∧
      ∃ layout, layOut Catalog.forMnemonic?
          "*=$FFFE\nLDA END\n$0300: DCB 1,2\nEND: NOP".toList = .ok layout ∧
        List.Forall₂ (fun before after : CodeLine => after.address = before.address ∧
          after.bytes.length = before.bytes.length) layout.code.toList program.lines :=
  ⟨_, rfl, assemble_walk rfl⟩

end Micro6502.Assembly
