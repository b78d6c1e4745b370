import Micro6502.Instruction.Catalog

/-! What later proofs need to know of the instruction set: an opcode leads back to
its descriptor, a size follows its mode, and the forms of a mnemonic are exactly the
entries of that name. With these facts at hand the table itself stays closed. -/

namespace Micro6502.Catalog

/-- No two instructions share an opcode, so decoding an opcode gives back the
descriptor that it was taken from. -/
theorem decode_opcode {d : Descriptor} (h : d ∈ all) : decode d.opcode = d := by
  have hAll : ∀ e ∈ all, find e.opcode = e := by decide +kernel
  rw [decode_eq_find]
  exact hAll d h

/-- An opcode stands for the instruction that has it, or for none. -/
theorem decode_cases (opcode : Byte) :
    decode opcode ∈ all ∧ (decode opcode).opcode = opcode ∨
      decode opcode = .unassigned opcode := by
  rw [decode_eq_find]
  unfold find
  cases hFound : all.find? fun d => d.opcode = opcode with
  | none => exact .inr rfl
  | some d =>
      exact .inl ⟨List.mem_of_find?_eq_some hFound, by simpa using List.find?_some hFound⟩

/-- A valid opcode is decoded to the entry of the catalog that has it. -/
theorem mem_of_decode {opcode : Byte} (h : (decode opcode).isInvalid = false) :
    decode opcode ∈ all ∧ (decode opcode).opcode = opcode := by
  rcases decode_cases opcode with hMem | hNone
  · exact hMem
  · rw [hNone] at h
    cases h

/-- No instruction takes more than three bytes. An invalid opcode takes one. -/
theorem size_decode_le (opcode : Byte) : (decode opcode).size ≤ 3 := by
  have hAll : ∀ d ∈ all, d.size ≤ 3 := by decide +kernel
  rcases decode_cases opcode with ⟨hMem, -⟩ | hNone
  · exact hAll _ hMem
  · rw [hNone]
    exact Nat.le_add_left 1 2

theorem size_of_mem {d : Descriptor} (h : d ∈ all) : d.size = d.mode.instructionSize := by
  simp only [all, List.mem_flatMap, List.mem_map] at h
  obtain ⟨family, -, form, -, rfl⟩ := h
  rfl

/-- The byte directive is known by name only; no opcode stands for it. -/
theorem operation_ne_of_mem {d : Descriptor} (h : d ∈ all) : d.operation ≠ .dcb := by
  have hAll : ∀ e ∈ all, e.operation ≠ .dcb := by decide +kernel
  exact hAll d h

/-- Beside the executable instructions, only the directive goes by a name. -/
theorem mem_named {d : Descriptor} : d ∈ named ↔ d ∈ all ∨ d = .byteDirective 0 := by
  simp only [named, List.mem_append, List.mem_singleton]

/-- Of the named descriptors, the directive alone has the operation of a directive. -/
theorem mem_all_of_mem_named {d : Descriptor} (h : d ∈ named) (hCode : d.operation ≠ .dcb) :
    d ∈ all := by
  rcases mem_named.mp h with h | rfl
  · exact h
  · exact absurd rfl hCode

/-- The directive counts as implied, so every form in another mode is executable. -/
theorem mem_all_of_mode_ne {d : Descriptor} (h : d ∈ named) (hMode : d.mode ≠ .implied) :
    d ∈ all := by
  rcases mem_named.mp h with h | rfl
  · exact h
  · exact absurd rfl hMode

/-- What is found under a mnemonic are all entries of that name, the directive among them. -/
theorem mem_of_forMnemonic? {mnemonic : Text} {forms : List Descriptor}
    (h : forMnemonic? mnemonic = some forms) {d : Descriptor} :
    d ∈ forms ↔ d ∈ named ∧ d.mnemonic = mnemonic := by
  unfold forMnemonic? at h
  split at h
  · cases h
  · cases h
    simp only [List.mem_filter, decide_eq_true_eq]

theorem inMode?_eq_some {descriptors : List Descriptor} {mode : AddressingMode}
    {d : Descriptor} (h : inMode? descriptors mode = some d) :
    d ∈ descriptors ∧ d.mode = mode := by
  refine ⟨List.mem_of_find?_eq_some h, ?_⟩
  simpa using List.find?_some h

/-- What the assembler finds under the mnemonic of an instruction: the instruction itself as
the one in its mode, no directive, and no branch unless it is one. -/
structure Finds (d : Descriptor) (forms : List Descriptor) : Prop where
  named : forMnemonic? d.mnemonic = some forms
  own : inMode? forms d.mode = some d
  executable : ∀ form ∈ forms, form ∈ all
  straight : d.mode ≠ .relative → inMode? forms .relative = none

/-- Every mnemonic of the table is found. -/
theorem forMnemonic?_of_mem {d : Descriptor} (h : d ∈ all) :
    forMnemonic? d.mnemonic = some (named.filter fun other => other.mnemonic = d.mnemonic) := by
  unfold forMnemonic?
  split
  next hNone =>
    have hFound : d ∈ named.filter fun other => other.mnemonic = d.mnemonic :=
      List.mem_filter.mpr ⟨mem_named.mpr (.inl h), decide_eq_true rfl⟩
    rw [hNone] at hFound
    cases hFound
  next => rfl

/-- Under its own mnemonic an instruction is found as the first form in its mode. -/
theorem exists_forms {d : Descriptor} (h : d ∈ all) : ∃ forms, Finds d forms := by
  have hOwn : ∀ e ∈ all,
      inMode? (named.filter fun other => other.mnemonic = e.mnemonic) e.mode = some e := by
    decide +kernel
  have hBranch : ∀ e ∈ named, e.mode = .relative →
      ∀ other ∈ all, other.mnemonic = e.mnemonic → other.mode = .relative := by
    decide +kernel
  have hDirective : ∀ e ∈ all, e.mnemonic ≠ (Descriptor.byteDirective 0).mnemonic := by
    decide +kernel
  have hForms := forMnemonic?_of_mem h
  refine ⟨_, hForms, hOwn d h, fun form hForm => ?_, fun hMode => ?_⟩
  · obtain ⟨hNamed, hName⟩ := (mem_of_forMnemonic? hForms).mp hForm
    rcases mem_named.mp hNamed with hMem | rfl
    · exact hMem
    · exact absurd hName.symm (hDirective d h)
  · cases hFound : inMode? (named.filter fun other => other.mnemonic = d.mnemonic) .relative with
    | none => rfl
    | some branch =>
        obtain ⟨hForm, hRelative⟩ := inMode?_eq_some hFound
        obtain ⟨hNamed, hName⟩ := (mem_of_forMnemonic? hForms).mp hForm
        exact absurd (hBranch branch hNamed hRelative d h hName.symm) hMode

section

variable {d e : Descriptor} (hd : d ∈ all) (he : e ∈ all) (hName : d.mnemonic = e.mnemonic)

include hd he hName

/-- A mnemonic and a mode stand for one instruction. -/
theorem eq_of_mnemonic_mode (hMode : d.mode = e.mode) : d = e := by
  obtain ⟨forms, hForms⟩ := exists_forms hd
  obtain ⟨others, hOthers⟩ := exists_forms he
  have hNamed := hForms.named
  have hOwn := hForms.own
  rw [hName, hOthers.named] at hNamed
  rw [hMode, ← Option.some.inj hNamed, hOthers.own] at hOwn
  exact (Option.some.inj hOwn).symm

/-- A mnemonic belongs to branches alone or to none. -/
theorem relative_of_mnemonic (hMode : e.mode = .relative) : d.mode = .relative := by
  obtain ⟨forms, hForms⟩ := exists_forms hd
  obtain ⟨others, hOthers⟩ := exists_forms he
  have hNamed := hForms.named
  have hOwn := hOthers.own
  rw [hName, hOthers.named] at hNamed
  rw [Option.some.inj hNamed, hMode] at hOwn
  by_cases hStraight : d.mode = .relative
  · exact hStraight
  · rw [hForms.straight hStraight] at hOwn
    cases hOwn

end

/-- The letters that mnemonics are made of. -/
def letters : Text := "ABCDEFGHIJKLMNOPQRSTUVWXYZ".toList

/-- A mnemonic has three capital letters, that of the directive too. -/
theorem mnemonic_of_named {d : Descriptor} (h : d ∈ named) :
    d.mnemonic.length = 3 ∧ d.mnemonic ⊆ letters := by
  have hAll : ∀ e ∈ named, e.mnemonic.length = 3 ∧ e.mnemonic.all (letters.contains ·) := by
    decide +kernel
  obtain ⟨hLength, hLetters⟩ := hAll d h
  exact ⟨hLength, fun c hMem => List.contains_iff_mem.mp (List.all_eq_true.mp hLetters c hMem)⟩

theorem mnemonic_of_mem {d : Descriptor} (h : d ∈ all) :
    d.mnemonic.length = 3 ∧ d.mnemonic ⊆ letters :=
  mnemonic_of_named (mem_named.mpr (.inl h))

end Micro6502.Catalog
