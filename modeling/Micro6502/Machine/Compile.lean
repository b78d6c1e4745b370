import Micro6502.Assembly.Assembler
import Micro6502.Machine.Basic

/-! Assembling into the memory of a machine, with the progress reported to its
journal. Nothing is stored unless the whole source is accepted. -/

namespace Micro6502.Machine

open Assembly

variable {ρ δ κ : Type} [ByteSource ρ] [Screen δ] [Journal κ]

def layoutMessage (layout : Layout) : Text :=
  "Parsed ".toList ++ Text.decimal layout.addressLabels ++ " memory tags and ".toList ++
    Text.decimal layout.symbols.labels.length ++ " labels.".toList

def loadMessage (program : Program) : Text :=
  Text.decimal program.byteCount ++ " bytes of code loaded to memory.".toList

/-- Both passes, each announced in the journal. -/
def assembleReported (m : Machine ρ δ κ) (assembler : Assembler) (source : Text) :
    Except Diagnostic Program × Machine ρ δ κ × Assembler :=
  let m := m.report "Starting compilation pass 1.".toList
  match assembler.layOut source with
  | (.error diagnostic, assembler) => (.error diagnostic, m, assembler)
  | (.ok layout, assembler) =>
    let m := m.report (layoutMessage layout)
    let m := m.report "Starting compilation pass 2.".toList
    (layout.fill, m, assembler)

/-- Load a program, and continue at the address that it set last, if it set one. -/
def accept (m : Machine ρ δ κ) (program : Program) : Machine ρ δ κ :=
  let m := m.report "Compilation complete.".toList
  let m := (program.load m).report (loadMessage program)
  match program.origin with
  | none => m
  | some address => m.withRegisters fun r => { r with pc := address }

/-- Assemble a source text into memory, and say whether it was accepted. -/
def compile (m : Machine ρ δ κ) (assembler : Assembler) (source : Text) :
    Bool × Machine ρ δ κ × Assembler :=
  let m := m.report "Starting compilation.".toList
  match m.assembleReported assembler source with
  | (.error diagnostic, m, assembler) => (false, m.report diagnostic.message, assembler)
  | (.ok program, m, assembler) => (true, m.accept program, assembler)

end Micro6502.Machine
