import Micro6502.Bus
import Micro6502.Assembly.Layout

/-! The second pass, its result, and the loading of it into memory. -/

namespace Micro6502.Assembly

/-- An assembled source text: its labels, its code, the address that it set last,
and the number of its address labels. -/
structure Program where
  labels : List Label
  lines : List CodeLine
  origin : Option Address
  addressLabels : Nat
  deriving DecidableEq

namespace Program

def byteCount (program : Program) : Nat :=
  (program.lines.flatMap CodeLine.bytes).length

def label? (program : Program) (name : Text) : Option Label :=
  program.labels.find? fun label => label.name = name

/-- Store the bytes of all lines, in program order, so that of two lines for the
same place the later one stands. -/
def load {β : Type} [Bus β] (program : Program) (bus : β) : β :=
  program.lines.foldl (fun bus line => Bus.writeBytes bus line.address line.bytes) bus

end Program

/-- Fill in the label for which a line waits, if it waits for one. -/
def fillLine (symbols : SymbolTable) (line : CodeLine) : Except Diagnostic CodeLine :=
  match line.pending with
  | none => .ok line
  | some reference => match symbols.lookup? reference.name with
    | none => .error ⟨line.line, .undefinedLabel reference.name⟩
    | some label => match line.fill label.address with
      | .error cause => .error ⟨line.line, cause⟩
      | .ok line => .ok line

/-- The second pass: fill in all pending labels. -/
def Layout.fill (layout : Layout) : Except Diagnostic Program :=
  match layout.code.toList.mapM (fillLine layout.symbols) with
  | .error diagnostic => .error diagnostic
  | .ok lines => .ok {
      labels := layout.symbols.labels
      lines
      origin := layout.origin
      addressLabels := layout.addressLabels }

/-- Both passes, with the given way of finding the forms of a mnemonic. -/
def assembleWith (forms? : FormLookup) (source : Text) : Except Diagnostic Program :=
  match layOut forms? source with
  | .error diagnostic => .error diagnostic
  | .ok layout => layout.fill

/-- Assemble a source text. Nothing is stored anywhere. -/
def assemble (source : Text) : Except Diagnostic Program :=
  assembleWith Catalog.forMnemonic? source

end Micro6502.Assembly
