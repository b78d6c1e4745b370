import Micro6502.Assembly.Program

/-! An assembler that is used for one source after another. It keeps the forms
of the mnemonics that it has met and need not search the catalog for them again. -/

namespace Micro6502.Assembly

/-- The mnemonic that a text begins with, if it can be read as an instruction. -/
def mnemonic? (text : Text) : Option Text :=
  match parseInstruction text with
  | .error _ => none
  | .ok (mnemonic, _) => some mnemonic

/-- The mnemonic whose forms are asked for when a line of source is taken in. Behind a
label that cannot be defined nothing is asked for. -/
def Layout.asked? (layout : Layout) (source : Text) : Option Text :=
  let code := normalize source
  if code = [] then none
  else match classify code with
    | .ok (.instruction mnemonic _) => some mnemonic
    | .ok (.addressLabel _ rest) => mnemonic? rest
    | .ok (.label name rest) => if layout.symbols.defines name then none else mnemonic? rest
    | .ok (.setAddress _) | .ok (.labelMath _ _ _) | .error _ => none

/-- Mnemonics met so far, each with its forms. -/
structure Assembler where
  known : List (Text × List Descriptor) := []

namespace Assembler

def forms? (assembler : Assembler) (mnemonic : Text) : Option (List Descriptor) :=
  match assembler.known.lookup mnemonic with
  | some forms => some forms
  | none => Catalog.forMnemonic? mnemonic

/-- Keep the forms of a mnemonic, unless they are known already or there are none. -/
def remember (assembler : Assembler) (mnemonic : Text) : Assembler :=
  match assembler.known.lookup mnemonic, Catalog.forMnemonic? mnemonic with
  | none, some forms => { known := (mnemonic, forms) :: assembler.known }
  | _, _ => assembler

/-- Keep the forms that are asked for when a line is taken in. -/
def learn (assembler : Assembler) (layout : Layout) (source : Text) : Assembler :=
  match layout.asked? source with
  | none => assembler
  | some mnemonic => assembler.remember mnemonic

/-- Take in lines of source, the first of which has number `line`. What was learnt from
them is kept even if one of them has a fault. -/
def addLines (assembler : Assembler) (layout : Layout) (line : Nat) :
    List Text → Except Diagnostic Layout × Assembler
  | [] => (.ok layout, assembler)
  | source :: rest =>
    match layout.addLine assembler.forms? line source with
    | .error cause => (.error ⟨line, cause⟩, assembler.learn layout source)
    | .ok next => (assembler.learn layout source).addLines next (line + 1) rest

/-- The first pass over a whole source text. -/
def layOut (assembler : Assembler) (source : Text) : Except Diagnostic Layout × Assembler :=
  match assembler.addLines {} 1 (Text.lines source) with
  | (.error diagnostic, assembler) => (.error diagnostic, assembler)
  | (.ok layout, assembler) => (layout.close, assembler)

/-- Assemble a source text. Nothing is stored anywhere. -/
def assemble (assembler : Assembler) (source : Text) :
    Except Diagnostic Program × Assembler :=
  match assembler.layOut source with
  | (.error diagnostic, assembler) => (.error diagnostic, assembler)
  | (.ok layout, assembler) => (layout.fill, assembler)

end Assembler
end Micro6502.Assembly
