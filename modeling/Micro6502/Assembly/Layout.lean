import Micro6502.Assembly.ByteList
import Micro6502.Assembly.Encoding

/-! The first pass over a source text. Every line is encoded as soon as it is
read, so that the address of the next one is known; labels that are not known
yet leave placeholder bytes of the final size behind, so no address moves later. -/

namespace Micro6502.Assembly

open Text

/-- How the forms of a mnemonic are found. -/
abbrev FormLookup := Text → Option (List Descriptor)

/-- What the lines read so far amount to: labels, code, the address that was set
last, the number of address labels, and the address of the next byte. -/
structure Layout where
  symbols : SymbolTable := {}
  code : Array CodeLine := #[]
  origin : Option Address := none
  addressLabels : Nat := 0
  counter : Address := programStart

/-- The longest list of a byte directive. -/
def directiveLimit : Nat := 0xFF

def encodeDirective (operand : Text) : Except Cause Encoding :=
  match parseByteList operand with
  | .error cause => .error cause
  | .ok bytes =>
    if bytes.length ≤ directiveLimit then
      .ok { descriptor := .byteDirective bytes.length, bytes, pending := none }
    else .error (.directiveTooLong bytes.length)

def encodeStatement (forms? : FormLookup) (mnemonic operand : Text) (address : Address)
    (symbols : SymbolTable) : Except Cause Encoding :=
  match forms? mnemonic with
  | none => .error (.invalidMnemonic mnemonic)
  | some forms =>
    if forms.any fun form => form.operation = .dcb then encodeDirective operand
    else match parseOperand operand with
      | .error cause => .error cause
      | .ok operand => encode mnemonic forms operand address symbols

namespace Layout

def moveTo (layout : Layout) (address : Address) : Layout :=
  { layout with origin := some address, counter := address }

/-- Append the code of a line. The address behind the top of memory is zero. -/
def append (layout : Layout) (line : Nat) (encoding : Encoding) : Layout :=
  { layout with
    code := layout.code.push {
      address := layout.counter
      bytes := encoding.bytes
      descriptor := encoding.descriptor
      line
      pending := encoding.pending }
    counter := layout.counter + .ofNat encoding.bytes.length }

def addStatement (forms? : FormLookup) (layout : Layout) (line : Nat)
    (mnemonic operand : Text) : Except Cause Layout :=
  match encodeStatement forms? mnemonic operand layout.counter layout.symbols with
  | .error cause => .error cause
  | .ok encoding => .ok (layout.append line encoding)

/-- Take in what follows a label on its line, which may be nothing. -/
def addRest (forms? : FormLookup) (layout : Layout) (line : Nat) (rest : Text) :
    Except Cause Layout :=
  if rest = [] then .ok layout
  else match parseInstruction rest with
    | .error cause => .error cause
    | .ok (mnemonic, operand) => layout.addStatement forms? line mnemonic operand

def define (layout : Layout) (line : Nat) (name : Text) : Except Cause Layout :=
  match layout.symbols.define name layout.counter line with
  | .error cause => .error cause
  | .ok symbols => .ok { layout with symbols }

def defineRelative (layout : Layout) (line : Nat) (name : Text) (dependency : Dependency) :
    Except Cause Layout :=
  match layout.symbols.defineRelative name dependency layout.counter line with
  | .error cause => .error cause
  | .ok symbols => .ok { layout with symbols }

def add (forms? : FormLookup) (layout : Layout) (line : Nat) :
    Statement → Except Cause Layout
  | .setAddress address => .ok (layout.moveTo address)
  | .labelMath name label offset => layout.defineRelative line name { label, offset }
  | .addressLabel address rest =>
    let layout := { layout.moveTo address with addressLabels := layout.addressLabels + 1 }
    layout.addRest forms? line rest
  | .label name rest => match layout.define line name with
    | .error cause => .error cause
    | .ok layout => layout.addRest forms? line rest
  | .instruction mnemonic operand => layout.addStatement forms? line mnemonic operand

/-- Take in a line of source. Lines that hold no statement are skipped. -/
def addLine (forms? : FormLookup) (layout : Layout) (line : Nat) (source : Text) :
    Except Cause Layout :=
  let code := normalize source
  if code = [] then .ok layout
  else match classify code with
    | .error cause => .error cause
    | .ok statement => layout.add forms? line statement

/-- Take in lines of source, the first of which has number `line`. The first
line with a fault ends the pass. -/
def addLines (forms? : FormLookup) (layout : Layout) (line : Nat) :
    List Text → Except Diagnostic Layout
  | [] => .ok layout
  | source :: rest => match layout.addLine forms? line source with
    | .error cause => .error ⟨line, cause⟩
    | .ok layout => layout.addLines forms? (line + 1) rest

/-- Settle the relative labels, which ends the pass. -/
def close (layout : Layout) : Except Diagnostic Layout :=
  let symbols := layout.symbols.settle
  match symbols.complaint? with
  | some diagnostic => .error diagnostic
  | none => .ok { layout with symbols }

end Layout

/-- The first pass over a whole source text. -/
def layOut (forms? : FormLookup) (source : Text) : Except Diagnostic Layout :=
  match Layout.addLines forms? {} 1 (lines source) with
  | .error diagnostic => .error diagnostic
  | .ok layout => layout.close

end Micro6502.Assembly
