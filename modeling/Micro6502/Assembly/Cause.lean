import Micro6502.Text.Numeral
import Micro6502.Instruction.Mode

/-! Why a source text is rejected, and the words in which that is said. -/

namespace Micro6502.Assembly

/-- What is wrong with a line of source. -/
inductive Cause where
  /-- No instruction and no directive has this name. -/
  | invalidMnemonic (mnemonic : Text)
  /-- The text is neither a statement nor an operand. -/
  | invalidSyntax (text : Text)
  /-- The operand asks for a mode in which the instruction does not exist. -/
  | unsupportedMode (mnemonic : Text) (mode : AddressingMode)
  /-- An operand value does not fit in its field. -/
  | outOfRange (value : Nat)
  /-- A location does not fit in sixteen bits. -/
  | addressOutOfRange (text : Text)
  | duplicateLabel (label : Text)
  /-- A label is defined relative to itself. -/
  | selfReferentialLabel (label : Text)
  /-- A label is defined relative to one that is defined nowhere. -/
  | missingDependentLabel (label dependency : Text)
  /-- Relative definitions that lead back to themselves. -/
  | circularLabel (label : Text)
  | undefinedLabel (label : Text)
  /-- The list of a byte directive has an entry that is not a number. -/
  | invalidDirective (text : Text)
  | directiveTooLong (count : Nat)
  /-- A label was to be filled into a line that has no room for one. -/
  | unimplementedPatch (size : Nat)
  deriving DecidableEq

def Cause.message : Cause → Text
  | invalidMnemonic mnemonic => "Invalid op code: ".toList ++ mnemonic
  | invalidSyntax text => "Invalid assembly: ".toList ++ text
  | unsupportedMode mnemonic mode =>
    mnemonic ++ " does not support ".toList ++ mode.name ++ " mode".toList
  | outOfRange value => "Value out of range: ".toList ++ Text.decimal value
  | addressOutOfRange text => "Address out of range: ".toList ++ text
  | duplicateLabel label => "Duplicate label ".toList ++ label
  | selfReferentialLabel label =>
    "Cannot redefine label ".toList ++ label ++ " in terms of itself".toList
  | missingDependentLabel label dependency =>
    "Unable to process label ".toList ++ label ++ ": missing dependent label ".toList ++
      dependency
  | circularLabel label =>
    "Unable to process label ".toList ++ label ++ ": circular label math".toList
  | undefinedLabel label => "Label not defined: ".toList ++ label
  | invalidDirective text => "DCB with invalid value list: ".toList ++ text
  | directiveTooLong count => "DCB list too long: ".toList ++ Text.decimal count ++ " bytes".toList
  | unimplementedPatch size =>
    "Not implemented: cannot patch a ".toList ++ Text.decimal size ++ "-byte instruction".toList

/-- A cause together with the source line, counted from one, that shows it. -/
structure Diagnostic where
  line : Nat
  cause : Cause
  deriving DecidableEq

def Diagnostic.message (d : Diagnostic) : Text :=
  "Line ".toList ++ Text.decimal d.line ++ ": ".toList ++ d.cause.message

end Micro6502.Assembly
