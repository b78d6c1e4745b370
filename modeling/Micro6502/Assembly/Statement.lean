import Micro6502.Assembly.Cause

/-! The forms that a line of source can take. A line is first normalized, which
makes case, comments and outer blanks irrelevant, and then tried against the
forms in a fixed order. -/

namespace Micro6502.Assembly

open Text

/-- A line of source by its form. -/
inductive Statement where
  /-- `*=$C000`: code continues at this address. -/
  | setAddress (address : Address)
  /-- `NAME = OTHER + 12`: a label at a distance from another one. -/
  | labelMath (name dependency : Text) (offset : Int)
  /-- `$C000:` followed by an optional instruction: as `setAddress`, and counted. -/
  | addressLabel (address : Address) (rest : Text)
  /-- `NAME:` followed by an optional instruction: a label at this place. -/
  | label (name rest : Text)
  /-- A mnemonic of three letters and its operand, which may be empty. -/
  | instruction (mnemonic operand : Text)
  deriving DecidableEq

/-- The part of a line that counts: in upper case, without its comment and
without the blanks around it. -/
def normalize (line : Text) : Text :=
  trim ((upper line).takeWhile (· ≠ ';'))

/-- The characters of a label name after its first one. -/
def isLabelChar (c : Char) : Bool := c.isUpper || c.isDigit || c = '_'

/-- Labels are a letter followed by at least one letter, digit or underscore. -/
def isLabelName : Text → Bool
  | [] => false
  | first :: rest => first.isUpper && !rest.isEmpty && rest.all isLabelChar

/-- Read an address, in hexadecimal after a `$` and in decimal otherwise. -/
def parseAddress (text : Text) : Except Cause Address :=
  match readMarked? text with
  | none => .error (.invalidSyntax text)
  | some value =>
    if value < 0x10000 then .ok (.ofNat value) else .error (.addressOutOfRange text)

def parseSetAddress (rest : Text) : Except Cause Address :=
  match after? '=' (trimStart rest) with
  | none => .error (.invalidSyntax ('*' :: rest))
  | some value => parseAddress (trim value)

/-- Split an expression at its first sign. The sign belongs to neither part. -/
def cutAtSign? : Text → Option (Text × Bool × Text)
  | [] => none
  | c :: rest =>
    if c = '+' then some ([], false, rest)
    else if c = '-' then some ([], true, rest)
    else match cutAtSign? rest with
      | none => none
      | some (before, negative, tail) => some (c :: before, negative, tail)

/-- The distance of a relative definition: one to three decimal digits. -/
def readDistance? (digits : Text) : Option Nat :=
  if digits.length ≤ 3 then Radix.decimal.read? digits else none

/-- Read a line as the definition of one label relative to another. Lines that
do not have this form may still have one of the later ones. -/
def labelMath? (line : Text) : Option Statement :=
  match cut? '=' line with
  | none => none
  | some (left, expression) => match cutAtSign? expression with
    | none => none
    | some (middle, negative, right) =>
      let name := trim left
      let dependency := trim middle
      if isLabelName name && isLabelName dependency then
        match readDistance? (trim right) with
        | none => none
        | some distance =>
          some (.labelMath name dependency (if negative then -(distance : Int) else distance))
      else none

def isAddressForm (text : Text) : Bool :=
  match after? '$' text with
  | some digits => !digits.isEmpty && digits.all fun c => (Radix.hex.digit? c).isSome
  | none => !text.isEmpty && text.all fun c => (Radix.decimal.digit? c).isSome

/-- Split a line that carries no label into mnemonic and operand. -/
def parseInstruction (line : Text) : Except Cause (Text × Text) :=
  match line with
  | c :: d :: e :: rest =>
    if c.isUpper && d.isUpper && e.isUpper then .ok ([c, d, e], trim rest)
    else .error (.invalidSyntax line)
  | _ => .error (.invalidSyntax line)

def classifyInstruction (line : Text) : Except Cause Statement :=
  match parseInstruction line with
  | .error cause => .error cause
  | .ok (mnemonic, operand) => .ok (.instruction mnemonic operand)

/-- Read a line that is not label math: a label of either kind in front of a
colon, or else an instruction. -/
def classifyLabelled (line : Text) : Except Cause Statement :=
  match cut? ':' line with
  | none => classifyInstruction line
  | some (front, rest) =>
    if isAddressForm front then
      match parseAddress front with
      | .error cause => .error cause
      | .ok address => .ok (.addressLabel address (trim rest))
    else if isLabelName front then .ok (.label front (trim rest))
    else classifyInstruction line

def classify (line : Text) : Except Cause Statement :=
  match after? '*' line with
  | some rest => match parseSetAddress rest with
    | .error cause => .error cause
    | .ok address => .ok (.setAddress address)
  | none => match labelMath? line with
    | some statement => .ok statement
    | none => classifyLabelled line

end Micro6502.Assembly
