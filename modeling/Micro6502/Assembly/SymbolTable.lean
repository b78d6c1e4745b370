import Micro6502.Assembly.Cause

/-! Labels. A label is plain, defined at an address, or relative, defined at a
distance from another label. Relative definitions wait until all labels are
known and are then settled by following them to a plain label, so the order of
definitions does not matter. -/

namespace Micro6502.Assembly

/-- The `OTHER + offset` of a relative definition. -/
structure Dependency where
  label : Text
  offset : Int
  deriving DecidableEq

/-- A label. While `dependency` is present the address is only the place of the
definition; `line` is the source line of the definition, counted from one. -/
structure Label where
  name : Text
  address : Address
  dependency : Option Dependency
  line : Nat
  deriving DecidableEq

/-- Labels in the order of their definitions. -/
structure SymbolTable where
  labels : List Label := []
  deriving DecidableEq

namespace SymbolTable

def find? (table : SymbolTable) (name : Text) : Option Label :=
  table.labels.find? fun label => label.name = name

/-- The settled label of the given name. Relative labels are not seen before
they are settled. -/
def lookup? (table : SymbolTable) (name : Text) : Option Label :=
  table.labels.find? fun label => label.name = name && label.dependency.isNone

def defines (table : SymbolTable) (name : Text) : Bool :=
  table.labels.any fun label => label.name = name

def push (table : SymbolTable) (label : Label) : SymbolTable :=
  { labels := table.labels ++ [label] }

/-- Define a plain label. A name is defined once at most. -/
def define (table : SymbolTable) (name : Text) (address : Address) (line : Nat) :
    Except Cause SymbolTable :=
  if table.defines name then .error (.duplicateLabel name)
  else .ok (table.push { name, address, dependency := none, line })

/-- Define a label relative to another one, which need not be defined yet. -/
def defineRelative (table : SymbolTable) (name : Text) (dependency : Dependency)
    (address : Address) (line : Nat) : Except Cause SymbolTable :=
  if table.defines name then .error (.duplicateLabel name)
  else if name = dependency.label then .error (.selfReferentialLabel name)
  else .ok (table.push { name, address, dependency := some dependency, line })

/-- The address that a name leads to by way of at most `steps` labels, the named
one included. -/
def reach? (table : SymbolTable) : Nat → Text → Option Address
  | 0, _ => none
  | steps + 1, name => match table.find? name with
    | none => none
    | some label => match label.dependency with
      | none => some label.address
      | some dependency =>
        (table.reach? steps dependency.label).map (· + .ofInt dependency.offset)

/-- A label after settling. It stays as it is if it leads to no plain label; a
way that visits more labels than there are runs in a circle. -/
def settled (table : SymbolTable) (label : Label) : Label :=
  match label.dependency with
  | none => label
  | some dependency => match table.reach? table.labels.length dependency.label with
    | none => label
    | some base => { label with address := base + .ofInt dependency.offset, dependency := none }

/-- Settle all relative labels that lead to a plain one. -/
def settle (table : SymbolTable) : SymbolTable :=
  { labels := table.labels.map table.settled }

/-- What is wrong with an unsettled label whose dependency is not defined. -/
def missing? (table : SymbolTable) (label : Label) : Option Diagnostic :=
  match label.dependency with
  | none => none
  | some dependency =>
    if table.defines dependency.label then none
    else some ⟨label.line, .missingDependentLabel label.name dependency.label⟩

/-- What is wrong with an unsettled label whose dependency is defined. -/
def circular? (label : Label) : Option Diagnostic :=
  match label.dependency with
  | none => none
  | some _ => some ⟨label.line, .circularLabel label.name⟩

/-- What is wrong with a table after settling, if anything is. A missing label
is the better explanation, so it is looked for first. -/
def complaint? (table : SymbolTable) : Option Diagnostic :=
  match table.labels.findSome? table.missing? with
  | some diagnostic => some diagnostic
  | none => table.labels.findSome? circular?

end SymbolTable
end Micro6502.Assembly
