import Micro6502.Word
import Micro6502.Text.Basic
import Micro6502.Text.Numeral
import Micro6502.Instruction.Catalog
import Micro6502.Instruction.Branch
import Micro6502.Assembly.Cause
import Micro6502.Assembly.Statement
import Micro6502.Assembly.Operand
import Micro6502.Assembly.ByteList
import Micro6502.Bus
import Micro6502.Assembly.SymbolTable
import Micro6502.Assembly.CodeLine
import Micro6502.Assembly.Encoding
import Micro6502.Assembly.Layout
import Micro6502.Assembly.Program
import Micro6502.Assembly.Assembler
import Micro6502.Machine.Fault
import Micro6502.Machine.Status
import Micro6502.Machine.ByteSource
import Micro6502.Machine.Screen
import Micro6502.Machine.Framebuffer
import Micro6502.Machine.Journal
import Micro6502.Machine.Scrollback
import Micro6502.Machine.Memory
import Micro6502.Machine.Registers
import Micro6502.Machine.Arithmetic
import Micro6502.Machine.Processor
import Micro6502.Machine.Execution
import Micro6502.Listing.Format
import Micro6502.Listing.Walk
import Micro6502.Machine.Clock
import Micro6502.Machine.Basic
import Micro6502.Machine.Compile
import Micro6502.Proofs.Instruction.Catalog
import Micro6502.Proofs.Assembly.Encoding
import Micro6502.Proofs.Assembly.Layout
import Micro6502.Proofs.Assembly.Program
import Micro6502.Proofs.Instruction.Branch
import Micro6502.Proofs.Assembly.Placement
import Micro6502.Proofs.Assembly.Pointer
import Micro6502.Proofs.Machine.Fetch
import Micro6502.Proofs.Machine.Operand
import Micro6502.Proofs.Machine.Batch
import Micro6502.Proofs.Machine.Action
import Micro6502.Proofs.Machine.Flow
import Micro6502.Proofs.Listing.Loaded
import Micro6502.Proofs.Listing.Source
import Micro6502.Proofs.Listing.RoundTrip
import Micro6502.Proofs.Listing.Coverage
import Micro6502.Proofs.Listing.Injectivity
import Micro6502.Proofs.Bus
import Micro6502.Proofs.Machine.Lockstep
import Micro6502.Proofs.Machine.Screen
import Micro6502.Proofs.Machine.Session
import Micro6502.Proofs.Machine.Display
import Micro6502.Proofs.Machine.RandomCell
import Micro6502.Proofs.Assembly.Assembler
import Micro6502.Proofs.Machine.Compile
import Micro6502.Proofs.Text.Value
import Micro6502.Proofs.Text.Pieces
import Micro6502.Proofs.Assembly.Numeral
import Micro6502.Proofs.Assembly.Literal
import Micro6502.Proofs.Machine.History
import Micro6502.Proofs.Machine.Trace
import Micro6502.Proofs.Machine.Effect
import Micro6502.Proofs.Machine.Footprint
import Micro6502.Proofs.Machine.LastWriter
import Micro6502.Proofs.Machine.Frame
import Micro6502.Proofs.Machine.Residue
import Micro6502.Proofs.Machine.Subroutine
import Micro6502.Proofs.Machine.Stack
import Micro6502.Proofs.Machine.Arithmetic
import Micro6502.Proofs.Machine.MultiByte
import Micro6502.Proofs.Machine.RunState
import Micro6502.Proofs.Assembly.Settling
import Micro6502.Proofs.Assembly.Visibility
import Micro6502.Proofs.Assembly.Entry
import Micro6502.Proofs.Assembly.Reordering
import Micro6502.Proofs.Assembly.Immediate
import Micro6502.Proofs.Assembly.Provenance
import Micro6502.Proofs.Assembly.Filling
import Micro6502.Proofs.Assembly.Fault
import Micro6502.Proofs.Assembly.Chain
import Micro6502.Proofs.Assembly.Sweep
import Micro6502.Proofs.Assembly.Renumbering
import Micro6502.Proofs.Assembly.Formatting
import Micro6502.Proofs.Assembly.Grammar
import Micro6502.Proofs.Assembly.Hexadecimal
import Micro6502.Proofs.Machine.LastInFirstOut
import Micro6502.Proofs.Machine.Recent
import Micro6502.Proofs.Assembly.Diagnosis
import Micro6502.Proofs.Assembly.Integrity
import Micro6502.Proofs.Assembly.Classification
import Micro6502.Proofs.Assembly.ByteList
import Micro6502.Proofs.Machine.DirtyList
import Micro6502.Proofs.Machine.Scrollback
import Micro6502.Proofs.Machine.Rotation
import Micro6502.Proofs.Machine.ZeroPagePointer
