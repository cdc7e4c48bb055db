import Backpatch.Builtin
import Backpatch.CodeBuffer
import Backpatch.Error
import Backpatch.Event
import Backpatch.FunctionScope
import Backpatch.Generator
import Backpatch.Instruction
import Backpatch.LiteralPool
import Backpatch.Machine
import Backpatch.Number.Arithmetic
import Backpatch.Number.Basic
import Backpatch.Number.Decimal
import Backpatch.Opcode
import Backpatch.Operator
import Backpatch.Program
import Backpatch.Proofs.Appending
import Backpatch.Proofs.Backpatching
import Backpatch.Proofs.Blocks
import Backpatch.Proofs.CallStructure
import Backpatch.Proofs.Closure
import Backpatch.Proofs.Composition
import Backpatch.Proofs.ConstantTexts
import Backpatch.Proofs.Decompilation
import Backpatch.Proofs.Edits
import Backpatch.Proofs.EqualTrees
import Backpatch.Proofs.Equality
import Backpatch.Proofs.Evaluation
import Backpatch.Proofs.Faults
import Backpatch.Proofs.Grouping
import Backpatch.Proofs.IndexedTables
import Backpatch.Proofs.Interchange
import Backpatch.Proofs.Interning
import Backpatch.Proofs.JumpReports
import Backpatch.Proofs.Layout
import Backpatch.Proofs.Linking
import Backpatch.Proofs.Listings
import Backpatch.Proofs.Nesting
import Backpatch.Proofs.Operands
import Backpatch.Proofs.Patching
import Backpatch.Proofs.References
import Backpatch.Proofs.Renaming
import Backpatch.Proofs.Reports
import Backpatch.Proofs.Runs
import Backpatch.Proofs.Safety
import Backpatch.Proofs.ScopeSteps
import Backpatch.Proofs.Scoping
import Backpatch.Proofs.Sessions
import Backpatch.Proofs.Simulation
import Backpatch.Proofs.Spacing
import Backpatch.Proofs.StackHeights
import Backpatch.Proofs.Tables
import Backpatch.Step
import Backpatch.SymbolTable
import Backpatch.Tree
import Backpatch.Value
