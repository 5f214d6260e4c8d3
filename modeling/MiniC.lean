import MiniC.Main
import MiniC.Proofs.Allocation.Ranges
import MiniC.Proofs.Arithmetic.Negation
import MiniC.Proofs.Arrays.Declaration
import MiniC.Proofs.Arrays.Pointers
import MiniC.Proofs.Bindings
import MiniC.Proofs.Comments
import MiniC.Proofs.Execution.Evaluation
import MiniC.Proofs.Execution.Machine
import MiniC.Proofs.Execution.Operands
import MiniC.Proofs.Execution.Simulation
import MiniC.Proofs.Files.Delivery
import MiniC.Proofs.Frames
import MiniC.Proofs.Globals.Values
import MiniC.Proofs.Grammar.SimpleStatements
import MiniC.Proofs.Grammar.TrailingCommas.Program
import MiniC.Proofs.Guarded.Compile
import MiniC.Proofs.Heads
import MiniC.Proofs.Heights.Program
import MiniC.Proofs.Layout
import MiniC.Proofs.Literals.Addresses
import MiniC.Proofs.Loops.Sugar
import MiniC.Proofs.Lowering.Expr
import MiniC.Proofs.Lowering.Program
import MiniC.Proofs.Lowering.Stmt
import MiniC.Proofs.Operators
import MiniC.Proofs.Places.Tiling
import MiniC.Proofs.Preservation.Control
import MiniC.Proofs.Preservation.Expr
import MiniC.Proofs.Preservation.Function
import MiniC.Proofs.Preservation.Program
import MiniC.Proofs.Preservation.Stmt
import MiniC.Proofs.Printing.Emitted
import MiniC.Proofs.Printing.Trees
import MiniC.Proofs.Printing.TypeNames
import MiniC.Proofs.Relocation.Sources
import MiniC.Proofs.Renaming.Check
import MiniC.Proofs.Renaming.Code
import MiniC.Proofs.Renaming.Program
import MiniC.Proofs.Resolution.Expr
import MiniC.Proofs.Resolution.Program
import MiniC.Proofs.Resolution.Stmt
import MiniC.Proofs.Resolution.Visits
import MiniC.Proofs.Spacing
import MiniC.Proofs.Strings.Spelling
import MiniC.Proofs.Structure.Jumps
import MiniC.Proofs.Typing.Annotation
import MiniC.Proofs.Typing.Program
import MiniC.Proofs.Validation.Algorithm
import MiniC.Proofs.Validation.Lowering
import MiniC.Proofs.Validation.Program
import MiniC.Proofs.Visibility.Bodies
import MiniC.Proofs.Visibility.GlobalsFirst
import MiniC.Proofs.Visibility.Items
import MiniC.Proofs.Visibility.Order
import MiniC.Tree.Spans
import MiniC.Proofs.Places.Lines
