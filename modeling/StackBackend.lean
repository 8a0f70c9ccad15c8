import StackBackend.Main
import StackBackend.Proofs.Arrays.Elements
import StackBackend.Proofs.Execution.Automaton
import StackBackend.Proofs.Execution.Domain
import StackBackend.Proofs.Execution.World
import StackBackend.Proofs.Execution.Control
import StackBackend.Proofs.Execution.Lenient
import StackBackend.Proofs.Execution.Machine
import StackBackend.Proofs.Execution.Pace
import StackBackend.Proofs.Execution.Program
import StackBackend.Proofs.Lowering.Emission
import StackBackend.Proofs.Lowering.Operators
import StackBackend.Proofs.Lowering.Instr
import StackBackend.Proofs.Assembly.LabelSupply
import StackBackend.Proofs.Lowering.Labels
import StackBackend.Proofs.Lowering.Body
import StackBackend.Proofs.Assembly.Listing
import StackBackend.Proofs.Lowering.MethodCode
import StackBackend.Proofs.Lowering.Preservation
import StackBackend.Proofs.Assembly.Fusion
import StackBackend.Proofs.Assembly.Pieces
import StackBackend.Proofs.Execution.Fusion
import StackBackend.Proofs.Slots.Liveness
import StackBackend.Proofs.Slots.LivePaths
import StackBackend.Proofs.Slots.Convergence
import StackBackend.Proofs.Slots.Interference
import StackBackend.Proofs.Slots.Changes
import StackBackend.Proofs.Slots.Coloring
import StackBackend.Proofs.Slots.Gapless
import StackBackend.Proofs.Slots.Simplification
import StackBackend.Proofs.Execution.Reading
import StackBackend.Proofs.Slots.Allocation
import StackBackend.Proofs.Slots.Preservation
import StackBackend.Proofs.Assembly.Balance
import StackBackend.Proofs.Assembly.Paths
import StackBackend.Proofs.Lowering.Balance
import StackBackend.Proofs.Lowering.Heights
import StackBackend.Proofs.Lowering.StackSafety
import StackBackend.Proofs.Source.Lexemes
import StackBackend.Proofs.Source.Names
import StackBackend.Proofs.Source.Methods
import StackBackend.Proofs.Kinds.Signature
import StackBackend.Proofs.Kinds.Domain
import StackBackend.Proofs.Kinds.Machine
import StackBackend.Proofs.Kinds.Lines
import StackBackend.Proofs.Lowering.Targets
import StackBackend.Proofs.Kinds.Program
import StackBackend.Proofs.Kinds.Safety
import StackBackend.Proofs.Source.Grammar
import StackBackend.Proofs.Source.Recognition
import StackBackend.Proofs.Source.Sentences
import StackBackend.Proofs.Lowering.Tables
import StackBackend.Proofs.Slots.Budget
import StackBackend.Proofs.Source.Lexing
import StackBackend.Proofs.Source.PrintedMembers
import StackBackend.Proofs.Source.Rereading
import StackBackend.Proofs.Source.Acceptance
import StackBackend.Proofs.Slots.Repetition
import StackBackend.Proofs.Assembly.Slots
import StackBackend.Proofs.Lowering.Touches
import StackBackend.Proofs.Lowering.CodeSlots
import StackBackend.Proofs.Slots.Needed
import StackBackend.Proofs.Slots.Growth
import StackBackend.Proofs.Source.Lookahead
import StackBackend.Proofs.Source.Openings
import StackBackend.Proofs.Source.FirstFault
import StackBackend.Proofs.Lowering.Outcome
import StackBackend.Proofs.Lowering.Expressible
import StackBackend.Proofs.Source.Numbering
import StackBackend.Proofs.Source.LongestMatch
import StackBackend.Proofs.Slots.Traversal
import StackBackend.Proofs.Arrays.Program
import StackBackend.Proofs.Arrays.Access
import StackBackend.Proofs.Lowering.Descriptors
import StackBackend.Proofs.Slots.SimpleGraph
import StackBackend.Proofs.Assembly.FreshLabels
