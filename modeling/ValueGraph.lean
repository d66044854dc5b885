import ValueGraph.Arena.Lemmas
import ValueGraph.Audit
import ValueGraph.Operation
import ValueGraph.Text.Hexadecimal
import ValueGraph.Tour
import ValueGraph.Types.Rendering
import ValueGraph.Proofs.Accounts
import ValueGraph.Proofs.Collecting
import ValueGraph.Proofs.TypeRules
import ValueGraph.Proofs.Building
import ValueGraph.Proofs.Factories
import ValueGraph.Proofs.Redirecting
import ValueGraph.Proofs.Placing
import ValueGraph.Proofs.Disposal
import ValueGraph.Proofs.Naming
import ValueGraph.Proofs.Declaring
import ValueGraph.Proofs.Operations
import ValueGraph.Proofs.Runs
import ValueGraph.Proofs.Refusals
import ValueGraph.Proofs.Typing
import ValueGraph.Proofs.Uniquing
import ValueGraph.Proofs.Frames
import ValueGraph.Proofs.Resemblance
import ValueGraph.Proofs.Lodging
import ValueGraph.Proofs.OperandRules
import ValueGraph.Proofs.RegisterSlots
import ValueGraph.Proofs.DefUse
import ValueGraph.Proofs.Attachment
import ValueGraph.Proofs.Nesting
import ValueGraph.Proofs.Generations
import ValueGraph.Proofs.FlowGraph
import ValueGraph.Proofs.Successors
import ValueGraph.Proofs.Auditing
import ValueGraph.Proofs.AuditSoundness
import ValueGraph.Proofs.Ledger
import ValueGraph.Proofs.SymbolTable
import ValueGraph.Proofs.ReturnAgreement
import ValueGraph.Proofs.StaleHandles
import ValueGraph.Proofs.Reachability
import ValueGraph.Proofs.Readers
import ValueGraph.Proofs.Progress
import ValueGraph.Proofs.Placeholders
import ValueGraph.Proofs.Uprooting
import ValueGraph.Proofs.Vacating
import ValueGraph.Proofs.Parting
import ValueGraph.Proofs.CollectionProgress
import ValueGraph.Proofs.Tearing
import ValueGraph.Proofs.Releasing
import ValueGraph.Proofs.Entries
import ValueGraph.Proofs.BlockErasure
import ValueGraph.Proofs.FunctionErasure
import ValueGraph.Proofs.Traversal
import ValueGraph.Proofs.Switches
import ValueGraph.Proofs.TypeEquality
import ValueGraph.Proofs.BlockLists
import ValueGraph.Proofs.TypeTexts
import ValueGraph.Proofs.Measures
import ValueGraph.Proofs.IntegerConstants
import ValueGraph.Proofs.CastTables
import ValueGraph.Proofs.ConstConversions
import ValueGraph.Proofs.AccessAlignment
import ValueGraph.Proofs.ArenaTables
