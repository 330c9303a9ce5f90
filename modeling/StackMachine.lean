import StackMachine.Main
import StackMachine.Proofs.Image
import StackMachine.Proofs.Numeral
import StackMachine.Proofs.Binary64.Decimal
import StackMachine.Proofs.Binary64.Text
import StackMachine.Proofs.Assembly.Token
import StackMachine.Proofs.Assembly.RoundTrip
import StackMachine.Proofs.ContentMap.Probe
import StackMachine.Proofs.ContentMap.Table
import StackMachine.Proofs.ContentMap.Content
import StackMachine.Proofs.ContentMap.Refinement
import StackMachine.Proofs.Collector
import StackMachine.Proofs.Machine.Ensures
import StackMachine.Proofs.Machine.Intact
import StackMachine.Proofs.Machine.Interface
import StackMachine.Proofs.Machine.Coercion
import StackMachine.Proofs.Machine.Interpreter
import StackMachine.Proofs.Machine.Calls
import StackMachine.Proofs.Machine.Approximation
import StackMachine.Proofs.Machine.Reachability
import StackMachine.Proofs.Machine.Budget
import StackMachine.Proofs.Machine.Routine
import StackMachine.Proofs.Machine.Conduct
import StackMachine.Proofs.Machine.Placement
import StackMachine.Proofs.Machine.Tidy
import StackMachine.Proofs.Assembly.Normalization
import StackMachine.Proofs.Assembly.Meaning
import StackMachine.Proofs.ContentMap.Alike
import StackMachine.Proofs.Machine.Alike
import StackMachine.Proofs.Machine.Agreement
import StackMachine.Proofs.Machine.Simulation
import StackMachine.Proofs.Machine.Transparency
import StackMachine.Proofs.Machine.Loading
import StackMachine.Proofs.Machine.Globals
import StackMachine.Proofs.Text
import StackMachine.Proofs.CommandLine
import StackMachine.Proofs.Machine.Confinement
import StackMachine.Proofs.Machine.Record
import StackMachine.Proofs.Machine.Typing
import StackMachine.Proofs.Collector.Collection
import StackMachine.Proofs.Collector.History
import StackMachine.Proofs.Verification
import StackMachine.Proofs.Machine.Fault
import StackMachine.Proofs.ContentMap.Load
import StackMachine.Proofs.Assembly.Document
import StackMachine.Proofs.Assembly.Labels
import StackMachine.Proofs.Assembly.Resolution
import StackMachine.Proofs.Machine.Effect
import StackMachine.Proofs.Builder
import StackMachine.Proofs.Truncation
import StackMachine.Proofs.Number.Grammar
import StackMachine.Proofs.Number.RoundTrip
import StackMachine.Proofs.Signature
import StackMachine.Proofs.StringPool
import StackMachine.Proofs.Assembly.Idempotence
import StackMachine.Proofs.Machine.Rooting
import StackMachine.Proofs.Assembly.Canonical
import StackMachine.Proofs.Machine.Comparison
import StackMachine.Proofs.Decoder
import StackMachine.Proofs.OperandStack.BoundedList
import StackMachine.Proofs.StringHeap.Accounting
