import LoxMachine.Proofs.Table.Matching
import LoxMachine.Proofs.Heap.History
import LoxMachine.Proofs.Heap.Bookkeeping
import LoxMachine.Proofs.Heap.Recycling
import LoxMachine.Proofs.Machine.Abandonment
import LoxMachine.Proofs.Machine.Assembly
import LoxMachine.Proofs.Machine.Ran
import LoxMachine.Proofs.Twin.Sessions
import LoxMachine.Proofs.Compile.Rooted
import LoxMachine.Proofs.Grammar.Legality
import LoxMachine.Proofs.Machine.Aftermath
import LoxMachine.Main
import LoxMachine.Proofs.Meaning.Preservation
import LoxMachine.Proofs.Compile.Primitives
import LoxMachine.Proofs.Compile.Unfailing
import LoxMachine.Proofs.Compile.Resolution
import LoxMachine.Proofs.Machine.Fused
import LoxMachine.Proofs.Symbolic.Code
import LoxMachine.Proofs.Symbolic.Emitting
import LoxMachine.Proofs.Symbolic.Expressions
import LoxMachine.Proofs.Symbolic.Declarations
import LoxMachine.Proofs.Symbolic.Charting
import LoxMachine.Proofs.Compile.Reports
import LoxMachine.Proofs.Scan.Offsets
import LoxMachine.Proofs.Scan.Printing
import LoxMachine.Proofs.Number.Text
import LoxMachine.Proofs.Listing.Agreement
import LoxMachine.Proofs.Machine.Jumps
import LoxMachine.Proofs.Machine.Traces
import LoxMachine.Proofs.Runs.Inheritance
import LoxMachine.Proofs.Receivers.Constructing
