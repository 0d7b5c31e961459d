import ObjectMachine.Console.Options
import ObjectMachine.Knowledge.Scripted
import ObjectMachine.Knowledge.Store
import ObjectMachine.Machine.Step
import ObjectMachine.Machine.Trace
import ObjectMachine.Main
import ObjectMachine.Snapshot
import ObjectMachine.Proofs.Continuation
import ObjectMachine.Proofs.Intent
import ObjectMachine.Proofs.Refusal
import ObjectMachine.Proofs.Transition
import ObjectMachine.Proofs.CallDiscipline
import ObjectMachine.Proofs.Aftermath
import ObjectMachine.Proofs.References
import ObjectMachine.Proofs.Joining
import ObjectMachine.Proofs.Bracketing
import ObjectMachine.Proofs.Lockstep
import ObjectMachine.Proofs.Meaning
import ObjectMachine.Proofs.Activations
import ObjectMachine.Proofs.Simulation
import ObjectMachine.Proofs.StackContext
import ObjectMachine.Proofs.Failure
import ObjectMachine.Proofs.CborCodec
import ObjectMachine.Proofs.CborBounds
import ObjectMachine.Proofs.SnapshotRecords
import ObjectMachine.Proofs.Snapshots
import ObjectMachine.Proofs.Naming
import ObjectMachine.Proofs.StepLimit
import ObjectMachine.Proofs.Forks
import ObjectMachine.Proofs.Protocol
import ObjectMachine.Proofs.Receiver
import ObjectMachine.Proofs.Shapes
import ObjectMachine.Proofs.Loading
import ObjectMachine.Proofs.Operands
import ObjectMachine.Proofs.Growth
import ObjectMachine.Proofs.Evolution
import ObjectMachine.Proofs.Initialisation
import ObjectMachine.Proofs.Transparency
import ObjectMachine.Proofs.Renaming
import ObjectMachine.Proofs.Opacity
import ObjectMachine.Proofs.Integers
import ObjectMachine.Proofs.Iteration
import ObjectMachine.Proofs.Placeholders
import ObjectMachine.Proofs.Answers
import ObjectMachine.Proofs.Arguments
import ObjectMachine.Proofs.Termination
import ObjectMachine.Proofs.Listing
import ObjectMachine.Proofs.Instances
import ObjectMachine.Proofs.Breakpoints
import ObjectMachine.Proofs.Reading
import ObjectMachine.Proofs.SourceLanguage
import ObjectMachine.Proofs.SourceTrees
import ObjectMachine.Proofs.ClassQueries
import ObjectMachine.Proofs.ClassAlgebra
import ObjectMachine.Proofs.TripleTable
import ObjectMachine.Proofs.Identifiers
import ObjectMachine.Proofs.Arithmetic
import ObjectMachine.Proofs.Restoring
import ObjectMachine.Proofs.Highlighting
