import Orchestration.Activity.Scripted
import Orchestration.Main
import Orchestration.Proofs.Run.Postcondition
import Orchestration.Workflow.Builder
import Orchestration.Workflow.Encoding
import Orchestration.Proofs.Run.Evaluation
import Orchestration.Proofs.Run.Transitions
import Orchestration.Proofs.Run.Completion
import Orchestration.Proofs.Run.Scheduling
import Orchestration.Proofs.Workflow.Levels
import Orchestration.Proofs.Workflow.Soundness
import Orchestration.Proofs.StateMachine.Execution
import Orchestration.Proofs.StateMachine.Encoding
import Orchestration.Proofs.StateMachine.Closure
import Orchestration.Proofs.Binary64.Rounding
import Orchestration.Proofs.StateMachine.Simulation
import Orchestration.Proofs.StateMachine.Documents
import Orchestration.Proofs.StepProgram.Calls
import Orchestration.Proofs.StepProgram.Sites
import Orchestration.Proofs.StepProgram.Lifting
import Orchestration.Proofs.StepProgram.Histories
import Orchestration.Proofs.StepProgram.InPlace
import Orchestration.Proofs.Run.Snapshots
import Orchestration.Proofs.StepProgram.Isolation
import Orchestration.Proofs.Json.Reading
import Orchestration.Proofs.Definition.RoundTrip
import Orchestration.Proofs.Run.Order
import Orchestration.Proofs.StepProgram.Encoding
import Orchestration.Proofs.StepProgram.Execution
import Orchestration.Proofs.StepProgram.Simulation
import Orchestration.Proofs.Target.Addresses
import Orchestration.Proofs.Run.Failures
import Orchestration.Proofs.Run.Depth
import Orchestration.Proofs.Run.AtRest
import Orchestration.Proofs.Run.Concurrency
import Orchestration.Proofs.Run.Cutoff
import Orchestration.Proofs.Run.Doomed
import Orchestration.Proofs.Run.Lockstep
import Orchestration.Proofs.StepProgram.Blocks
import Orchestration.Proofs.StepProgram.Lists
import Orchestration.Proofs.StepProgram.RequestId
import Orchestration.Proofs.StepProgram.Jumps
import Orchestration.Proofs.Run.RequestId
import Orchestration.Proofs.Target.Names
import Orchestration.Proofs.Target.Failures
import Orchestration.Proofs.Workflow.WellFormed
import Orchestration.Proofs.Definition.Agreement
import Orchestration.Proofs.Json.Order
import Orchestration.Proofs.StepProgram.NameLists
import Orchestration.Proofs.Run.Termination
import Orchestration.Proofs.Run.WindowLog
import Orchestration.Proofs.Run.FanOut
import Orchestration.Proofs.Run.Alone
import Orchestration.Proofs.Run.Branches
import Orchestration.Proofs.Json.Path
import Orchestration.Proofs.Run.WriteBack
import Orchestration.Proofs.Run.Faults
import Orchestration.Proofs.Run.Worlds
import Orchestration.Proofs.Run.Fuel
import Orchestration.Proofs.Run.Unrolling
import Orchestration.Proofs.Target.TaskChain
import Orchestration.Proofs.Run.Kept
import Orchestration.Proofs.Run.Sequence
import Orchestration.Proofs.Run.Visits
import Orchestration.Proofs.Workflow.Acyclic
import Orchestration.Proofs.Run.Once
import Orchestration.Proofs.Json.Equality
import Orchestration.Proofs.Json.Comparing
import Orchestration.Proofs.Json.Lens
import Orchestration.Proofs.Json.Frame
import Orchestration.Proofs.Run.Inputs
import Orchestration.Proofs.Run.FirstFailure
import Orchestration.Proofs.Run.Calls
import Orchestration.Proofs.Run.ParallelFailures
import Orchestration.Proofs.Target.ElementInputs
