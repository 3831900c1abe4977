import HackStack.CommandLine.FileTree
import HackStack.Machine.Run
import HackStack.Main
import HackStack.Proofs.Text.Line
import HackStack.Proofs.Assembly.RoundTrip
import HackStack.Proofs.Rom.Listing
import HackStack.Proofs.Rom.Linking
import HackStack.Proofs.Block.Lowering
import HackStack.Proofs.Block.Task
import HackStack.Proofs.Session.Run
import HackStack.Proofs.Command.Grammar
import HackStack.Proofs.Command.Written
import HackStack.Proofs.Command.RoundTrip
import HackStack.Proofs.Session.Acceptance
import HackStack.Proofs.Block.Plain
import HackStack.Proofs.Rom.Program
import HackStack.Proofs.Machine.Memory
import HackStack.Proofs.Machine.Cycle
import HackStack.Proofs.Machine.Exec
import HackStack.Proofs.Block.Exec
import HackStack.Proofs.Block.Comparison
import HackStack.Proofs.StackMachine.Agreement
import HackStack.Proofs.StackMachine.Loading
import HackStack.Proofs.StackMachine.Simulation
import HackStack.Proofs.StackMachine.Traps
import HackStack.Proofs.StackMachine.Runs
import HackStack.Proofs.Rom.Nesting
import HackStack.Proofs.Rom.Returning
import HackStack.Proofs.Label.Rendering
import HackStack.Proofs.Session.Scopes
import HackStack.Proofs.Session.Hygiene
import HackStack.Proofs.Session.Reachable
import HackStack.Proofs.Session.Storing
import HackStack.Proofs.Session.Jumps
import HackStack.Proofs.Session.Annotation
import HackStack.Proofs.Rom.Comments
import HackStack.Proofs.Rom.Statements
import HackStack.Proofs.Rom.Calling
import HackStack.Proofs.Rom.Cells
import HackStack.Proofs.Rom.Legible
import HackStack.Proofs.Rom.Statics
import HackStack.Proofs.CommandLine.Stages
import HackStack.Proofs.CommandLine.Assembling
import HackStack.Proofs.Block.Determined
import HackStack.Proofs.Block.Faulting
import HackStack.Proofs.Session.Statistics
import HackStack.Proofs.Session.Order
import HackStack.Proofs.Session.StartUp
import HackStack.Proofs.Text.Raw
import HackStack.Proofs.CommandLine.Paths
import HackStack.Proofs.CommandLine.Places
import HackStack.Proofs.CommandLine.Sources
import HackStack.Proofs.CommandLine.Printing
import HackStack.Proofs.CommandLine.Output
import HackStack.Proofs.Rom.Faults
import HackStack.Proofs.Rom.TwoPasses
import HackStack.Proofs.Assembly.Spelling
import HackStack.Proofs.Rom.Access
import HackStack.Proofs.Rom.Comparing
import HackStack.Proofs.Machine.Limits
import HackStack.Proofs.Machine.Slices
import HackStack.Proofs.Machine.Guarded
import HackStack.Proofs.Rom.Forward
import HackStack.Proofs.Rom.Balance
import HackStack.Proofs.Rom.Starting
import HackStack.Proofs.Session.Failing
import HackStack.Proofs.Session.Counting
import HackStack.Proofs.Text.Edits
import HackStack.Proofs.Session.Relaid
import HackStack.Proofs.Rom.Sparing
import HackStack.Proofs.Rom.Variables
import HackStack.Proofs.Rom.Region
