import TapeMachine.Bracket.Scan
import TapeMachine.Command.FileTree
import TapeMachine.Main
import TapeMachine.Proofs.Bracket.Count
import TapeMachine.Proofs.Command.Preparation
import TapeMachine.Proofs.Program.Nesting
import TapeMachine.Proofs.Machine.Effect
import TapeMachine.Proofs.Run.Frames
import TapeMachine.Proofs.Block.Reading
import TapeMachine.Proofs.Block.Evaluation
import TapeMachine.Proofs.Block.Place
import TapeMachine.Proofs.Block.Execution
import TapeMachine.Proofs.Machine.Course
import TapeMachine.Proofs.Run.Progress
import TapeMachine.Proofs.Run.Limit
import TapeMachine.Proofs.Run.Tracing
import TapeMachine.Proofs.Run.Cancellation
import TapeMachine.Proofs.Text.Printed
import TapeMachine.Proofs.Trace.Reading
import TapeMachine.Proofs.Run.Log
import TapeMachine.Proofs.Machine.Relocation
import TapeMachine.Proofs.Program.Embedding
import TapeMachine.Proofs.Run.Capacity
import TapeMachine.Proofs.Run.Sequence
import TapeMachine.Proofs.Program.Comments
import TapeMachine.Proofs.Run.Comments
import TapeMachine.Proofs.Program.Level
import TapeMachine.Proofs.Run.Classic
import TapeMachine.Proofs.Machine.Input
import TapeMachine.Proofs.Run.Input
import TapeMachine.Proofs.Run.Padding
import TapeMachine.Proofs.Command.Exit
import TapeMachine.Proofs.Command.Agreement
import TapeMachine.Proofs.Program.Matching
import TapeMachine.Proofs.Command.RoundTrip
import TapeMachine.Proofs.Command.Channel
import TapeMachine.Proofs.Machine.View
import TapeMachine.Proofs.Program.Insertion
import TapeMachine.Proofs.Run.Insertion
import TapeMachine.Proofs.Settings.Declared
import TapeMachine.Proofs.Tape.Endless
import TapeMachine.Proofs.Settings.Slices
import TapeMachine.Proofs.Settings.Unread
import TapeMachine.Proofs.Settings.Formatting
import TapeMachine.Proofs.Command.Precedence
import TapeMachine.Proofs.Command.Variables
import TapeMachine.Proofs.Diagnostic.Window
import TapeMachine.Proofs.Command.Caret
import TapeMachine.Proofs.Run.Notes
import TapeMachine.Proofs.Run.Budget
import TapeMachine.Proofs.Diagnostic.Overflow
import TapeMachine.Proofs.Bracket.Ending
