import Reckoner.Number.Binary
import Reckoner.Number.Decimal
import Reckoner.Number.Shortest
import Reckoner.Token.Basic
import Reckoner.Token.Literal
import Reckoner.Token.Scan
import Reckoner.Token.Sign
import Reckoner.Operator
import Reckoner.Fault
import Reckoner.Builtin
import Reckoner.Environment
import Reckoner.Evaluation.Run
import Reckoner.Evaluation.Climb
import Reckoner.Text
import Reckoner.Session
import Reckoner.CommandLine
import Reckoner.Main
import Reckoner.Proofs.Derivation
import Reckoner.Proofs.Phrase
import Reckoner.Proofs.Precedence
import Reckoner.Proofs.Reading
import Reckoner.Proofs.Completion
import Reckoner.Proofs.Levels
import Reckoner.Proofs.Negation
import Reckoner.Proofs.Spelling
import Reckoner.Proofs.Spans
import Reckoner.Proofs.Standing
import Reckoner.Proofs.Stores
import Reckoner.Proofs.Blame
import Reckoner.Proofs.Variables
import Reckoner.Proofs.Assignment
import Reckoner.Proofs.ReadBack
import Reckoner.Proofs.Renaming
import Reckoner.Proofs.Seams
import Reckoner.Proofs.Printing
import Reckoner.Proofs.Places
import Reckoner.Proofs.Trimming
import Reckoner.Proofs.Barriers
import Reckoner.Proofs.Lines
import Reckoner.Proofs.Sessions
import Reckoner.Proofs.Margins
import Reckoner.Proofs.LastValues
import Reckoner.Proofs.Joints
import Reckoner.Proofs.Nesting
import Reckoner.Proofs.Naming
import Reckoner.Proofs.Arguments
import Reckoner.Proofs.Cuts
import Reckoner.Proofs.Spacing
import Reckoner.Proofs.Layout
import Reckoner.Proofs.Settled
import Reckoner.Proofs.Steps
import Reckoner.Proofs.Rounded
import Reckoner.Proofs.HalfUp
import Reckoner.Proofs.Machine
import Reckoner.Proofs.Progress
