import DualStack.Chain
import DualStack.Console
import DualStack.Decimal.Numeral
import DualStack.Decimal.Shortest
import DualStack.Dictionary
import DualStack.Fault
import DualStack.Machine
import DualStack.Machine.Eval
import DualStack.Machine.Fuel
import DualStack.Machine.Primitive
import DualStack.Main
import DualStack.Node
import DualStack.Node.Parse
import DualStack.Proofs.Answers
import DualStack.Proofs.Balance
import DualStack.Proofs.Bounds
import DualStack.Proofs.CountedLoops
import DualStack.Proofs.DecimalText
import DualStack.Proofs.Delivery
import DualStack.Proofs.Doubles
import DualStack.Proofs.Effects
import DualStack.Proofs.Equality
import DualStack.Proofs.FewestDigits
import DualStack.Proofs.Frame
import DualStack.Proofs.Grammar
import DualStack.Proofs.Increments
import DualStack.Proofs.Indexing
import DualStack.Proofs.Lifecycle
import DualStack.Proofs.LimitedSink
import DualStack.Proofs.Lines
import DualStack.Proofs.Literals
import DualStack.Proofs.Lookahead
import DualStack.Proofs.LoopLimits
import DualStack.Proofs.Loops
import DualStack.Proofs.Moves
import DualStack.Proofs.NumberLiterals
import DualStack.Proofs.Numerals
import DualStack.Proofs.Passage
import DualStack.Proofs.Permanence
import DualStack.Proofs.Printing
import DualStack.Proofs.Quoting
import DualStack.Proofs.Reception
import DualStack.Proofs.Remainder
import DualStack.Proofs.Render
import DualStack.Proofs.Room
import DualStack.Proofs.Rounding
import DualStack.Proofs.Scanning
import DualStack.Proofs.Script
import DualStack.Proofs.Sequences
import DualStack.Proofs.Shortest
import DualStack.Proofs.Spans
import DualStack.Proofs.StackComments
import DualStack.Proofs.Steps
import DualStack.Proofs.Termination
import DualStack.Proofs.Trimming
import DualStack.Proofs.Truncation
import DualStack.Proofs.Uses
import DualStack.Proofs.ViablePrefix
import DualStack.Proofs.WholeNumbers
import DualStack.Session
import DualStack.Sink
import DualStack.Stack
import DualStack.Text.Blank
import DualStack.Text.Bytes
import DualStack.Text.Printable
import DualStack.Text.Quoted
import DualStack.Token
import DualStack.Token.Scan
import DualStack.Token.Stream
import DualStack.Value
import DualStack.Value.Arithmetic
import DualStack.Value.Collection
import DualStack.World
import DualStack.World.Address
import DualStack.World.Channel
import DualStack.World.Directory
import DualStack.World.Network
