import Sprig.CommandLine.Flag
import Sprig.CommandLine.Path
import Sprig.CommandLine.Report
import Sprig.CommandLine.Settings
import Sprig.CommandLine.Word
import Sprig.Environment.History
import Sprig.Environment.Table
import Sprig.Json.Basic
import Sprig.Json.Printer
import Sprig.Json.Reader
import Sprig.Main
import Sprig.Numeric.Binary
import Sprig.Numeric.Layout
import Sprig.Numeric.Power
import Sprig.Numeric.Reading
import Sprig.Numeric.Rounding
import Sprig.Numeric.Shortest
import Sprig.Parse.Basic
import Sprig.Parse.Cursor
import Sprig.Parse.Grammar
import Sprig.Parse.Program
import Sprig.Parse.Sequence
import Sprig.Proofs.CommandLine.Containment
import Sprig.Proofs.CommandLine.Emission
import Sprig.Proofs.CommandLine.Flags
import Sprig.Proofs.CommandLine.Loading
import Sprig.Proofs.CommandLine.Path
import Sprig.Proofs.Environment.Isolation
import Sprig.Proofs.Environment.Related
import Sprig.Proofs.Grammar.Begin
import Sprig.Proofs.Grammar.Expression
import Sprig.Proofs.Grammar.ExpressionComplete
import Sprig.Proofs.Grammar.ExpressionRefusal
import Sprig.Proofs.Grammar.ExpressionSound
import Sprig.Proofs.Grammar.Operator
import Sprig.Proofs.Grammar.Recast
import Sprig.Proofs.Grammar.Refusal
import Sprig.Proofs.Grammar.Rendering
import Sprig.Proofs.Grammar.Shape
import Sprig.Proofs.Grammar.Statement
import Sprig.Proofs.Grammar.StatementComplete
import Sprig.Proofs.Grammar.StatementRefusal
import Sprig.Proofs.Grammar.StatementSound
import Sprig.Proofs.Grammar.Words
import Sprig.Proofs.Json.Number
import Sprig.Proofs.Json.RoundTrip
import Sprig.Proofs.Json.Text
import Sprig.Proofs.Numeric.Displayed
import Sprig.Proofs.Numeric.Nearest
import Sprig.Proofs.Numeric.Numeral
import Sprig.Proofs.Numeric.ReadBack
import Sprig.Proofs.Numeric.Whole
import Sprig.Proofs.Numeric.Writing
import Sprig.Proofs.Parse.Complaint
import Sprig.Proofs.Parse.Concat
import Sprig.Proofs.Parse.Cursor
import Sprig.Proofs.Parse.Expression
import Sprig.Proofs.Parse.Invariant
import Sprig.Proofs.Parse.Layout
import Sprig.Proofs.Parse.Lookahead
import Sprig.Proofs.Parse.Parameters
import Sprig.Proofs.Parse.Progress
import Sprig.Proofs.Parse.Session
import Sprig.Proofs.Parse.Speculation
import Sprig.Proofs.Parse.Statement
import Sprig.Proofs.Parse.Step
import Sprig.Proofs.Parse.Track
import Sprig.Proofs.Parse.TrackExpression
import Sprig.Proofs.Parse.TrackStatement
import Sprig.Proofs.Parse.Unbounded
import Sprig.Proofs.Run.Brackets
import Sprig.Proofs.Run.CallTrace
import Sprig.Proofs.Run.Carry
import Sprig.Proofs.Run.Complaint
import Sprig.Proofs.Run.Concat
import Sprig.Proofs.Run.Confine
import Sprig.Proofs.Run.Contract
import Sprig.Proofs.Run.Coupling
import Sprig.Proofs.Run.Depth
import Sprig.Proofs.Run.Draft
import Sprig.Proofs.Run.Easing
import Sprig.Proofs.Run.EffectFree
import Sprig.Proofs.Run.Exit
import Sprig.Proofs.Run.Extension
import Sprig.Proofs.Run.Frame
import Sprig.Proofs.Run.Grounded
import Sprig.Proofs.Run.Hearing
import Sprig.Proofs.Run.Height
import Sprig.Proofs.Run.Indexing
import Sprig.Proofs.Run.Limits
import Sprig.Proofs.Run.Lockstep
import Sprig.Proofs.Run.Mention
import Sprig.Proofs.Run.Nesting
import Sprig.Proofs.Run.Noting
import Sprig.Proofs.Run.Observation
import Sprig.Proofs.Run.Offset
import Sprig.Proofs.Run.OpenCalls
import Sprig.Proofs.Run.Operator
import Sprig.Proofs.Run.Origin
import Sprig.Proofs.Run.Outward
import Sprig.Proofs.Run.Recast
import Sprig.Proofs.Run.Renaming
import Sprig.Proofs.Run.Return
import Sprig.Proofs.Run.Safety
import Sprig.Proofs.Run.Scope
import Sprig.Proofs.Run.Session
import Sprig.Proofs.Run.SharedArrays
import Sprig.Proofs.Run.Showing
import Sprig.Proofs.Run.Steady
import Sprig.Proofs.Run.Termination
import Sprig.Proofs.Run.Visit
import Sprig.Proofs.Run.Widening
import Sprig.Proofs.Run.Work
import Sprig.Proofs.Text.Line
import Sprig.Proofs.Text.Utf8
import Sprig.Proofs.Token.Concat
import Sprig.Proofs.Token.Displayed
import Sprig.Proofs.Token.Lexical
import Sprig.Proofs.Token.Plain
import Sprig.Proofs.Token.Quotes
import Sprig.Proofs.Token.Separator
import Sprig.Proofs.Token.Terminal
import Sprig.Proofs.Token.Tiling
import Sprig.Proofs.Tree.Declared
import Sprig.Proofs.Tree.Height
import Sprig.Proofs.Tree.Inside
import Sprig.Proofs.Tree.Named
import Sprig.Proofs.Tree.Oversized
import Sprig.Proofs.Tree.Recast
import Sprig.Proofs.Tree.Renaming
import Sprig.Proofs.Tree.RoundTrip
import Sprig.Proofs.Tree.Shape
import Sprig.Proofs.Tree.Words
import Sprig.Proofs.Value.Display
import Sprig.Run.Basic
import Sprig.Run.Block
import Sprig.Run.Element
import Sprig.Run.Event
import Sprig.Run.Fault
import Sprig.Run.Interpreter
import Sprig.Run.Operator
import Sprig.Run.Program
import Sprig.Text.Blank
import Sprig.Text.DecimalDigit
import Sprig.Text.Position
import Sprig.Text.Printable
import Sprig.Text.Quoted
import Sprig.Text.Utf8
import Sprig.Token.Basic
import Sprig.Token.Scan
import Sprig.Tree.Basic
import Sprig.Tree.Document
import Sprig.Value.Basic
import Sprig.Value.Display
