import LineBasic.Console.Basic
import LineBasic.Console.Command
import LineBasic.Console.Script
import LineBasic.Debugger
import LineBasic.Error
import LineBasic.Expression.Evaluator
import LineBasic.Expression.Parser
import LineBasic.Machine.Basic
import LineBasic.Machine.Entry
import LineBasic.Machine.Step
import LineBasic.Main
import LineBasic.Memory
import LineBasic.Program.Basic
import LineBasic.Program.Source
import LineBasic.Random.Draw
import LineBasic.Random.Stream
import LineBasic.Stack
import LineBasic.Statement.Parser
import LineBasic.Text.Blank
import LineBasic.Text.Decimal
import LineBasic.Token.Basic
import LineBasic.Token.Lexer
import LineBasic.Viewer.Basic
import LineBasic.Viewer.External
import LineBasic.Viewer.Recorder
import LineBasic.Proofs.Outcome
import LineBasic.Proofs.Expression.Grammar
import LineBasic.Proofs.Expression.Tree
import LineBasic.Proofs.Expression.Meaning
import LineBasic.Proofs.Expression.Derivation
import LineBasic.Proofs.Lexeme
import LineBasic.Proofs.Statement.Grammar
import LineBasic.Proofs.Statement.Remark
import LineBasic.Proofs.Statement.RoundTrip
import LineBasic.Proofs.Statement.Refusal
import LineBasic.Proofs.Statement.LineEnd
import LineBasic.Proofs.Statement.Sound
import LineBasic.Proofs.Debugger.Request
import LineBasic.Proofs.Debugger.Transparency
import LineBasic.Proofs.Program.Store
import LineBasic.Proofs.Machine.Frame
import LineBasic.Proofs.Machine.Calls
import LineBasic.Proofs.Debugger.Skip
import LineBasic.Proofs.Machine.Reachable
import LineBasic.Proofs.Viewer.Replica
import LineBasic.Proofs.Debugger.Orderly
import LineBasic.Proofs.Debugger.Pause
import LineBasic.Proofs.Machine.Input
import LineBasic.Proofs.Machine.Return
import LineBasic.Proofs.Machine.Sound
import LineBasic.Proofs.Machine.Fault
import LineBasic.Proofs.Machine.Failure
import LineBasic.Proofs.Machine.Attribution
import LineBasic.Proofs.Machine.Answers
import LineBasic.Proofs.Machine.Cursor
import LineBasic.Proofs.Machine.WellFormed
import LineBasic.Proofs.Statement.Sentence
import LineBasic.Proofs.Statement.Printed
import LineBasic.Proofs.Program.Table
import LineBasic.Proofs.Program.Listing
import LineBasic.Proofs.Program.Loading
import LineBasic.Proofs.Program.Linewise
import LineBasic.Proofs.Program.Rejection
import LineBasic.Proofs.Machine.Walker
import LineBasic.Proofs.Machine.Refinement
import LineBasic.Proofs.Turn
import LineBasic.Proofs.Debugger.Turns
import LineBasic.Proofs.Debugger.Budget
import LineBasic.Proofs.Debugger.Unwatched
import LineBasic.Proofs.Debugger.View
import LineBasic.Proofs.Debugger.Notice
import LineBasic.Proofs.Debugger.Outage
import LineBasic.Proofs.Viewer.Stream
import LineBasic.Proofs.Debugger.Wire
import LineBasic.Proofs.Machine.Strides
import LineBasic.Proofs.Machine.Unwinding
import LineBasic.Proofs.Debugger.Pursuit
import LineBasic.Proofs.Debugger.Arrival
import LineBasic.Proofs.Debugger.Stepping
import LineBasic.Proofs.Quotation
import LineBasic.Proofs.Expression.Exact
import LineBasic.Proofs.Statement.Verbatim
import LineBasic.Proofs.Debugger.Underway
import LineBasic.Proofs.Program.LineNumber
import LineBasic.Proofs.Debugger.Queue
import LineBasic.Proofs.Console.Dialogue
