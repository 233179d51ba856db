import LineBasic.Builtin
import LineBasic.Code
import LineBasic.Event
import LineBasic.Expr.Basic
import LineBasic.Expr.Operator
import LineBasic.Expr.Parser
import LineBasic.Fault
import LineBasic.Field
import LineBasic.Grid
import LineBasic.Host.Banner
import LineBasic.Host.Batch
import LineBasic.Host.CommandLine
import LineBasic.Host.Config
import LineBasic.Host.Console
import LineBasic.Host.Document.Cursor
import LineBasic.Host.Document.Encoding
import LineBasic.Host.Document.Moment
import LineBasic.Host.Document.Node
import LineBasic.Host.Document.Record
import LineBasic.Host.Document.Scalar
import LineBasic.Host.Document.Tag
import LineBasic.Host.Document.Text
import LineBasic.Host.Document.Token
import LineBasic.Host.FileTree
import LineBasic.Host.Flags
import LineBasic.Host.Help
import LineBasic.Host.History
import LineBasic.Host.LineReader
import LineBasic.Host.LogLevel
import LineBasic.Host.Path
import LineBasic.Host.Problem
import LineBasic.Host.Session
import LineBasic.Host.Statistics
import LineBasic.Line
import LineBasic.Machine.Basic
import LineBasic.Machine.Command
import LineBasic.Machine.Eval
import LineBasic.Machine.Run
import LineBasic.Machine.Statement
import LineBasic.Machine.Step
import LineBasic.Machine.Target
import LineBasic.Main
import LineBasic.Number.Binary
import LineBasic.Number.Circular
import LineBasic.Number.Exponential
import LineBasic.Number.Integer
import LineBasic.Number.Integral
import LineBasic.Number.Numeral
import LineBasic.Number.Shortest
import LineBasic.Program.Basic
import LineBasic.Program.Cursor
import LineBasic.Program.Flow
import LineBasic.Random
import LineBasic.State
import LineBasic.Text.Base64
import LineBasic.Text.Bytes
import LineBasic.Text.Character
import LineBasic.Text.Graphic
import LineBasic.Text.Quoted
import LineBasic.Text.Space
import LineBasic.Text.UpperCase
import LineBasic.Token.Basic
import LineBasic.Token.Lexer
import LineBasic.Value
import LineBasic.Proofs.Expr.Reading
import LineBasic.Proofs.Expr.Meaning
import LineBasic.Proofs.Expr.Refinement
import LineBasic.Proofs.Number.Binary64
import LineBasic.Proofs.Number.Numeral
import LineBasic.Proofs.Number.ReadBack
import LineBasic.Proofs.Field
import LineBasic.Proofs.Token.Word
import LineBasic.Proofs.Token.Scan
import LineBasic.Proofs.Token.Name
import LineBasic.Proofs.Token.ReadBack
import LineBasic.Proofs.Token.Listing
import LineBasic.Proofs.Field.Extent
import LineBasic.Proofs.Field.Join
import LineBasic.Proofs.Grid.Count
import LineBasic.Proofs.Grid.RowMajor
import LineBasic.Proofs.Grid.Store
import LineBasic.Proofs.Token.Layout
import LineBasic.Proofs.Token.Colon
import LineBasic.Proofs.Token.Span
import LineBasic.Proofs.Token.Respelling
import LineBasic.Proofs.Machine.Reload
import LineBasic.Proofs.Expr.Width
import LineBasic.Proofs.Expr.Fault
import LineBasic.Proofs.Machine.EvalRules
import LineBasic.Proofs.Machine.Walk
import LineBasic.Proofs.Program.Sound
import LineBasic.Proofs.Machine.Sound
import LineBasic.Proofs.Machine.StatementRules
import LineBasic.Proofs.Machine.Movement
import LineBasic.Proofs.Machine.Statement
import LineBasic.Proofs.Machine.Reachable
import LineBasic.Proofs.Machine.Consistency
import LineBasic.Proofs.Expr.Whole
import LineBasic.Proofs.Program.Transfer
import LineBasic.Proofs.Machine.TokensPassed
import LineBasic.Proofs.Machine.MidStatement
import LineBasic.Proofs.Machine.Leave
import LineBasic.Proofs.Machine.Branch
import LineBasic.Proofs.Machine.Advance
import LineBasic.Proofs.Machine.Reply
import LineBasic.Proofs.Machine.Places
import LineBasic.Proofs.Machine.BranchInput
import LineBasic.Proofs.Machine.OneStatement
import LineBasic.Proofs.Machine.Retrace
import LineBasic.Proofs.Machine.OutputActions
import LineBasic.Proofs.Machine.Reenter
import LineBasic.Proofs.Machine.Remember
import LineBasic.Proofs.Program.Shown
import LineBasic.Proofs.Machine.RememberOperation
import LineBasic.Proofs.Machine.Breakpoint
import LineBasic.Proofs.Machine.Pending
import LineBasic.Proofs.Program.OnStoredLines
import LineBasic.Proofs.Machine.Lockstep
import LineBasic.Proofs.Machine.Alike
import LineBasic.Proofs.Machine.Rerun
import LineBasic.Proofs.Machine.PrintLine
import LineBasic.Proofs.Machine.Continue
import LineBasic.Proofs.Expr.Typed
import LineBasic.Proofs.Program.Typed
import LineBasic.Proofs.Machine.Typed
import LineBasic.Proofs.Machine.Typing
import LineBasic.Proofs.Machine.StepStates
import LineBasic.Proofs.Program.Data
import LineBasic.Proofs.Machine.Edit
import LineBasic.Proofs.Machine.Failure
import LineBasic.Proofs.Machine.StepInvariant
import LineBasic.Proofs.Machine.Balance
import LineBasic.Proofs.Host.Load
import LineBasic.Proofs.Machine.Unbounded
import LineBasic.Proofs.Machine.Ends
import LineBasic.Proofs.Machine.Termination
import LineBasic.Proofs.Machine.Descent
import LineBasic.Proofs.Machine.OutputOperations
import LineBasic.Proofs.Host.Course
import LineBasic.Proofs.Host.Execute
import LineBasic.Proofs.Host.Flush
import LineBasic.Proofs.Host.StepCap
import LineBasic.Proofs.Machine.Assign
import LineBasic.Proofs.Machine.Assigned
import LineBasic.Proofs.Number.Value
import LineBasic.Proofs.Number.Readers
import LineBasic.Proofs.Expr.Comparison
import LineBasic.Proofs.Expr.Append
import LineBasic.Proofs.Machine.Written
import LineBasic.Proofs.Machine.Plain
import LineBasic.Proofs.Machine.LoopHead
import LineBasic.Proofs.Machine.Rounds
import LineBasic.Proofs.Machine.RewordExpr
import LineBasic.Proofs.Machine.RewordStatement
import LineBasic.Proofs.Machine.RewordStep
import LineBasic.Proofs.Machine.RewordItem
import LineBasic.Proofs.Machine.ItemList
import LineBasic.Proofs.Token.Normal
import LineBasic.Proofs.Expr.Slice
import LineBasic.Proofs.Machine.LineNumber
import LineBasic.Proofs.Host.RunLine
