import RegCode.Build
import RegCode.Chunk
import RegCode.Chunk.Listing
import RegCode.Command
import RegCode.Command.Compile
import RegCode.Command.Console
import RegCode.Command.Flag
import RegCode.Command.History
import RegCode.Command.Invocation
import RegCode.Command.Repl
import RegCode.Compile
import RegCode.Compile.Fault
import RegCode.Compile.Fold
import RegCode.Compile.Generator
import RegCode.Compile.Notice
import RegCode.Const
import RegCode.Diagnostic
import RegCode.Disk
import RegCode.Image
import RegCode.Image.Codec
import RegCode.Instruction
import RegCode.Log
import RegCode.Main
import RegCode.Number.Binary64
import RegCode.Number.Numeral
import RegCode.Number.Shortest
import RegCode.Parse
import RegCode.Parse.Expression
import RegCode.Parse.Fault
import RegCode.Parse.Statement
import RegCode.Parse.Stream
import RegCode.Program
import RegCode.Program.Render
import RegCode.Proofs.Accounting
import RegCode.Proofs.Alike
import RegCode.Proofs.Attachment
import RegCode.Proofs.BitFields
import RegCode.Proofs.Caret
import RegCode.Proofs.CommandLine
import RegCode.Proofs.Compilable
import RegCode.Proofs.Composition
import RegCode.Proofs.Concatenation
import RegCode.Proofs.ConstantText
import RegCode.Proofs.Course
import RegCode.Proofs.Demand
import RegCode.Proofs.Denotation
import RegCode.Proofs.Direct
import RegCode.Proofs.Emission
import RegCode.Proofs.Entry
import RegCode.Proofs.ErrorOrder
import RegCode.Proofs.ExprComplete
import RegCode.Proofs.Extent
import RegCode.Proofs.Failure
import RegCode.Proofs.Fields
import RegCode.Proofs.Footing
import RegCode.Proofs.Fragment
import RegCode.Proofs.Generation
import RegCode.Proofs.Grammar
import RegCode.Proofs.Initializer
import RegCode.Proofs.Layout
import RegCode.Proofs.Legible
import RegCode.Proofs.Lexical
import RegCode.Proofs.LineComment
import RegCode.Proofs.LineTable
import RegCode.Proofs.Listing
import RegCode.Proofs.Machine
import RegCode.Proofs.Meaning
import RegCode.Proofs.Nesting
import RegCode.Proofs.NumberText
import RegCode.Proofs.ParseComplete
import RegCode.Proofs.ParseSound
import RegCode.Proofs.Placement
import RegCode.Proofs.Positions
import RegCode.Proofs.Quotation
import RegCode.Proofs.ReadBack
import RegCode.Proofs.Recovery
import RegCode.Proofs.Region
import RegCode.Proofs.RegisterCount
import RegCode.Proofs.Renaming
import RegCode.Proofs.Rendering
import RegCode.Proofs.Replacement
import RegCode.Proofs.Retention
import RegCode.Proofs.RoundTrip
import RegCode.Proofs.Rounding
import RegCode.Proofs.Scalar
import RegCode.Proofs.Scope
import RegCode.Proofs.Shortest
import RegCode.Proofs.Simulation
import RegCode.Proofs.Spelling
import RegCode.Proofs.StackOrder
import RegCode.Proofs.Truncation
import RegCode.Proofs.Unambiguous
import RegCode.Proofs.Unfinished
import RegCode.Proofs.Untargeted
import RegCode.Proofs.Viable
import RegCode.Proofs.Vocabulary
import RegCode.Proofs.WellFormed
import RegCode.Register
import RegCode.Style
import RegCode.Text.Basic
import RegCode.Text.Blank
import RegCode.Text.Canonical
import RegCode.Text.Canonical.Table
import RegCode.Text.Printable
import RegCode.Text.Quoted
import RegCode.Text.Sorted
import RegCode.Text.Utf8
import RegCode.Token
import RegCode.Token.Lexeme
import RegCode.Token.Scan
