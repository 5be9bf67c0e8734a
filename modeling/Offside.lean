import Offside.Text.Wildcard
import Offside.Text.ShellWords
import Offside.Regex.Reader
import Offside.Operator.Reader
import Offside.Token.Lexer
import Offside.Layout
import Offside.Tree.Passes
import Offside.Tree.Outline
import Offside.Scope
import Offside.Text.Template
import Offside.Shell
import Offside.Tree.Lowering
import Offside.Eval.Basic
import Offside.Typing.Basic
import Offside.Program
import Offside.Workbench
import Offside.Grammar.Lexicon
import Offside.Main
import Offside.Proofs.Eval.Congruence
import Offside.Proofs.Eval.Evaluable
import Offside.Proofs.Eval.Isolation
import Offside.Proofs.Precedence.Reading
import Offside.Proofs.Layout.Emission
import Offside.Proofs.Token.Spelling
import Offside.Proofs.Core.Basic
import Offside.Proofs.Tree.Passes
import Offside.Proofs.Core.Reading
import Offside.Proofs.Journal.Writable
import Offside.Proofs.Program.Steps
import Offside.Proofs.StraightLine.Basic
import Offside.Proofs.StraightLine.Running
import Offside.Proofs.Eval.DynamicScope
import Offside.Proofs.Layout.RoundTrip
import Offside.Proofs.Token.Lossless
import Offside.Proofs.Token.Printing
import Offside.Proofs.Term.Everywhere
import Offside.Proofs.Layout.Building
import Offside.Proofs.Layout.Conservation
import Offside.Proofs.Tree.Shape
import Offside.Proofs.Tree.Written
import Offside.Proofs.Regex.Extent
import Offside.Proofs.Grammar.Locality
import Offside.Proofs.Typing.Safety
import Offside.Proofs.Typing.Inference
import Offside.Proofs.Operator.Declarations
import Offside.Proofs.Program.Outcome
import Offside.Proofs.Typing.CheckedMain
import Offside.Proofs.Comment.Erasure
import Offside.Proofs.Comment.Growth
import Offside.Proofs.Comment.Layout
import Offside.Proofs.Comment.Passes
import Offside.Proofs.Comment.Outcome
import Offside.Proofs.Eval.Depth
import Offside.Proofs.Eval.Runnable
import Offside.Proofs.Eval.Select
import Offside.Proofs.Eval.Calls
import Offside.Proofs.Typing.Functions
import Offside.Proofs.Program.Evaluable
import Offside.Proofs.StraightLine.Arrays
import Offside.Proofs.Layout.Rescaling
import Offside.Proofs.Layout.LineStarts
import Offside.Proofs.Precedence.Completion
import Offside.Proofs.Program.Recursion
import Offside.Proofs.Layout.Bodies
import Offside.Proofs.Token.Seams
import Offside.Proofs.Tree.Juxtaposition
import Offside.Proofs.Tree.Parameters
import Offside.Proofs.Token.Identifiers
import Offside.Proofs.Token.Literals
import Offside.Proofs.Regex.Names
import Offside.Proofs.Eval.Matching
import Offside.Proofs.Scope.History
import Offside.Proofs.Text.Templates
import Offside.Proofs.Eval.Interpolation
import Offside.Proofs.Eval.Conversion
import Offside.Proofs.Tree.Settled
import Offside.Proofs.Program.Conversion
import Offside.Proofs.Layout.InPlace
import Offside.Proofs.Operator.Termination
import Offside.Proofs.Regex.Width
import Offside.Proofs.Regex.Runs
import Offside.Proofs.Grammar.Progress
import Offside.Proofs.Grammar.Lexemes
import Offside.Proofs.Grammar.Lexing
