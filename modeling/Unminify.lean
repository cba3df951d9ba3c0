import Unminify.Command.Arguments
import Unminify.Command.Load
import Unminify.Command.Run
import Unminify.Document
import Unminify.Files.Path
import Unminify.Files.System
import Unminify.Grammar.Character
import Unminify.Grammar.Expression
import Unminify.Grammar.Function
import Unminify.Grammar.Markup
import Unminify.Grammar.Nonterminal
import Unminify.Grammar.Parser
import Unminify.Grammar.Pattern
import Unminify.Grammar.RawText
import Unminify.Grammar.Script
import Unminify.Grammar.Semicolon
import Unminify.Grammar.Statement
import Unminify.Grammar.Token
import Unminify.Language
import Unminify.Main
import Unminify.Normalizer
import Unminify.Number.Binary64
import Unminify.Number.Numeral
import Unminify.Number.Shortest
import Unminify.Pass.Run
import Unminify.Pass.Splice
import Unminify.Pass.Stats
import Unminify.Pattern.Basic
import Unminify.Pattern.Compile
import Unminify.Pattern.Environment
import Unminify.Pattern.Fill
import Unminify.Pattern.Hole
import Unminify.Pattern.Match
import Unminify.Printer.Print
import Unminify.Printer.Strength
import Unminify.Proofs.Pattern.Filling
import Unminify.Proofs.Pattern.Fitting
import Unminify.Proofs.Scope.Alpha
import Unminify.Proofs.Scope.Growth
import Unminify.Proofs.Scope.Lookup
import Unminify.Proofs.Scope.Outline
import Unminify.Proofs.Scope.Relabel
import Unminify.Proofs.Scope.Renamed
import Unminify.Proofs.Scope.Run
import Unminify.Proofs.Syntax.Parts
import Unminify.Proofs.Syntax.Sameness
import Unminify.Rule.Basic
import Unminify.Rule.Builtin
import Unminify.Rule.Table
import Unminify.Scope.Analysis
import Unminify.Scope.Declared
import Unminify.Scope.Graph
import Unminify.Scope.Rename
import Unminify.Settings
import Unminify.Settings.Decode
import Unminify.Syntax.Dump
import Unminify.Syntax.Kind
import Unminify.Syntax.Operator
import Unminify.Syntax.Same
import Unminify.Syntax.Trace
import Unminify.Syntax.Tree
import Unminify.Syntax.Walk
import Unminify.Text.Alphanumeric
import Unminify.Text.Blank
import Unminify.Text.Quoted
import Unminify.Toml.Reader
import Unminify.Toml.Value
import Unminify.Proofs.Scope.Resolution
import Unminify.Proofs.Rule.Compiled
import Unminify.Proofs.Syntax.Reached
import Unminify.Proofs.Rule.Silhouette
import Unminify.Proofs.Pass.Step
import Unminify.Proofs.Pass.Replacement
import Unminify.Proofs.Pass.Walk
import Unminify.Proofs.Pass.Settled
import Unminify.Proofs.Pass.NormalForm
import Unminify.Proofs.Pass.FixedPoint
import Unminify.Proofs.Execution.Behaviour
import Unminify.Proofs.Execution.Preservation
import Unminify.Proofs.Pass.Termination
import Unminify.Proofs.Pass.Depth
import Unminify.Proofs.Pass.Grading
import Unminify.Proofs.Pass.Completeness
import Unminify.Proofs.Scope.Relocated
import Unminify.Proofs.Pattern.Relocated
import Unminify.Proofs.Pass.Positions
import Unminify.Proofs.Pass.Watch
import Unminify.Proofs.Pass.Sequences
import Unminify.Proofs.Pass.Report
import Unminify.Proofs.Pattern.Substitution
import Unminify.Proofs.Pass.Conserved
import Unminify.Proofs.Grammar.Scanning
import Unminify.Proofs.Grammar.Contents
import Unminify.Proofs.Grammar.Reads
import Unminify.Proofs.Grammar.Expressions
import Unminify.Proofs.Grammar.Statements
import Unminify.Proofs.Grammar.Sources
import Unminify.Proofs.Grammar.Lexing
import Unminify.Proofs.Grammar.Parses
import Unminify.Proofs.Printer.Skeleton
import Unminify.Proofs.Grammar.NamePhrases
import Unminify.Proofs.Grammar.BlockBraces
import Unminify.Proofs.Grammar.SkeletonParses
import Unminify.Proofs.Printer.SkeletonText
import Unminify.Proofs.Printer.ElseBinding
import Unminify.Proofs.Pattern.Compiling
import Unminify.Proofs.Scope.Covering
import Unminify.Proofs.Scope.FreeName
import Unminify.Proofs.Scope.Applied
import Unminify.Proofs.Pass.Windows
import Unminify.Proofs.Scope.Accounting
import Unminify.Proofs.Text.StringValue
import Unminify.Proofs.Grammar.Literals
import Unminify.Proofs.Rule.Layers
import Unminify.Proofs.Number.Value
import Unminify.Proofs.Number.Rounding
import Unminify.Proofs.Number.Decimal
import Unminify.Proofs.Number.Shortest
import Unminify.Proofs.Number.DecimalLiteral
import Unminify.Proofs.Number.ReadBack
import Unminify.Proofs.Number.Radix
import Unminify.Proofs.Pass.Splicing
import Unminify.Proofs.Pass.Strictness
import Unminify.Proofs.Pass.Success
import Unminify.Proofs.Grammar.Elements
import Unminify.Proofs.Grammar.Arrays
import Unminify.Proofs.Files.Path
import Unminify.Proofs.Files.System
import Unminify.Proofs.Files.WellFormed
import Unminify.Proofs.Command.Directory
import Unminify.Proofs.Command.Mirror
