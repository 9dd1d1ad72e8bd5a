import TagExpr.Compile
import TagExpr.Cursor
import TagExpr.Double
import TagExpr.Double.Arithmetic
import TagExpr.Double.Nearest
import TagExpr.Double.Shortest
import TagExpr.Double.Text
import TagExpr.Eval
import TagExpr.Eval.Fault
import TagExpr.Eval.Step
import TagExpr.Expression
import TagExpr.Extensions
import TagExpr.Host
import TagExpr.Identifier
import TagExpr.IntRange
import TagExpr.Literal.Escape
import TagExpr.Literal.Interpolation
import TagExpr.Machine
import TagExpr.Node
import TagExpr.Node.Equality
import TagExpr.Node.Patterns
import TagExpr.Node.Text
import TagExpr.OperandType
import TagExpr.Operator
import TagExpr.Parse.Apply
import TagExpr.Parse.Bench
import TagExpr.Parse.Fault
import TagExpr.Parse.Parser
import TagExpr.Proofs.Climbing.Branches
import TagExpr.Proofs.Climbing.Chain
import TagExpr.Proofs.Climbing.Lexemes
import TagExpr.Proofs.Climbing.Lexing
import TagExpr.Proofs.Climbing.Meaning
import TagExpr.Proofs.Climbing.Nesting
import TagExpr.Proofs.Climbing.Reference
import TagExpr.Proofs.Climbing.Simulation
import TagExpr.Proofs.Climbing.Ternary
import TagExpr.Proofs.Compile
import TagExpr.Proofs.Demand.Keeping
import TagExpr.Proofs.Demand.Laziness
import TagExpr.Proofs.Demand.Lines
import TagExpr.Proofs.Demand.Reads
import TagExpr.Proofs.Demand.Thrift
import TagExpr.Proofs.Double.Order
import TagExpr.Proofs.Draining.Drained
import TagExpr.Proofs.Draining.Lapse
import TagExpr.Proofs.Draining.Lookups
import TagExpr.Proofs.Draining.Retelling
import TagExpr.Proofs.Draining.Scopes
import TagExpr.Proofs.Draining.Steady
import TagExpr.Proofs.Draining.Ways
import TagExpr.Proofs.Ends
import TagExpr.Proofs.Eval.Agree
import TagExpr.Proofs.Eval.Finishes
import TagExpr.Proofs.Eval.Missing
import TagExpr.Proofs.Eval.Restored
import TagExpr.Proofs.Eval.Spares
import TagExpr.Proofs.Eval.Steps
import TagExpr.Proofs.Eval.Upkeep
import TagExpr.Proofs.Identifier.History
import TagExpr.Proofs.Identifier.Trust
import TagExpr.Proofs.Iteration.Chains
import TagExpr.Proofs.Iteration.Confined
import TagExpr.Proofs.Iteration.Holdings
import TagExpr.Proofs.Iteration.Metadata
import TagExpr.Proofs.Iteration.Minding
import TagExpr.Proofs.Iteration.Reach
import TagExpr.Proofs.Iteration.Rounds
import TagExpr.Proofs.Literal.Matching
import TagExpr.Proofs.Literal.Nesting
import TagExpr.Proofs.Literal.Pairing
import TagExpr.Proofs.Literal.Segments
import TagExpr.Proofs.Literal.Shorthand
import TagExpr.Proofs.Literal.Splitting
import TagExpr.Proofs.Parse.Advance
import TagExpr.Proofs.Parse.Altered
import TagExpr.Proofs.Parse.Balance
import TagExpr.Proofs.Parse.Bindings
import TagExpr.Proofs.Parse.Braces
import TagExpr.Proofs.Parse.Closing
import TagExpr.Proofs.Parse.Commas
import TagExpr.Proofs.Parse.Derivation
import TagExpr.Proofs.Parse.Enclosed
import TagExpr.Proofs.Parse.Ends
import TagExpr.Proofs.Parse.Entries
import TagExpr.Proofs.Parse.Features
import TagExpr.Proofs.Parse.Grouping
import TagExpr.Proofs.Parse.Integers
import TagExpr.Proofs.Parse.Keeps
import TagExpr.Proofs.Parse.Layout
import TagExpr.Proofs.Parse.Leaves
import TagExpr.Proofs.Parse.Marks
import TagExpr.Proofs.Parse.Names
import TagExpr.Proofs.Parse.Operands
import TagExpr.Proofs.Parse.Operators
import TagExpr.Proofs.Parse.Questions
import TagExpr.Proofs.Parse.Reduction
import TagExpr.Proofs.Parse.Refusal
import TagExpr.Proofs.Parse.Run
import TagExpr.Proofs.Parse.Scope
import TagExpr.Proofs.Parse.Shorthand
import TagExpr.Proofs.Parse.Tables
import TagExpr.Proofs.Parse.Targets
import TagExpr.Proofs.Parse.Trails
import TagExpr.Proofs.Parse.Whole
import TagExpr.Proofs.Parse.Words
import TagExpr.Proofs.Placing.Course
import TagExpr.Proofs.Placing.Extended
import TagExpr.Proofs.Placing.Filler
import TagExpr.Proofs.Placing.Interpolation
import TagExpr.Proofs.Placing.Likeness
import TagExpr.Proofs.Placing.Parallel
import TagExpr.Proofs.Placing.Ranges
import TagExpr.Proofs.Placing.SameText
import TagExpr.Proofs.Placing.Track
import TagExpr.Proofs.Program.Interning
import TagExpr.Proofs.Program.Lowering
import TagExpr.Proofs.Program.ShortCircuit
import TagExpr.Proofs.Renaming.Changes
import TagExpr.Proofs.Renaming.Invariance
import TagExpr.Proofs.Renaming.Reworded
import TagExpr.Proofs.Renaming.Tokens
import TagExpr.Proofs.Renaming.Words
import TagExpr.Proofs.Render.Activations
import TagExpr.Proofs.Scoping.Backreach
import TagExpr.Proofs.Scoping.Bindings
import TagExpr.Proofs.Scoping.Calls
import TagExpr.Proofs.Scoping.Locals
import TagExpr.Proofs.Scoping.Operands
import TagExpr.Proofs.Scoping.Operators
import TagExpr.Proofs.Scoping.Reading
import TagExpr.Proofs.Scoping.Regions
import TagExpr.Proofs.Scoping.Scans
import TagExpr.Proofs.Scoping.Trace
import TagExpr.Proofs.Scoping.Visits
import TagExpr.Proofs.Session.Definitions
import TagExpr.Proofs.Session.Run
import TagExpr.Proofs.Stack
import TagExpr.Proofs.Stream.Elements
import TagExpr.Proofs.Stream.Pipeline
import TagExpr.Proofs.Stream.Ranges
import TagExpr.Proofs.Stream.Reads
import TagExpr.Proofs.Stream.Remains
import TagExpr.Proofs.Stream.Stages
import TagExpr.Proofs.Token.Classification
import TagExpr.Proofs.Token.Cuts
import TagExpr.Proofs.Token.Exchange
import TagExpr.Proofs.Token.Extent
import TagExpr.Proofs.Token.Gaps
import TagExpr.Proofs.Token.Integers
import TagExpr.Proofs.Token.Letters
import TagExpr.Proofs.Token.Lexeme
import TagExpr.Proofs.Token.Longer
import TagExpr.Proofs.Token.Lossless
import TagExpr.Proofs.Token.Measures
import TagExpr.Proofs.Token.NameTokens
import TagExpr.Proofs.Token.OperandPosition
import TagExpr.Proofs.Token.Patterns
import TagExpr.Proofs.Token.Places
import TagExpr.Proofs.Token.Progress
import TagExpr.Proofs.Token.Signatures
import TagExpr.Proofs.Token.Spelling
import TagExpr.Proofs.Typing.Sound
import TagExpr.Proofs.Typing.Static
import TagExpr.Proofs.Value.Collection
import TagExpr.Proofs.Value.Comparison
import TagExpr.Proofs.Value.Integral
import TagExpr.Proofs.Value.Lookup
import TagExpr.Proofs.Value.Order
import TagExpr.Proofs.Value.Positions
import TagExpr.Regex
import TagExpr.Regex.CharSet
import TagExpr.Regex.Pattern
import TagExpr.Regex.Property
import TagExpr.Regex.Reader
import TagExpr.Render.Context
import TagExpr.Render.Report
import TagExpr.Signature
import TagExpr.Span
import TagExpr.Stack
import TagExpr.Stream
import TagExpr.TemplateScope
import TagExpr.Text.Blank
import TagExpr.Text.Case
import TagExpr.Text.Property
import TagExpr.Text.Property.Case
import TagExpr.Text.Property.Category
import TagExpr.Text.Property.Script
import TagExpr.Text.Property.Word
import TagExpr.Text.Search
import TagExpr.Token
import TagExpr.Token.Filler
import TagExpr.Token.Lexer
import TagExpr.Value
import TagExpr.Value.Builtin
import TagExpr.Value.Collection
import TagExpr.Value.Operation
import TagExpr.Value.Order
import TagExpr.Value.Text
