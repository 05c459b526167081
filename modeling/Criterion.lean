import Criterion.Artifact
import Criterion.Assembly
import Criterion.Binary64
import Criterion.Builtin
import Criterion.Calendar.Date
import Criterion.Calendar.Duration
import Criterion.Calendar.Reading
import Criterion.Calendar.Time
import Criterion.CommandLine
import Criterion.Decimal
import Criterion.Eval
import Criterion.Expr
import Criterion.Failure
import Criterion.Interval
import Criterion.Json.Basic
import Criterion.Json.Dump
import Criterion.Json.Reader
import Criterion.Library
import Criterion.Main
import Criterion.Memory.Eval
import Criterion.Memory.Function
import Criterion.Memory.Held
import Criterion.Memory.Sitting
import Criterion.Number
import Criterion.Operator
import Criterion.Proofs.Acceptance
import Criterion.Proofs.Agreement
import Criterion.Proofs.Answers
import Criterion.Proofs.Applications
import Criterion.Proofs.Between
import Criterion.Proofs.Binders
import Criterion.Proofs.Brackets
import Criterion.Proofs.Branches
import Criterion.Proofs.Building
import Criterion.Proofs.Carried
import Criterion.Proofs.Closure
import Criterion.Proofs.Commas
import Criterion.Proofs.Comments
import Criterion.Proofs.Completeness
import Criterion.Proofs.Compositional
import Criterion.Proofs.Conversions
import Criterion.Proofs.Convexity
import Criterion.Proofs.Decision
import Criterion.Proofs.Derivation
import Criterion.Proofs.Determined
import Criterion.Proofs.Distinct
import Criterion.Proofs.Dumps
import Criterion.Proofs.Effects
import Criterion.Proofs.Enclosure
import Criterion.Proofs.Endpoints
import Criterion.Proofs.Entries
import Criterion.Proofs.Equality
import Criterion.Proofs.Escapes
import Criterion.Proofs.Excerpts
import Criterion.Proofs.Failures
import Criterion.Proofs.Flattening
import Criterion.Proofs.Formulas
import Criterion.Proofs.Fusion
import Criterion.Proofs.Gaps
import Criterion.Proofs.Holding
import Criterion.Proofs.Identifiers
import Criterion.Proofs.Inclusion
import Criterion.Proofs.Intervals
import Criterion.Proofs.Items
import Criterion.Proofs.Joining
import Criterion.Proofs.Layers
import Criterion.Proofs.Layout
import Criterion.Proofs.Lexing
import Criterion.Proofs.Limits
import Criterion.Proofs.Literals
import Criterion.Proofs.Locality
import Criterion.Proofs.Longest
import Criterion.Proofs.Makings
import Criterion.Proofs.Membership
import Criterion.Proofs.Moves
import Criterion.Proofs.Naming
import Criterion.Proofs.Nesting
import Criterion.Proofs.Offences
import Criterion.Proofs.Operands
import Criterion.Proofs.OperatorTests
import Criterion.Proofs.Operators
import Criterion.Proofs.Ordering
import Criterion.Proofs.Ordinals
import Criterion.Proofs.Parentheses
import Criterion.Proofs.Paths
import Criterion.Proofs.Patterns
import Criterion.Proofs.Places
import Criterion.Proofs.Points
import Criterion.Proofs.Positions
import Criterion.Proofs.Powers
import Criterion.Proofs.Precedence
import Criterion.Proofs.Quantifiers
import Criterion.Proofs.Quiet
import Criterion.Proofs.Quoting
import Criterion.Proofs.Ranges
import Criterion.Proofs.Ranks
import Criterion.Proofs.Reading
import Criterion.Proofs.Recall
import Criterion.Proofs.Refinement
import Criterion.Proofs.Relevance
import Criterion.Proofs.Reports
import Criterion.Proofs.Respacing
import Criterion.Proofs.Respelling
import Criterion.Proofs.RoundTrip
import Criterion.Proofs.Rounding
import Criterion.Proofs.Rounds
import Criterion.Proofs.Runs
import Criterion.Proofs.Searches
import Criterion.Proofs.Selection
import Criterion.Proofs.Shadowing
import Criterion.Proofs.Shapes
import Criterion.Proofs.Silence
import Criterion.Proofs.Sites
import Criterion.Proofs.Sittings
import Criterion.Proofs.Soundness
import Criterion.Proofs.Spacing
import Criterion.Proofs.Spans
import Criterion.Proofs.Spelling
import Criterion.Proofs.Splitting
import Criterion.Proofs.Substrings
import Criterion.Proofs.Subterms
import Criterion.Proofs.Tags
import Criterion.Proofs.Targets
import Criterion.Proofs.Telling
import Criterion.Proofs.Timestamps
import Criterion.Proofs.Traces
import Criterion.Proofs.Truth
import Criterion.Proofs.Verdicts
import Criterion.Proofs.Walk
import Criterion.Proofs.WhiteSpace
import Criterion.Proofs.Whole
import Criterion.Proofs.Wrapping
import Criterion.Run
import Criterion.Scope
import Criterion.Session
import Criterion.Syntax.Grammar
import Criterion.Syntax.Lexer
import Criterion.Syntax.Readings
import Criterion.Syntax.Token
import Criterion.Syntax.Tree
import Criterion.Text.Blank
import Criterion.Text.Case
import Criterion.Text.CharSet
import Criterion.Text.Digit
import Criterion.Text.Printable
import Criterion.Text.Quoted
import Criterion.UnaryTests
import Criterion.Value.Arithmetic
import Criterion.Value.Basic
import Criterion.Value.Field
import Criterion.Value.Method
import Criterion.Value.Shown
