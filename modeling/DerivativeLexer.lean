import DerivativeLexer.Balance
import DerivativeLexer.CharSet
import DerivativeLexer.Decimal.Binary64
import DerivativeLexer.Decimal.Format
import DerivativeLexer.Decimal.Numeral
import DerivativeLexer.Decimal.Shortest
import DerivativeLexer.Grammar.KLisp
import DerivativeLexer.Grammar.Literal
import DerivativeLexer.Grammar.Scheme
import DerivativeLexer.Grammar.StringLiteral
import DerivativeLexer.Json.Basic
import DerivativeLexer.Json.Reader
import DerivativeLexer.Json.Scaled
import DerivativeLexer.Language.Basic
import DerivativeLexer.Language.Pattern
import DerivativeLexer.Language.Printer
import DerivativeLexer.Language.UnionCache
import DerivativeLexer.LexError
import DerivativeLexer.Lexer.Basic
import DerivativeLexer.Lexer.Engine
import DerivativeLexer.Lexer.Matching
import DerivativeLexer.Lexer.Run
import DerivativeLexer.Lexer.Status
import DerivativeLexer.Position
import DerivativeLexer.Proofs.Balance
import DerivativeLexer.Proofs.Balance.Nesting
import DerivativeLexer.Proofs.Decimal.Numeral
import DerivativeLexer.Proofs.Decimal.Written
import DerivativeLexer.Proofs.Grammar.Accounts
import DerivativeLexer.Proofs.Grammar.Ambiguity
import DerivativeLexer.Proofs.Grammar.Blocks
import DerivativeLexer.Proofs.Grammar.Closing
import DerivativeLexer.Proofs.Grammar.DeadEnds
import DerivativeLexer.Proofs.Grammar.Delivery
import DerivativeLexer.Proofs.Grammar.Layout
import DerivativeLexer.Proofs.Grammar.Lexemes
import DerivativeLexer.Proofs.Grammar.Lines
import DerivativeLexer.Proofs.Grammar.Literals
import DerivativeLexer.Proofs.Grammar.Lossless
import DerivativeLexer.Proofs.Grammar.Parentheses
import DerivativeLexer.Proofs.Grammar.Patterns
import DerivativeLexer.Proofs.Grammar.Respacing
import DerivativeLexer.Proofs.Grammar.Resumption
import DerivativeLexer.Proofs.Grammar.Shapes
import DerivativeLexer.Proofs.Grammar.Shifting
import DerivativeLexer.Proofs.Grammar.Strings
import DerivativeLexer.Proofs.Json.RoundTrip
import DerivativeLexer.Proofs.Language.Accounting
import DerivativeLexer.Proofs.Language.Derivative
import DerivativeLexer.Proofs.Language.Disjoint
import DerivativeLexer.Proofs.Language.Expression
import DerivativeLexer.Proofs.Language.Lookup
import DerivativeLexer.Proofs.Language.NormalForm
import DerivativeLexer.Proofs.Language.Size
import DerivativeLexer.Proofs.Language.Words
import DerivativeLexer.Proofs.Lexer.Beginnings
import DerivativeLexer.Proofs.Lexer.Carrying
import DerivativeLexer.Proofs.Lexer.Cutting
import DerivativeLexer.Proofs.Lexer.Effort
import DerivativeLexer.Proofs.Lexer.Growth
import DerivativeLexer.Proofs.Lexer.Guarded
import DerivativeLexer.Proofs.Lexer.LiveRules
import DerivativeLexer.Proofs.Lexer.Lookup
import DerivativeLexer.Proofs.Lexer.MaximalMunch
import DerivativeLexer.Proofs.Lexer.Moves
import DerivativeLexer.Proofs.Lexer.Previews
import DerivativeLexer.Proofs.Lexer.Replaying
import DerivativeLexer.Proofs.Lexer.Settling
import DerivativeLexer.Proofs.Lexer.Silenced
import DerivativeLexer.Proofs.Lexer.Stepping
import DerivativeLexer.Proofs.Lexer.Tiling
import DerivativeLexer.Proofs.Lexer.Unlimited
import DerivativeLexer.Proofs.Rules.Scripts
import DerivativeLexer.Proofs.Session.Absorption
import DerivativeLexer.Proofs.Session.Ahead
import DerivativeLexer.Proofs.Session.Apart
import DerivativeLexer.Proofs.Session.Cancellation
import DerivativeLexer.Proofs.Session.Compartment
import DerivativeLexer.Proofs.Session.Draining
import DerivativeLexer.Proofs.Session.Elsewhere
import DerivativeLexer.Proofs.Session.ErrorCell
import DerivativeLexer.Proofs.Session.Events
import DerivativeLexer.Proofs.Session.Frontier
import DerivativeLexer.Proofs.Session.Growing
import DerivativeLexer.Proofs.Session.Guarded
import DerivativeLexer.Proofs.Session.Hearing
import DerivativeLexer.Proofs.Session.Isolation
import DerivativeLexer.Proofs.Session.Lifecycle
import DerivativeLexer.Proofs.Session.Lookup
import DerivativeLexer.Proofs.Session.MatchLimit
import DerivativeLexer.Proofs.Session.Moving
import DerivativeLexer.Proofs.Session.Patience
import DerivativeLexer.Proofs.Session.Previews
import DerivativeLexer.Proofs.Session.Progress
import DerivativeLexer.Proofs.Session.Returning
import DerivativeLexer.Proofs.Session.Service
import DerivativeLexer.Proofs.Session.Stages
import DerivativeLexer.Proofs.Session.Stepping
import DerivativeLexer.Proofs.Session.Streaming
import DerivativeLexer.Proofs.Session.Termination
import DerivativeLexer.Proofs.Session.Threading
import DerivativeLexer.Proofs.Session.Tiling
import DerivativeLexer.Proofs.Session.Turns
import DerivativeLexer.Proofs.Session.Unlimited
import DerivativeLexer.Proofs.Session.Wiring
import DerivativeLexer.Proofs.Stream.Chain
import DerivativeLexer.Proofs.Stream.Events
import DerivativeLexer.Proofs.Stream.NodeRuns
import DerivativeLexer.Proofs.Stream.Nodes
import DerivativeLexer.Proofs.Stream.Notifying
import DerivativeLexer.Proofs.Stream.Pulling
import DerivativeLexer.Proofs.Stream.Serving
import DerivativeLexer.Proofs.Stream.Text
import DerivativeLexer.Proofs.Token.Order
import DerivativeLexer.Proofs.Token.RoundTrip
import DerivativeLexer.Rules.Action
import DerivativeLexer.Rules.Table
import DerivativeLexer.Session.Network
import DerivativeLexer.Stream.Feed
import DerivativeLexer.Stream.Hub
import DerivativeLexer.Stream.Source
import DerivativeLexer.Text.Combining
import DerivativeLexer.Text.Escape
import DerivativeLexer.Text.Unprintable
import DerivativeLexer.Token.Basic
import DerivativeLexer.Token.Json
import DerivativeLexer.Token.Order
import DerivativeLexer.Version
