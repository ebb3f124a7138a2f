import Nya.Main
import Nya.Proofs.Scope.Visits
import Nya.Proofs.Scope.Scoped
import Nya.Proofs.Machine.Trace
import Nya.Proofs.Machine.Ground
import Nya.Proofs.Machine.Preserve
import Nya.Proofs.Machine.History
import Nya.Proofs.Session.Scopes
import Nya.Proofs.Parse.Extend
import Nya.Proofs.Relabel.Machine
import Nya.Proofs.Relabel.Parse
import Nya.Proofs.Session.Rejected
import Nya.Proofs.Session.Split
import Nya.Proofs.Machine.Balance
import Nya.Proofs.Session.Balance
import Nya.Proofs.Grammar.Spelling
import Nya.Proofs.Parse.Reads
import Nya.Proofs.Parse.Yields
import Nya.Proofs.Parse.RoundTrip
import Nya.Proofs.Grammar.Rules
import Nya.Proofs.Grammar.Levels
import Nya.Proofs.Grammar.Statements
import Nya.Proofs.Parse.ReadsProgram
import Nya.Proofs.Parse.Acceptance
import Nya.Proofs.Scope.Alpha
import Nya.Proofs.Scope.AlphaResolve
import Nya.Proofs.Scope.Rename
import Nya.Proofs.Machine.Layout
import Nya.Proofs.Machine.Alpha
import Nya.Proofs.Session.Rename
import Nya.Proofs.Token.Lexeme
import Nya.Proofs.Token.Stream
import Nya.Proofs.Session.Lines
import Nya.Proofs.Parse.Assembled
import Nya.Proofs.Parse.Isolation
import Nya.Proofs.Scope.Events
import Nya.Proofs.Scope.Exact
import Nya.Proofs.Machine.Loopless
import Nya.Proofs.Machine.Returns
import Nya.Proofs.Session.Returns
import Nya.Proofs.Parse.Builder
import Nya.Proofs.Parse.Growth
import Nya.Proofs.Session.Operators
import Nya.Proofs.Command.Agreement
import Nya.Proofs.Env.Frames
import Nya.Proofs.Env.Forest
import Nya.Proofs.Env.Early
import Nya.Proofs.Machine.Early
import Nya.Proofs.Session.Early
import Nya.Proofs.Env.Matches
import Nya.Proofs.Scope.Thin
import Nya.Proofs.Machine.Thinning
import Nya.Proofs.Machine.Thin
import Nya.Proofs.Machine.BigStep
import Nya.Proofs.Machine.Agree
import Nya.Proofs.Machine.Observe
import Nya.Proofs.Session.ForLoop
import Nya.Proofs.Token.Position
import Nya.Proofs.Machine.Moves
import Nya.Proofs.Machine.Globals
import Nya.Proofs.Session.Globals
import Nya.Proofs.Scope.Pending
import Nya.Proofs.Machine.Activations
import Nya.Proofs.Machine.Initializers
import Nya.Proofs.Session.Writes
import Nya.Proofs.Parse.Closure
import Nya.Proofs.Parse.Order
import Nya.Proofs.Text.Words
import Nya.Proofs.Parse.Total
import Nya.Proofs.Grammar.Places
import Nya.Proofs.Parse.Frames
import Nya.Proofs.Grammar.Joins
import Nya.Proofs.Parse.Gaps
import Nya.Proofs.Parse.Semicolon
import Nya.Proofs.Number.Bits
import Nya.Proofs.Number.Shortest
import Nya.Proofs.Number.Plain
import Nya.Proofs.Tree.Outline
import Nya.Proofs.Tree.Rebuild
import Nya.Proofs.Parse.Printed
import Nya.Proofs.Parse.Cursor
import Nya.Proofs.Parse.Positions
import Nya.Proofs.Text.Squeeze
import Nya.Proofs.Text.Bytes
import Nya.Proofs.Token.Bytes
import Nya.Proofs.Token.Boundaries
import Nya.Proofs.Parse.Clauses
