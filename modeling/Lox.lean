import Lox.Command.Arguments
import Lox.Command.Directory
import Lox.Command.Execution
import Lox.Command.Journal
import Lox.Command.Place
import Lox.Diagnostic.Basic
import Lox.Diagnostic.Log
import Lox.Heap.Basic
import Lox.Heap.Frame
import Lox.Heap.Inspection
import Lox.Machine.Basic
import Lox.Machine.Evaluation
import Lox.Main
import Lox.Number.Binary
import Lox.Number.Shortest
import Lox.Number.Text
import Lox.Proofs.Command.Prompt
import Lox.Proofs.Command.Typing
import Lox.Proofs.Heap.Slots
import Lox.Proofs.Machine.Agreement
import Lox.Proofs.Machine.Callees
import Lox.Proofs.Machine.Chronicle
import Lox.Proofs.Machine.Closed
import Lox.Proofs.Machine.Coalescing
import Lox.Proofs.Machine.Context
import Lox.Proofs.Machine.DeedRuns
import Lox.Proofs.Machine.Deeds
import Lox.Proofs.Machine.EffectFree
import Lox.Proofs.Machine.Execution
import Lox.Proofs.Machine.Flat
import Lox.Proofs.Machine.Fuel
import Lox.Proofs.Machine.GrowingRuns
import Lox.Proofs.Machine.Growth
import Lox.Proofs.Machine.Invariant
import Lox.Proofs.Machine.Keeping
import Lox.Proofs.Machine.Layout
import Lox.Proofs.Machine.Nesting
import Lox.Proofs.Machine.Orderly
import Lox.Proofs.Machine.Placement
import Lox.Proofs.Machine.Properties
import Lox.Proofs.Machine.References
import Lox.Proofs.Machine.Returns
import Lox.Proofs.Machine.Runs
import Lox.Proofs.Machine.Soundness
import Lox.Proofs.Machine.Steps
import Lox.Proofs.Machine.ThinRuns
import Lox.Proofs.Machine.Thinned
import Lox.Proofs.Machine.Thinning
import Lox.Proofs.Machine.Traces
import Lox.Proofs.Machine.Truncation
import Lox.Proofs.Parser.Acceptance
import Lox.Proofs.Parser.Expressions
import Lox.Proofs.Parser.Locality
import Lox.Proofs.Parser.Reading
import Lox.Proofs.Parser.Recognition
import Lox.Proofs.Parser.Recovery
import Lox.Proofs.Parser.Relabeling
import Lox.Proofs.Parser.Rereading
import Lox.Proofs.Parser.Rules
import Lox.Proofs.Parser.Statements
import Lox.Proofs.Parser.Termination
import Lox.Proofs.Scope.Agreement
import Lox.Proofs.Scope.Binding
import Lox.Proofs.Scope.Closing
import Lox.Proofs.Scope.Consistency
import Lox.Proofs.Scope.Enforcement
import Lox.Proofs.Scope.Flat
import Lox.Proofs.Scope.Relabeling
import Lox.Proofs.Scope.Renaming
import Lox.Proofs.Scope.Returns
import Lox.Proofs.Scope.Rules
import Lox.Proofs.Scope.SourceOrder
import Lox.Proofs.Scope.Tracking
import Lox.Proofs.Scope.Unused
import Lox.Proofs.Scope.Visits
import Lox.Proofs.Session.Agreement
import Lox.Proofs.Session.Binding
import Lox.Proofs.Session.Chunks
import Lox.Proofs.Session.Defining
import Lox.Proofs.Session.History
import Lox.Proofs.Session.Joining
import Lox.Proofs.Session.Loops
import Lox.Proofs.Session.Moments
import Lox.Proofs.Session.Names
import Lox.Proofs.Session.Observation
import Lox.Proofs.Session.Phases
import Lox.Proofs.Session.Places
import Lox.Proofs.Session.Receivers
import Lox.Proofs.Session.Rejection
import Lox.Proofs.Session.Renaming
import Lox.Proofs.Session.Reports
import Lox.Proofs.Session.Returns
import Lox.Proofs.Session.Superclasses
import Lox.Proofs.Session.Trails
import Lox.Proofs.Session.Truncation
import Lox.Proofs.Syntax.Derivations
import Lox.Proofs.Syntax.Equality
import Lox.Proofs.Syntax.FirstTokens
import Lox.Proofs.Syntax.Grammar
import Lox.Proofs.Syntax.Likeness
import Lox.Proofs.Syntax.Linearization
import Lox.Proofs.Syntax.Positions
import Lox.Proofs.Syntax.Relabeling
import Lox.Proofs.Syntax.Tree
import Lox.Proofs.Syntax.Writing
import Lox.Proofs.Table
import Lox.Proofs.Text.Bytes
import Lox.Proofs.Token.Cursor
import Lox.Proofs.Token.LineEnds
import Lox.Proofs.Token.Lines
import Lox.Proofs.Token.Lossless
import Lox.Proofs.Token.Munch
import Lox.Proofs.Token.Rescanning
import Lox.Proofs.Token.Spelling
import Lox.Proofs.Token.Stepping
import Lox.Scope.Basic
import Lox.Scope.Resolution
import Lox.Session
import Lox.Syntax.Basic
import Lox.Syntax.Parser.Basic
import Lox.Syntax.Parser.Expression
import Lox.Syntax.Parser.Statement
import Lox.Syntax.Printer
import Lox.Table
import Lox.Text.Quoted
import Lox.Text.Unprintable
import Lox.Text.Utf8
import Lox.Token.Basic
import Lox.Token.Json
import Lox.Token.Lexer
import Lox.Token.Text
import Lox.Value.Basic
