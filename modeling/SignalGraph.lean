import SignalGraph.Check.Fault
import SignalGraph.Check.Functions
import SignalGraph.Check.Modules
import SignalGraph.Check.Rule
import SignalGraph.Check.Streams
import SignalGraph.Check.Verify
import SignalGraph.ContentHash
import SignalGraph.Diagnostic.Basic
import SignalGraph.Diagnostic.Render
import SignalGraph.Digraph.Cycle
import SignalGraph.Digraph.Reach
import SignalGraph.Float.Decimal
import SignalGraph.Float.Format
import SignalGraph.Handle
import SignalGraph.Heart.Fault
import SignalGraph.Heart.Lexer
import SignalGraph.Heart.Parse
import SignalGraph.Heart.Parser.Body
import SignalGraph.Heart.Parser.Constant
import SignalGraph.Heart.Parser.Cursor
import SignalGraph.Heart.Parser.Expr
import SignalGraph.Heart.Parser.Item
import SignalGraph.Heart.Print
import SignalGraph.Heart.Quoted
import SignalGraph.Heart.RoundTrip
import SignalGraph.Heart.Token
import SignalGraph.Link.CallGraph
import SignalGraph.Link.Endpoints
import SignalGraph.Link.Expose
import SignalGraph.Link.Fault
import SignalGraph.Link.Feedback
import SignalGraph.Link.Hoist
import SignalGraph.Link.Resolve
import SignalGraph.Link.Specialise
import SignalGraph.Program.Annotations
import SignalGraph.Program.Basic
import SignalGraph.Program.Builder
import SignalGraph.Program.Connection
import SignalGraph.Program.Copy
import SignalGraph.Program.Edit
import SignalGraph.Program.Endpoint
import SignalGraph.Program.Expr
import SignalGraph.Program.Function
import SignalGraph.Program.Module
import SignalGraph.Program.Node
import SignalGraph.Program.Rename
import SignalGraph.Program.Statement
import SignalGraph.Program.Typing
import SignalGraph.Program.Variable
import SignalGraph.Proofs.Check.AlikeVerdicts
import SignalGraph.Proofs.Check.Clock
import SignalGraph.Proofs.Check.CopiedBlocks
import SignalGraph.Proofs.Check.Duplicates
import SignalGraph.Proofs.Check.IdleLocals
import SignalGraph.Proofs.Check.Initialisers
import SignalGraph.Proofs.Check.Instances
import SignalGraph.Proofs.Check.Integrity
import SignalGraph.Proofs.Check.NestedFeedback
import SignalGraph.Proofs.Check.Places
import SignalGraph.Proofs.Check.Traps
import SignalGraph.Proofs.Check.Unprinted
import SignalGraph.Proofs.Check.Verdicts
import SignalGraph.Proofs.Digraph.Loops
import SignalGraph.Proofs.Digraph.Marking
import SignalGraph.Proofs.Digraph.Order
import SignalGraph.Proofs.Digraph.Reach
import SignalGraph.Proofs.Digraph.Sorting
import SignalGraph.Proofs.Handle
import SignalGraph.Proofs.Heart.AlikeTexts
import SignalGraph.Proofs.Heart.Bodies
import SignalGraph.Proofs.Heart.DeclaredStructs
import SignalGraph.Proofs.Heart.Declaring
import SignalGraph.Proofs.Heart.FirstReadExpr
import SignalGraph.Proofs.Heart.FirstReading
import SignalGraph.Proofs.Heart.Following
import SignalGraph.Proofs.Heart.Groups
import SignalGraph.Proofs.Heart.Inline
import SignalGraph.Proofs.Heart.Labels
import SignalGraph.Proofs.Heart.Lexed
import SignalGraph.Proofs.Heart.Located
import SignalGraph.Proofs.Heart.Locating
import SignalGraph.Proofs.Heart.Nesting
import SignalGraph.Proofs.Heart.Outlines
import SignalGraph.Proofs.Heart.Parsed
import SignalGraph.Proofs.Heart.ParsedTidy
import SignalGraph.Proofs.Heart.ParserSteps
import SignalGraph.Proofs.Heart.Partition
import SignalGraph.Proofs.Heart.Passing
import SignalGraph.Proofs.Heart.Phrases
import SignalGraph.Proofs.Heart.Progress
import SignalGraph.Proofs.Heart.RawBytes
import SignalGraph.Proofs.Heart.Readable
import SignalGraph.Proofs.Heart.Reading
import SignalGraph.Proofs.Heart.RereadAnnotations
import SignalGraph.Proofs.Heart.RereadExpr
import SignalGraph.Proofs.Heart.Rereading
import SignalGraph.Proofs.Heart.Rounds
import SignalGraph.Proofs.Heart.Running
import SignalGraph.Proofs.Heart.Spelling
import SignalGraph.Proofs.Heart.StoredBlocks
import SignalGraph.Proofs.Heart.StructWords
import SignalGraph.Proofs.Heart.Termination
import SignalGraph.Proofs.Heart.ThirdPass
import SignalGraph.Proofs.Heart.WrittenBlocks
import SignalGraph.Proofs.Link.AlikeCopies
import SignalGraph.Proofs.Link.AlikeLinking
import SignalGraph.Proofs.Link.AlikeSpecialising
import SignalGraph.Proofs.Link.BoundValues
import SignalGraph.Proofs.Link.CallStack
import SignalGraph.Proofs.Link.Calls
import SignalGraph.Proofs.Link.Changes
import SignalGraph.Proofs.Link.Completeness
import SignalGraph.Proofs.Link.Exposure
import SignalGraph.Proofs.Link.Failures
import SignalGraph.Proofs.Link.FeedbackLoops
import SignalGraph.Proofs.Link.FixedPoint
import SignalGraph.Proofs.Link.Forwarding
import SignalGraph.Proofs.Link.FunctionsAside
import SignalGraph.Proofs.Link.Growth
import SignalGraph.Proofs.Link.Hoisting
import SignalGraph.Proofs.Link.Intactness
import SignalGraph.Proofs.Link.LegalConnections
import SignalGraph.Proofs.Link.Nesting
import SignalGraph.Proofs.Link.Places
import SignalGraph.Proofs.Link.Recursion
import SignalGraph.Proofs.Link.Rerouting
import SignalGraph.Proofs.Link.Settling
import SignalGraph.Proofs.Link.Specialisation
import SignalGraph.Proofs.Link.SpecialisationKeys
import SignalGraph.Proofs.Link.SpecialisedCopies
import SignalGraph.Proofs.Link.StackNeeds
import SignalGraph.Proofs.Link.Tidiness
import SignalGraph.Proofs.Link.Wiring
import SignalGraph.Proofs.Link.Worklist
import SignalGraph.Proofs.Program.Additions
import SignalGraph.Proofs.Program.Agreement
import SignalGraph.Proofs.Program.Alike
import SignalGraph.Proofs.Program.AlikeReading
import SignalGraph.Proofs.Program.Consistent
import SignalGraph.Proofs.Program.CopiedConstants
import SignalGraph.Proofs.Program.CopiedModules
import SignalGraph.Proofs.Program.CopyApart
import SignalGraph.Proofs.Program.CopyChecks
import SignalGraph.Proofs.Program.CopyClosed
import SignalGraph.Proofs.Program.CopyFrame
import SignalGraph.Proofs.Program.CopyPlan
import SignalGraph.Proofs.Program.CopySteps
import SignalGraph.Proofs.Program.CopyTyping
import SignalGraph.Proofs.Program.CopyWellFormed
import SignalGraph.Proofs.Program.Copying
import SignalGraph.Proofs.Program.Edit
import SignalGraph.Proofs.Program.Mentions
import SignalGraph.Proofs.Program.Paths
import SignalGraph.Proofs.Program.Places
import SignalGraph.Proofs.Program.References
import SignalGraph.Proofs.Program.Renaming
import SignalGraph.Proofs.Program.Rework
import SignalGraph.Proofs.Program.Structs
import SignalGraph.Proofs.Program.Tidy
import SignalGraph.Proofs.Program.WellFormed
import SignalGraph.Proofs.Source.Excerpts
import SignalGraph.Proofs.Source.Lines
import SignalGraph.Proofs.Ty.Containment
import SignalGraph.Proofs.Ty.PackedSize
import SignalGraph.Proofs.Ty.Replacing
import SignalGraph.Saturating
import SignalGraph.Settings.Basic
import SignalGraph.Settings.Load
import SignalGraph.Settings.Toml.Basic
import SignalGraph.Settings.Toml.Document
import SignalGraph.Settings.Toml.Scalar
import SignalGraph.Source.File
import SignalGraph.Source.Span
import SignalGraph.Text.Bytes
import SignalGraph.Ty.Basic
import SignalGraph.Ty.Cast
import SignalGraph.Ty.Structure
import SignalGraph.Value
