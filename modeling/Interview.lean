import Interview.Date
import Interview.Document.Basic
import Interview.Document.Block
import Interview.Document.Bullets
import Interview.Document.Clause
import Interview.Document.Directive
import Interview.Document.Prose
import Interview.Document.Question
import Interview.Document.Reading
import Interview.Document.Word
import Interview.Evaluation
import Interview.Fault
import Interview.FileTree
import Interview.Flow
import Interview.Listing
import Interview.Manuscript.Assembly
import Interview.Manuscript.Basic
import Interview.Manuscript.Folder
import Interview.Manuscript.Snippet
import Interview.Node
import Interview.Number
import Interview.Predicate
import Interview.Reader.Basic
import Interview.Reader.Character
import Interview.Reader.Lines
import Interview.Reader.Repeat
import Interview.Reader.Report
import Interview.Registry
import Interview.Session
import Interview.State
import Interview.Text.Blank
import Interview.Text.Bytes
import Interview.Text.Digits
import Interview.Text.Invisible
import Interview.Text.Line
import Interview.Text.Quoted
import Interview.Typing
import Interview.Proofs.Except
import Interview.Proofs.Evaluation.Locality
import Interview.Proofs.Rule.Search
import Interview.Proofs.State.Writes
import Interview.Proofs.State.NormalForm
import Interview.Proofs.Session.Step
import Interview.Proofs.Session.Visibility
import Interview.Proofs.Session.Replay
import Interview.Proofs.Session.History
import Interview.Proofs.Session.Visits
import Interview.Proofs.Reader.Progress
import Interview.Proofs.Reader.Trailing
import Interview.Proofs.Rule.Descent
import Interview.Proofs.Document.Words
import Interview.Proofs.Clause.Value
import Interview.Proofs.Clause.Spelling
import Interview.Proofs.Bullet.Reading
import Interview.Proofs.Bullet.Layout
import Interview.Proofs.Block.Opening
import Interview.Proofs.Block.Ending
import Interview.Proofs.Block.Grammar
import Interview.Proofs.Block.Likeness
import Interview.Proofs.Document.Front
import Interview.Proofs.Document.Composition
import Interview.Proofs.Document.Variation
import Interview.Proofs.Manuscript.Compilation
import Interview.Proofs.Manuscript.Order
import Interview.Proofs.Manuscript.Closed
import Interview.Proofs.Manuscript.Faults
import Interview.Proofs.Manuscript.Answers
import Interview.Proofs.Document.Bracket
import Interview.Proofs.Document.Form
import Interview.Proofs.Document.Pairing
import Interview.Proofs.Registry.Extension
import Interview.Proofs.Clause.Writing
import Interview.Proofs.Predicate.Rendering
import Interview.Proofs.Document.Conditions
import Interview.Proofs.Block.Commitment
import Interview.Proofs.Document.Box
import Interview.Proofs.Document.Paragraphs
import Interview.Proofs.Document.Blankness
import Interview.Proofs.Question.Writing
import Interview.Proofs.Typing.Defects
import Interview.Proofs.Rule.Appending
import Interview.Proofs.Rule.Coverage
import Interview.Proofs.Rule.Calls
import Interview.Proofs.Predicate.Grouping
import Interview.Proofs.Rule.Mentions
import Interview.Proofs.Comparison.Calendar
import Interview.Proofs.Comparison.Kinds
import Interview.Proofs.Text.Lines
import Interview.Proofs.Manuscript.Expansion
import Interview.Proofs.FileTree.Layout
import Interview.Proofs.Manuscript.Loading
import Interview.Proofs.Reader.Recursion
import Interview.Proofs.Block.Recursion
import Interview.Proofs.Document.Progress
import Interview.Proofs.Reader.Failure
import Interview.Proofs.Document.Places
import Interview.Proofs.Block.Breaking
import Interview.Proofs.Document.Breaking
