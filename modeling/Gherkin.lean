import Gherkin.Text.Replace
import Gherkin.Data
import Gherkin.Dialect.Scope
import Gherkin.Line.Classify
import Gherkin.Line.Cells
import Gherkin.Line.Tags
import Gherkin.Document.Normal
import Gherkin.Snippet
import Gherkin.Text.Description
import Gherkin.Path
import Gherkin.Element.Parse
import Gherkin.Element.Kind
import Gherkin.Element.Equality
import Gherkin.Layout.Render
import Gherkin.Element.Rows
import Gherkin.Forest.Attach
import Gherkin.Forest.Plant
import Gherkin.Forest.Release
import Gherkin.Session
import Gherkin.Loading
import Gherkin.Settings.Basic
import Gherkin.Proofs.Forest.Attach
import Gherkin.Proofs.Forest.Release
import Gherkin.Proofs.Forest.Plant
import Gherkin.Proofs.Session.Run
import Gherkin.Proofs.Document.Reading
import Gherkin.Proofs.Document.Soundness
import Gherkin.Proofs.Document.Completeness
import Gherkin.Proofs.Document.Grammar
import Gherkin.Proofs.Line.Classify
import Gherkin.Proofs.Document.Parse
import Gherkin.Proofs.Document.Account
import Gherkin.Proofs.Dialect.Table
import Gherkin.Proofs.Text.Description
import Gherkin.Proofs.Line.Cells
import Gherkin.Proofs.Line.Tags
import Gherkin.Proofs.Text.Replace
import Gherkin.Proofs.Line.Kinds
import Gherkin.Proofs.Layout.Page
import Gherkin.Proofs.Element.Forget
import Gherkin.Proofs.Element.OfData
import Gherkin.Proofs.Element.OfDocument
import Gherkin.Proofs.Element.Image
import Gherkin.Proofs.Element.WellFormed
import Gherkin.Proofs.Layout.Step
import Gherkin.Proofs.Layout.Holds
import Gherkin.Proofs.Layout.Heading
import Gherkin.Proofs.Layout.Block
import Gherkin.Proofs.Layout.Feature
import Gherkin.Proofs.Layout.Wrap
import Gherkin.Proofs.Layout.RoundTrip
import Gherkin.Proofs.Document.Acceptor
import Gherkin.Proofs.Document.Descent
import Gherkin.Proofs.Document.Lines
import Gherkin.Proofs.Document.Refusal
import Gherkin.Proofs.Document.Core
import Gherkin.Proofs.Document.Recount
import Gherkin.Proofs.Element.Span
import Gherkin.Proofs.Element.Start
import Gherkin.Proofs.Element.Placed
import Gherkin.Proofs.Element.Alone
import Gherkin.Proofs.Layout.Header
import Gherkin.Proofs.Forest.Circle
import Gherkin.Proofs.Text.Normal
import Gherkin.Proofs.Element.Domain
import Gherkin.Proofs.Loading.Attach
import Gherkin.Proofs.Text.Indent
import Gherkin.Proofs.Element.Trace
import Gherkin.Proofs.Document.Indent
import Gherkin.Proofs.Element.Extract
import Gherkin.Proofs.Element.Indent
import Gherkin.Proofs.Session.Guards
import Gherkin.Proofs.Dialect.Steps
import Gherkin.Proofs.Line.StepLine
import Gherkin.Proofs.Session.Nesting
import Gherkin.Proofs.Layout.Keyword
import Gherkin.Proofs.Layout.DocString
import Gherkin.Proofs.Dialect.Wildcard
import Gherkin.Proofs.Layout.Bare
import Gherkin.Proofs.Element.Blame
import Gherkin.Proofs.Document.Node
import Gherkin.Proofs.Element.Part
import Gherkin.Proofs.Element.Inside
import Gherkin.Proofs.Line.Column
import Gherkin.Proofs.Document.Place
import Gherkin.Proofs.Forest.Ancestry
import Gherkin.Proofs.Forest.Outcome
import Gherkin.Proofs.Element.Drawn
import Gherkin.Proofs.Element.LastStep
import Gherkin.Proofs.Line.Separators
import Gherkin.Proofs.Layout.Columns
import Gherkin.Proofs.Document.Language
import Gherkin.Proofs.Text.Path
import Gherkin.Proofs.Element.Essence
import Gherkin.Proofs.Forest.Essence
import Gherkin.Proofs.Line.Words
import Gherkin.Proofs.Text.Margin
import Gherkin.Proofs.Line.Longest
import Gherkin.Proofs.Text.Returns
import Gherkin.Proofs.Element.Origins
import Gherkin.Proofs.Element.Returns
import Gherkin.Proofs.Layout.Depth
import Gherkin.Proofs.Document.Schema
import Gherkin.Proofs.Element.Rows
import Gherkin.Proofs.Line.Escapes
import Gherkin.Proofs.Settings.Merge
import Gherkin.Proofs.Settings.Writes
import Gherkin.Proofs.Settings.Key
import Gherkin.Proofs.Settings.Layers
import Gherkin.Proofs.Settings.Toml.Table
import Gherkin.Proofs.Settings.Toml.Document
import Gherkin.Proofs.Settings.Toml.Names
import Gherkin.Proofs.Settings.Toml.Quoted
import Gherkin.Proofs.Settings.Toml.Written
import Gherkin.Proofs.Settings.Written
import Gherkin.Proofs.Settings.Scalar.Shortest
import Gherkin.Proofs.Settings.Toml.Moment
import Gherkin.Proofs.Settings.Toml.Progress
