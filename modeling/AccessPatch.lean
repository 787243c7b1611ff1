import AccessPatch.Accessibility
import AccessPatch.Annotation
import AccessPatch.Command.Annotate
import AccessPatch.Command.Arguments
import AccessPatch.Command.Program
import AccessPatch.Command.Scan
import AccessPatch.Config.Basic
import AccessPatch.Config.Mapping
import AccessPatch.Diff.Matching
import AccessPatch.Diff.Unified
import AccessPatch.Document
import AccessPatch.Element
import AccessPatch.Failure
import AccessPatch.Identifier
import AccessPatch.Journal
import AccessPatch.Lines
import AccessPatch.Main
import AccessPatch.Patch.Apply
import AccessPatch.Patch.Plan
import AccessPatch.Patch.Splice
import AccessPatch.Proofs.Matching
import AccessPatch.Proofs.Order
import AccessPatch.Proofs.Splicing
import AccessPatch.Proofs.Xml.Characters
import AccessPatch.Report
import AccessPatch.Run
import AccessPatch.Store.Basic
import AccessPatch.Store.Change
import AccessPatch.Store.Discover
import AccessPatch.Store.Path
import AccessPatch.Store.Pattern
import AccessPatch.Store.Write
import AccessPatch.Tag.Pairing
import AccessPatch.Tag.Range
import AccessPatch.Tag.Reading
import AccessPatch.Text.Blank
import AccessPatch.Text.Digit
import AccessPatch.Text.Json
import AccessPatch.Text.Utf8
import AccessPatch.Xml.Charset
import AccessPatch.Xml.Content.Entity
import AccessPatch.Xml.Content.Token
import AccessPatch.Xml.Declaration
import AccessPatch.Xml.Dtd
import AccessPatch.Xml.Encoding
import AccessPatch.Xml.Event
import AccessPatch.Xml.Fault
import AccessPatch.Xml.Name
import AccessPatch.Xml.Namespace
import AccessPatch.Xml.Prolog.Declare
import AccessPatch.Xml.Prolog.Grammar
import AccessPatch.Xml.Prolog.Token
import AccessPatch.Xml.Reader
import AccessPatch.Xml.Reference
import AccessPatch.Xml.Source
import AccessPatch.Xml.Symbol
import AccessPatch.Xml.Trivia
import AccessPatch.Yaml.Cursor
import AccessPatch.Yaml.Fault
import AccessPatch.Yaml.Kind
import AccessPatch.Yaml.Node
import AccessPatch.Yaml.Property
import AccessPatch.Yaml.Scalar
import AccessPatch.Yaml.Token
import AccessPatch.Yaml.Value
import AccessPatch.Proofs.Xml.Relocation
import AccessPatch.Proofs.Xml.Quiet
import AccessPatch.Proofs.Xml.Stretch
import AccessPatch.Proofs.Xml.Trail
import AccessPatch.Proofs.Xml.Prolog.Root
import AccessPatch.Proofs.Xml.Prolog.Epilog
import AccessPatch.Proofs.Xml.Readable
import AccessPatch.Proofs.Xml.Opening
import AccessPatch.Proofs.Xml.Layout
import AccessPatch.Proofs.Tag.Ends
import AccessPatch.Proofs.Tag.Ranges
import AccessPatch.Proofs.Annotated
import AccessPatch.Proofs.Rounds
import AccessPatch.Proofs.Spliceable
import AccessPatch.Proofs.MinimalEdit
import AccessPatch.Proofs.Verified
import AccessPatch.Proofs.Store.Locating
import AccessPatch.Proofs.Store.Writing
import AccessPatch.Proofs.Store.Path
import AccessPatch.Proofs.Store.Footprint
import AccessPatch.Proofs.Ending
import AccessPatch.Proofs.Applying
import AccessPatch.Proofs.Reporting
import AccessPatch.Proofs.Predicting
import AccessPatch.Proofs.Tag.Kept
import AccessPatch.Proofs.Batch
import AccessPatch.Proofs.Escaping
import AccessPatch.Proofs.Commuting
import AccessPatch.Proofs.Distinct
import AccessPatch.Proofs.WellFormed
import AccessPatch.Proofs.CommandLine
import AccessPatch.Proofs.Refusing
import AccessPatch.Proofs.Narrowing
import AccessPatch.Proofs.Lines
import AccessPatch.Proofs.LineTable
import AccessPatch.Proofs.Standing
import AccessPatch.Proofs.LineBreaks
import AccessPatch.Proofs.Indentation
import AccessPatch.Proofs.Tag.Laminar
import AccessPatch.Proofs.Sanitizing
import AccessPatch.Proofs.Config.Layers
import AccessPatch.Proofs.Config.Loading
import AccessPatch.Proofs.Store.Searching
import AccessPatch.Proofs.Diff.Faithful
