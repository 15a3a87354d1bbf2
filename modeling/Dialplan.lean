import Dialplan.Applications
import Dialplan.Attributes
import Dialplan.Check
import Dialplan.Command.Arguments
import Dialplan.Command.Host
import Dialplan.Command.Lint
import Dialplan.Command.Machine
import Dialplan.Command.Run
import Dialplan.DetailRow
import Dialplan.Draft
import Dialplan.Drag
import Dialplan.Edit
import Dialplan.Exchange.Agreement
import Dialplan.Exchange.Applications
import Dialplan.Exchange.Drag
import Dialplan.Exchange.Edit
import Dialplan.Exchange.Finding
import Dialplan.Exchange.Node
import Dialplan.Exchange.Projection
import Dialplan.Exchange.Row
import Dialplan.Exchange.Settings
import Dialplan.Finding
import Dialplan.Folder
import Dialplan.Hazard
import Dialplan.Json.Reader
import Dialplan.Json.Shape
import Dialplan.Json.Token
import Dialplan.Json.Value
import Dialplan.Json.Writer
import Dialplan.Kind
import Dialplan.Main
import Dialplan.Markup.Entity
import Dialplan.Markup.Excerpt
import Dialplan.Markup.Fault
import Dialplan.Markup.Printing
import Dialplan.Markup.Reading
import Dialplan.Markup.Token
import Dialplan.Markup.Tokens
import Dialplan.Node
import Dialplan.Path
import Dialplan.Projection
import Dialplan.Proofs.Advice
import Dialplan.Proofs.Attributes
import Dialplan.Proofs.Blocking
import Dialplan.Proofs.BrokenSave
import Dialplan.Proofs.Building
import Dialplan.Proofs.Cascade
import Dialplan.Proofs.Clean
import Dialplan.Proofs.Coherence
import Dialplan.Proofs.Declaration
import Dialplan.Proofs.Digits
import Dialplan.Proofs.DetailRow
import Dialplan.Proofs.DocumentOrder
import Dialplan.Proofs.Drag
import Dialplan.Proofs.Due
import Dialplan.Proofs.Edit
import Dialplan.Proofs.Excerpt
import Dialplan.Proofs.Failure
import Dialplan.Proofs.Folder
import Dialplan.Proofs.FolderStore
import Dialplan.Proofs.Formatting
import Dialplan.Proofs.Grammar
import Dialplan.Proofs.Grouping
import Dialplan.Proofs.Guard
import Dialplan.Proofs.Hazard
import Dialplan.Proofs.Hits
import Dialplan.Proofs.JsonForm
import Dialplan.Proofs.JsonText
import Dialplan.Proofs.LastWrite
import Dialplan.Proofs.Lasting
import Dialplan.Proofs.Layout
import Dialplan.Proofs.Lexemes
import Dialplan.Proofs.Lexing
import Dialplan.Proofs.Likeness
import Dialplan.Proofs.Listing
import Dialplan.Proofs.Lookup
import Dialplan.Proofs.Lossless
import Dialplan.Proofs.Mirror
import Dialplan.Proofs.Moving
import Dialplan.Proofs.Nearest
import Dialplan.Proofs.Node
import Dialplan.Proofs.Numbers
import Dialplan.Proofs.Offered
import Dialplan.Proofs.Offers
import Dialplan.Proofs.Offsets
import Dialplan.Proofs.OrderedMap
import Dialplan.Proofs.Pattern
import Dialplan.Proofs.Places
import Dialplan.Proofs.Printing
import Dialplan.Proofs.Projection
import Dialplan.Proofs.Quiet
import Dialplan.Proofs.Reading
import Dialplan.Proofs.References
import Dialplan.Proofs.Repeats
import Dialplan.Proofs.Replay
import Dialplan.Proofs.Retired
import Dialplan.Proofs.RoundTrip
import Dialplan.Proofs.Rows
import Dialplan.Proofs.Run
import Dialplan.Proofs.SaveOutcome
import Dialplan.Proofs.Saving
import Dialplan.Proofs.Search
import Dialplan.Proofs.Sorting
import Dialplan.Proofs.Spans
import Dialplan.Proofs.Truncation
import Dialplan.Proofs.Undo
import Dialplan.Proofs.Unplaced
import Dialplan.Proofs.Unsaved
import Dialplan.Proofs.WellFormed
import Dialplan.Proofs.Words
import Dialplan.Proofs.Writes
import Dialplan.Proofs.Written
import Dialplan.Reconcile
import Dialplan.Session
import Dialplan.Settings
import Dialplan.Store
import Dialplan.Text.Blank
import Dialplan.Text.CaseTable
import Dialplan.Text.Digits
import Dialplan.Text.Lowercase
import Dialplan.Text.Width
import Dialplan.Tree
