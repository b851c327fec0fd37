import Gherkin.Document.Printer
import Gherkin.Document.Source
import Gherkin.Regex
import Gherkin.Regex.Reading
import Gherkin.Proofs.Pattern.Cut
import Gherkin.Proofs.Pattern.Matching
import Gherkin.Proofs.Pattern.Segments
import Gherkin.Proofs.Pattern.Measure
import Gherkin.Proofs.Token.Origin
import Gherkin.Run.Feature
import Gherkin.Script
import Gherkin.Token.Cursor
import Gherkin.Proofs.Document.Skipping
import Gherkin.Proofs.Document.Recovery
import Gherkin.Proofs.Document.Nodes
import Gherkin.Proofs.Document.WellFormed
import Gherkin.Proofs.Document.Relocation
import Gherkin.Proofs.Printing.DocStrings
import Gherkin.Proofs.Printing.Entries
import Gherkin.Proofs.Printing.Blocks
import Gherkin.Proofs.Printing.Lines
import Gherkin.Proofs.Printing.Rows
import Gherkin.Proofs.Printing.Scanning
import Gherkin.Proofs.Printing.Spelling
import Gherkin.Proofs.Printing.Keywords
import Gherkin.Proofs.Printing.Arguments
import Gherkin.Proofs.Printing.Headers
import Gherkin.Proofs.Printing.Trees
import Gherkin.Proofs.Printing.Contents
import Gherkin.Proofs.Printing.Faultless
import Gherkin.Proofs.Printing.RoundTrip
import Gherkin.Proofs.Printing.Tables
import Gherkin.Proofs.Printing.Fences
import Gherkin.Proofs.Outline.Placeholders
import Gherkin.Proofs.Outline.Expansion
import Gherkin.Proofs.Outline.Leftovers
import Gherkin.Proofs.Outline.Templates
import Gherkin.Proofs.Registry.Marks
import Gherkin.Proofs.Run.Calls
import Gherkin.Proofs.Run.Lifecycle
import Gherkin.Proofs.Run.Failures
import Gherkin.Proofs.Run.Isolation
import Gherkin.Proofs.Run.Accounts
import Gherkin.Proofs.Run.Foresight
import Gherkin.Proofs.Run.Totals
import Gherkin.Proofs.Token.Decoding
import Gherkin.Proofs.Token.Tiling
import Gherkin.Proofs.Token.Coverage
import Gherkin.Proofs.Pattern.Suggestion
import Gherkin.Proofs.Registry.Building
import Gherkin.Proofs.Registry.Resolution
import Gherkin.Proofs.Registry.Histories
import Gherkin.Proofs.Tag.Rendering
import Gherkin.Proofs.Tag.Merging
import Gherkin.Proofs.Tag.Selection
import Gherkin.Proofs.Token.Coordinates
import Gherkin.Proofs.Document.Heads
import Gherkin.Proofs.Document.Locality
import Gherkin.Proofs.Document.Endings
import Gherkin.Proofs.Document.Commenting
import Gherkin.Proofs.Token.CommentLines
import Gherkin.Proofs.Token.Recognition
import Gherkin.Proofs.Document.Comments
import Gherkin.Proofs.Tag.Blame
import Gherkin.Proofs.Document.Passes
import Gherkin.Proofs.Token.Progress
import Gherkin.Proofs.Registry.Conversion
