import TextLines.Main
import TextLines.Source.Counted
import TextLines.Proofs.Document.Torn
import TextLines.Proofs.Document.Truncation
import TextLines.Proofs.Document.Releasing
import TextLines.Proofs.Document.Views
import TextLines.Proofs.CommandLine.Reporting
import TextLines.Proofs.Line.Joining
import TextLines.Proofs.Document.Rendering
import TextLines.Proofs.Source.Consuming
import TextLines.Proofs.Line.Consuming
import TextLines.Proofs.Document.Lines
import TextLines.Proofs.CommandLine.Modes
import TextLines.Proofs.CommandLine.Printing
import TextLines.Proofs.Charset.Codes
import TextLines.Proofs.Charset.Units
import TextLines.Proofs.Charset.Stepping
import TextLines.Proofs.Charset.Accepting
import TextLines.Proofs.Document.Decoded
import TextLines.Proofs.Files.Walking
import TextLines.Proofs.Files.Changing
import TextLines.Proofs.Report.Placing
import TextLines.Proofs.Json.Grammar
import TextLines.Proofs.Json.Reading
import TextLines.Proofs.Json.Doubles
import TextLines.Proofs.Report.Reading
import TextLines.Proofs.Line.Limiting
import TextLines.Proofs.CommandLine.Arguments
import TextLines.Proofs.CommandLine.Independent
import TextLines.Proofs.CommandLine.Numbers
import TextLines.Proofs.Document.Interleaving
import TextLines.Proofs.Document.Sharing
import TextLines.Proofs.Document.Independence
import TextLines.Proofs.Source.Closing
import TextLines.Proofs.Source.Serving
import TextLines.Proofs.Document.Opening
import TextLines.Proofs.Line.Laziness
import TextLines.Proofs.Source.Metering
import TextLines.Proofs.Line.Keeping
import TextLines.Proofs.Line.Metering
import TextLines.Proofs.Document.Metering
import TextLines.Proofs.CommandLine.Metering
import TextLines.Proofs.Charset.WellFormed
import TextLines.Proofs.Json.Unicode
import TextLines.Proofs.Report.Unicode
import TextLines.Proofs.Report.Slugs
import TextLines.Proofs.Report.Saving
import TextLines.Proofs.Report.Repeating
import TextLines.Proofs.Files.Endings
import TextLines.Proofs.Report.Tallying
import TextLines.Proofs.Document.Lending
import TextLines.Proofs.Report.Spelling
import TextLines.Proofs.CommandLine.Naming
import TextLines.Proofs.Charset.Buffering
