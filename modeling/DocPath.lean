import DocPath.Main
import DocPath.Path.Grammar
import DocPath.Path.Pattern
import DocPath.Value.Similar
import DocPath.Value.Shape
import DocPath.Value.Redaction
import DocPath.Template.Language
import DocPath.Directory.Interruption
import DocPath.Proofs.Path.Grammar
import DocPath.Proofs.Path.Printer
import DocPath.Proofs.Path.Index
import DocPath.Proofs.Value.Slot
import DocPath.Proofs.Value.Write
import DocPath.Proofs.Value.Series
import DocPath.Proofs.Value.Induction
import DocPath.Proofs.Value.Strip
import DocPath.Proofs.Path.Pattern
import DocPath.Proofs.Value.Redaction
import DocPath.Proofs.Value.Merge
import DocPath.Proofs.Value.Layers
import DocPath.Proofs.Value.StripMerge
import DocPath.Proofs.Value.MergePlace
import DocPath.Proofs.Value.MergedRead
import DocPath.Proofs.Template.Language
import DocPath.Proofs.Template.Scanner
import DocPath.Proofs.Template.Encoding
import DocPath.Proofs.Template.Address
import DocPath.Proofs.Value.Observation
import DocPath.Proofs.Value.Regular
import DocPath.Proofs.Value.Similar
import DocPath.Proofs.Directory.Save
import DocPath.Proofs.Directory.Interruption
import DocPath.Proofs.Gzip.RoundTrip
import DocPath.Proofs.FileName
import DocPath.Proofs.Json.Number
import DocPath.Proofs.Json.RoundTrip
import DocPath.Proofs.Document.RoundTrip
import DocPath.Proofs.Document.Saved
import DocPath.Proofs.Json.Regular
import DocPath.Proofs.Yaml.Regular
import DocPath.Proofs.Document.Computed
import DocPath.Proofs.Binary64.Rounding
import DocPath.Proofs.Binary64.Shortest
import DocPath.Proofs.Binary64.Decimal
import DocPath.Proofs.Path.Shortest
import DocPath.Proofs.Value.Overwrite
import DocPath.Proofs.Value.InPlace
import DocPath.Proofs.Value.Commute
import DocPath.Proofs.Path.Error
import DocPath.Proofs.Path.Expectation
import DocPath.Proofs.CommandLine.Outcome
import DocPath.Proofs.Value.Growth
import DocPath.Proofs.Value.Leaf
import DocPath.Proofs.Value.StrippedRead
import DocPath.Proofs.Value.Passes
import DocPath.Proofs.Value.Removal
import DocPath.Proofs.Value.Reapply
import DocPath.Proofs.Document.Interrupted
import DocPath.Proofs.Directory.Making
import DocPath.Proofs.Toml.Character
import DocPath.Proofs.Toml.Text
import DocPath.Proofs.Toml.Value
import DocPath.Proofs.Toml.Document
import DocPath.Proofs.Config.Saved
