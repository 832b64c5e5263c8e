import FlatSelect.Kind
import FlatSelect.Kind.Set
import FlatSelect.Error
import FlatSelect.Expr
import FlatSelect.Tree.Basic
import FlatSelect.Tree.Build
import FlatSelect.Column.Glob
import FlatSelect.Column.List
import FlatSelect.Column.Search
import FlatSelect.Deviation
import FlatSelect.Lift
import FlatSelect.Normalization
import FlatSelect.Text.Blank
import FlatSelect.Pipeline
import FlatSelect.Expr.Json
import FlatSelect.Json.Printer
import FlatSelect.Json.Reader
import FlatSelect.Settings.Json
import FlatSelect.Settings.Toml
import FlatSelect.CommandLine
import FlatSelect.Main
import FlatSelect.Proofs.Meaning
import FlatSelect.Proofs.Restless
import FlatSelect.Proofs.Regular
import FlatSelect.Proofs.Links
import FlatSelect.Proofs.Inlining
import FlatSelect.Proofs.Intact
import FlatSelect.Proofs.Consistent
import FlatSelect.Proofs.Obstacles
import FlatSelect.Proofs.Relations
import FlatSelect.Proofs.Predicates
import FlatSelect.Proofs.Reloading
import FlatSelect.Proofs.References
import FlatSelect.Proofs.Interchange
import FlatSelect.Proofs.Renumbering
import FlatSelect.Proofs.Atomicity
import FlatSelect.Proofs.Unaliased
import FlatSelect.Proofs.Printable
import FlatSelect.Proofs.JsonText
import FlatSelect.Proofs.Encoding
import FlatSelect.Proofs.Listing
import FlatSelect.Proofs.Columnless
import FlatSelect.Proofs.Rotation
import FlatSelect.Proofs.Intersection
import FlatSelect.Proofs.Canonical
import FlatSelect.Proofs.JoinedProjections
import FlatSelect.Proofs.Legible
import FlatSelect.Proofs.Postorder
import FlatSelect.Proofs.Compaction
import FlatSelect.Proofs.Acceptance
import FlatSelect.Proofs.Traversal
import FlatSelect.Proofs.Pieces
import FlatSelect.Proofs.LeafNames
