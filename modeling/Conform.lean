import Conform.Entries
import Conform.Double
import Conform.Double.Rounding
import Conform.Double.Scaled
import Conform.Double.Shortest
import Conform.Double.Notation
import Conform.Text.Pictured
import Conform.Text.Quoted
import Conform.Text.Glyph
import Conform.BigInt
import Conform.Json
import Conform.Json.Token
import Conform.Json.Numeral
import Conform.Json.Scan
import Conform.Json.Read
import Conform.Json.Render
import Conform.Value
import Conform.Value.Equality
import Conform.Value.Export
import Conform.Schema
import Conform.Schema.Equality
import Conform.Schema.Draft
import Conform.Schema.Literal.Fault
import Conform.Schema.Literal.Decode
import Conform.Schema.Literal.Encode
import Conform.Schema.Literal.Text
import Conform.Check.Path
import Conform.Check.Rejection
import Conform.Check.Leaf
import Conform.Check.Traversal
import Conform.Check.Event
import Conform.Check
import Conform.Registry
import Conform.Proofs.Schema
import Conform.Proofs.Visit.Simulation
import Conform.Proofs.Visit.Made
import Conform.Proofs.Agreement
import Conform.Proofs.Entries
import Conform.Proofs.Conformance
import Conform.Proofs.Value
import Conform.Proofs.Parsed
import Conform.Proofs.Reparse
import Conform.Proofs.Site
import Conform.Proofs.Visit.Rejected
import Conform.Proofs.Rejections
import Conform.Proofs.RejectionOrder
import Conform.Proofs.Entries.Sorted
import Conform.Proofs.Json
import Conform.Proofs.Export
import Conform.Proofs.Trimmed
import Conform.Proofs.Literal.Members
import Conform.Proofs.Literal.Grammar
import Conform.Proofs.Construction
import Conform.Proofs.Literal.RoundTrip
import Conform.Proofs.Visit.Comparison
import Conform.Proofs.Reordering
import Conform.Proofs.Labels
import Conform.Proofs.Edits
import Conform.Proofs.Widening
import Conform.Proofs.Alternatives
import Conform.Proofs.Text.Bytes
import Conform.Proofs.Registry.Runs
import Conform.Proofs.Registry.Payloads
import Conform.Proofs.Construction.Blueprints
import Conform.Proofs.Json.Tokens
import Conform.Proofs.Json.Streams
import Conform.Proofs.Literal.Text
import Conform.Proofs.Literal.Repeats
import Conform.Proofs.Literal.Collected
import Conform.Proofs.BigInt
import Conform.Proofs.Origins
import Conform.Proofs.Json.Equality
import Conform.Proofs.Literal.Canonical
import Conform.Proofs.Literal.Alike
import Conform.Proofs.Double.Decimal
import Conform.Proofs.Double.Scaled
import Conform.Proofs.Json.Numerals
import Conform.Proofs.Json.Rendering
import Conform.Proofs.Literal.Printed
import Conform.Proofs.FixedLength
import Conform.Proofs.RejectionCodes
import Conform.Proofs.Visit.WorkingPath
import Conform.Proofs.Construction.Calls
import Conform.Proofs.BigInt.Narrowing
import Conform.Proofs.Pointers
import Conform.Proofs.Encoding
import Conform.Proofs.Visit.Stops
import Conform.Proofs.Misses
import Conform.Proofs.Import
import Conform.Proofs.EqualityLaws
