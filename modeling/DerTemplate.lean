import DerTemplate.Canonical.Output
import DerTemplate.Decoding.Walk
import DerTemplate.Encoding.Output
import DerTemplate.Header.Identifier
import DerTemplate.Oid.Dotted
import DerTemplate.Proofs.Bytes.Digits
import DerTemplate.Proofs.Bytes.Window
import DerTemplate.Proofs.Bytes.Edits
import DerTemplate.Proofs.Content.BitString
import DerTemplate.Proofs.Content.Integer
import DerTemplate.Proofs.Header.Identifier
import DerTemplate.Proofs.Header.Length
import DerTemplate.Proofs.Oid.Known
import DerTemplate.Proofs.Schema.Forest
import DerTemplate.Proofs.Schema.Position
import DerTemplate.Proofs.Schema.Place
import DerTemplate.Proofs.Schema.Siblings
import DerTemplate.Proofs.Schema.Roots
import DerTemplate.Proofs.Encoding.Stencil
import DerTemplate.Proofs.Encoding.Tree
import DerTemplate.Proofs.Encoding.Layout
import DerTemplate.Proofs.Encoding.Measure
import DerTemplate.Proofs.Encoding.Sizing
import DerTemplate.Proofs.Encoding.FirstPass
import DerTemplate.Proofs.Encoding.Writing
import DerTemplate.Proofs.Encoding.TwoPass
import DerTemplate.Proofs.Encoding.Items
import DerTemplate.Proofs.Decoding.Descent
import DerTemplate.Proofs.Decoding.Item
import DerTemplate.Proofs.Decoding.Steps
import DerTemplate.Proofs.Decoding.Visit
import DerTemplate.Proofs.Decoding.Standing
import DerTemplate.Proofs.Decoding.Simulation
import DerTemplate.Proofs.Decoding.Arrangement
import DerTemplate.Proofs.Decoding.Presence
import DerTemplate.Proofs.Decoding.Tiling
import DerTemplate.Proofs.RoundTrip.Value
import DerTemplate.Proofs.RoundTrip.Item
import DerTemplate.Proofs.RoundTrip.Tree
import DerTemplate.Proofs.RoundTrip.Session
import DerTemplate.Proofs.Canonical.Tree
import DerTemplate.Proofs.Canonical.Books
import DerTemplate.Proofs.Canonical.Frames
import DerTemplate.Proofs.Canonical.Fragments
import DerTemplate.Proofs.Canonical.Reading
import DerTemplate.Proofs.Canonical.Parsing
import DerTemplate.Proofs.Canonical.Lookup
import DerTemplate.Proofs.Canonical.Sink
import DerTemplate.Proofs.Canonical.Copying
import DerTemplate.Proofs.Canonical.Conversion
import DerTemplate.Proofs.Canonical.FixedPoints
import DerTemplate.Proofs.Encoding.CanonicalForm
import DerTemplate.Proofs.Canonical.Relength
import DerTemplate.Proofs.Decoding.Converted
import DerTemplate.Proofs.Encoding.Sizable
import DerTemplate.Proofs.Encoding.Choices
import DerTemplate.Proofs.Encoding.ChoiceCheck
import DerTemplate.Proofs.Encoding.Recheck
import DerTemplate.Proofs.Encoding.Revisions
import DerTemplate.Proofs.RoundTrip.Reencoding
import DerTemplate.Proofs.Outcome
import DerTemplate.Proofs.Header.Safety
import DerTemplate.Proofs.Decoding.Safety
import DerTemplate.Proofs.Decoding.Reuse
import DerTemplate.Proofs.Canonical.Weight
import DerTemplate.Proofs.Canonical.Agreement
import DerTemplate.Proofs.Canonical.Merging
import DerTemplate.Proofs.Encoding.Location
import DerTemplate.Proofs.Encoding.StrictContent
import DerTemplate.Proofs.Encoding.Placeholders
import DerTemplate.Proofs.Decoding.Leaf
import DerTemplate.Proofs.RoundTrip.Leaf
import DerTemplate.Proofs.Encoding.Streaming
import DerTemplate.Proofs.Decoding.Completion
import DerTemplate.Proofs.Decoding.Locality
import DerTemplate.Proofs.Encoding.Rounds
import DerTemplate.Proofs.Decoding.Relaxing
import DerTemplate.Proofs.Decoding.LeadingZeros
import DerTemplate.Proofs.Decoding.OidSum
import DerTemplate.Proofs.Encoding.Overflow
import DerTemplate.Proofs.RoundTrip.OneLeaf
import DerTemplate.Proofs.RoundTrip.Numbers
import DerTemplate.Proofs.Encoding.Widening
import DerTemplate.Proofs.RoundTrip.Widths
import DerTemplate.Proofs.RoundTrip.KnownOid
import DerTemplate.Proofs.Oid.Groups
import DerTemplate.Proofs.Oid.Dotted
import DerTemplate.Proofs.Schema.Kinship
import DerTemplate.Proofs.Canonical.Inherent
import DerTemplate.Proofs.Canonical.History
