import Clockchain.Programs
import Clockchain.Maps
import Clockchain.Kernel
import Clockchain.History
import Clockchain.Suppression
import Clockchain.Embedding
import Clockchain.Queues
import Clockchain.Reads
import Clockchain.Search
import Clockchain.Trails
import Clockchain.Codec
import Clockchain.Frames
import Clockchain.Json
import Clockchain.V1.Wire
import Clockchain.V1.Encoding
import Clockchain.V1.Receipt
import Clockchain.V1.Rule
import Clockchain.V1.Status
import Clockchain.V1.Authority
import Clockchain.V1.Revisions
import Clockchain.V1.Admission
import Clockchain.V1.Edges
import Clockchain.V1.Store
import Clockchain.V1.CanonicalRows
import Clockchain.V1.Snapshot
import Clockchain.V1.Projection
import Clockchain.V1.Support
import Clockchain.V1.Lineage
import Clockchain.V1.Provenance
import Clockchain.V1.Strata
import Clockchain.V1.Effects
import Clockchain.V1.Derivation
import Clockchain.V1.Cones
import Clockchain.V1.Selection
import Clockchain.V1.Evaluation
import Clockchain.V1.Classification
import Clockchain.V1.EdgeEvaluation
import Clockchain.V1.EdgeClassification
import Clockchain.V1.Reading
import Clockchain.V1.Frontiers
import Clockchain.V1.EdgeReading
import Clockchain.V1.Rows
import Clockchain.V1.Connections
import Clockchain.V1.Totality
import Clockchain.V1.Soundness
import Clockchain.V1.Revocation
import Clockchain.V1.Bodies
import Clockchain.V1.Extension
import Clockchain.V1.Arrival
import Clockchain.V1.Recovery
import Clockchain.V1.Pinning
import Clockchain.V1.Verdict
import Clockchain.V1.RoundTrip
import Clockchain.V1.Retention
import Clockchain.V1.Shapes
import Clockchain.V1.Observation
import Clockchain.V1.Restore
import Clockchain.V1.Replicas
import Clockchain.V1.Serving
import Clockchain.V1.Linearization
import Clockchain.V1.Publisher
import Clockchain.V1.Submission
import Clockchain.V1.Grants
import Clockchain.V1.Publishing
import Clockchain.V1.Acting
import Clockchain.V1.Inertness
import Clockchain.V1.Enactment
import Clockchain.V1.Aftermath
import Clockchain.Levels
import Clockchain.Anchor.Merkle
import Clockchain.Anchor.Shape
import Clockchain.Anchor.Inclusion
import Clockchain.Anchor.Consistency
import Clockchain.V0.Event
import Clockchain.BigEndian
import Clockchain.V0.Ticks
import Clockchain.V0.Canon
import Clockchain.Lineages
import Clockchain.Survivors
import Clockchain.Exact
import Clockchain.V0.Ledger
import Clockchain.V0.Payload
import Clockchain.V0.Projection
import Clockchain.V0.Folded
import Clockchain.V0.Applied
import Clockchain.V0.Rebuild
import Clockchain.V0.Agreement
import Clockchain.V0.Convergence
import Clockchain.V0.Refusals
import Clockchain.V0.Concurrent
import Clockchain.V0.Admission
import Clockchain.V0.Subjects
import Clockchain.V0.View
import Clockchain.V0.Filter
import Clockchain.V0.Certify
import Clockchain.V0.Reach
import Clockchain.V0.Snapshot
import Clockchain.V0.RecordSet
import Clockchain.V0.SnapshotView
import Clockchain.V0.Pinned
import Clockchain.Anchor.Store
import Clockchain.Anchor.Stream
import Clockchain.Anchor.Publishing
import Clockchain.V0.Document
import Clockchain.V0.Candidate
import Clockchain.V0.Publication
import Clockchain.V0.Chronology
import Clockchain.V1.Explanation
import Clockchain.Words
import Clockchain.V0.Gate
import Clockchain.V0.Identities
import Clockchain.Anchor.Stamp
import Clockchain.Anchor.Walk
import Clockchain.Anchor.Grammar
import Clockchain.Anchor.Once
import Clockchain.V1.Seal
import Clockchain.V1.Statements
import Clockchain.Gateway.Cache
import Clockchain.Gateway.Recency
import Clockchain.Gateway.Read
import Clockchain.Gateway.Fresh
import Clockchain.Operator.Python
import Clockchain.Operator.Seal
import Clockchain.Operator.Identity
import Clockchain.Operator.Json
import Clockchain.Operator.Log
import Clockchain.Operator.Runs
import Clockchain.Operator.Succession
import Clockchain.Operator.Chain
import Clockchain.Operator.Node
import Clockchain.Meters
import Clockchain.Gateway.Limiter
import Clockchain.Interleavings
import Clockchain.Operator.Budget
import Clockchain.Operator.Leases
import Clockchain.Operator.Images
import Clockchain.V0.Checked
import Clockchain.Merges
import Clockchain.Operator.Dedup
import Clockchain.Calendar
import Clockchain.V0.Calendars
import Clockchain.Decimals
import Clockchain.V1.Time
import Clockchain.Explorer.Time
import Clockchain.Anchor.Varuint
import Clockchain.Recursion
import Clockchain.Operator.Held
import Clockchain.V0.Coordinates
import Clockchain.Colouring
import Clockchain.V0.Colours
import Clockchain.Layers
import Clockchain.Explorer.Dag
import Clockchain.JsonNumbers
import Clockchain.Public.Node
import Clockchain.Public.Client
import Clockchain.Public.Hex
import Clockchain.Public.Decoding
import Clockchain.V1.Heads
import Clockchain.Public.Magnitudes
import Clockchain.Public.Summaries
import Clockchain.Public.Answers
import Clockchain.Public.Routes
import Clockchain.Public.Agreement
import Clockchain.Operator.CheckAdmission
import Clockchain.Verifier.Binding
import Clockchain.Verifier.Reproduction
import Clockchain.Explorer.Page
import Clockchain.Newest
import Clockchain.V1.Enactment
import Clockchain.V1.Aftermath
import Clockchain.V1.Resubmission
