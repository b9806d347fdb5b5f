import Rivulet.Decimal.Notation
import Rivulet.Decimal.Shortest
import Rivulet.Document.Basic
import Rivulet.Document.Fragment
import Rivulet.Document.Values
import Rivulet.Engine.Clock
import Rivulet.Engine.Disposal
import Rivulet.Engine.Drawing
import Rivulet.Engine.Effects
import Rivulet.Engine.Inspection
import Rivulet.Engine.Interpreter
import Rivulet.Engine.Machine
import Rivulet.Engine.Mounting
import Rivulet.Engine.Ownership
import Rivulet.Engine.Queries
import Rivulet.Engine.Refresh
import Rivulet.Engine.Rendering
import Rivulet.Engine.Resolving
import Rivulet.Engine.Scheduling
import Rivulet.Engine.Server
import Rivulet.Engine.State
import Rivulet.Graph.Basic
import Rivulet.Graph.Propagation
import Rivulet.Graph.Queue
import Rivulet.Hydration.Cursor
import Rivulet.Hydration.Report
import Rivulet.Json.Basic
import Rivulet.Json.Parser
import Rivulet.Json.Printer
import Rivulet.Json.Raw
import Rivulet.Markup.Entity
import Rivulet.Markup.Parser
import Rivulet.Markup.Printer
import Rivulet.Markup.Token
import Rivulet.Markup.Tree
import Rivulet.MessagePack.Packed
import Rivulet.MessagePack.Value
import Rivulet.Program
import Rivulet.Proofs.Batching.Agreeing
import Rivulet.Proofs.Batching.Flushing
import Rivulet.Proofs.Batching.Founding
import Rivulet.Proofs.Converging.Denoting
import Rivulet.Proofs.Converging.Exact
import Rivulet.Proofs.Disposal.Once
import Rivulet.Proofs.Disposal.Orderly
import Rivulet.Proofs.Document.Arena
import Rivulet.Proofs.Document.Edits
import Rivulet.Proofs.Document.Gaining
import Rivulet.Proofs.Document.Planting
import Rivulet.Proofs.Document.Replacing
import Rivulet.Proofs.Document.RoundTrip
import Rivulet.Proofs.Drafting.Creating
import Rivulet.Proofs.Drafting.Mounting
import Rivulet.Proofs.Drafting.Sketching
import Rivulet.Proofs.Drafting.Vouching
import Rivulet.Proofs.Errors.Delivering
import Rivulet.Proofs.Fetching.Asking
import Rivulet.Proofs.Fetching.Handing
import Rivulet.Proofs.Fetching.Interpreting
import Rivulet.Proofs.Fetching.Minding
import Rivulet.Proofs.Fetching.Querying
import Rivulet.Proofs.Fetching.Resolving
import Rivulet.Proofs.Fetching.Running
import Rivulet.Proofs.Fetching.Sequences
import Rivulet.Proofs.Flushing.Returning
import Rivulet.Proofs.Flushing.Settling
import Rivulet.Proofs.Graph.BreadthFirst
import Rivulet.Proofs.Graph.Edges
import Rivulet.Proofs.Graph.Propagation
import Rivulet.Proofs.Graph.Subscribing
import Rivulet.Proofs.Hydration.Brackets
import Rivulet.Proofs.Hydration.Fragments
import Rivulet.Proofs.Hydration.Imprints
import Rivulet.Proofs.Invariants.Wired
import Rivulet.Proofs.Json.RoundTrip
import Rivulet.Proofs.Markup.Faults
import Rivulet.Proofs.Markup.Opening
import Rivulet.Proofs.Markup.RoundTrip
import Rivulet.Proofs.Markup.Scanning
import Rivulet.Proofs.Markup.Token
import Rivulet.Proofs.Markup.Tolerant
import Rivulet.Proofs.MessagePack.RoundTrip
import Rivulet.Proofs.Query.Codecs
import Rivulet.Proofs.Query.Frames
import Rivulet.Proofs.Query.Page
import Rivulet.Proofs.Query.Storing
import Rivulet.Proofs.Racing.Conserving
import Rivulet.Proofs.Racing.Rendering
import Rivulet.Proofs.Reactive.Acting
import Rivulet.Proofs.Reactive.Calm
import Rivulet.Proofs.Reactive.Computing
import Rivulet.Proofs.Reactive.Creating
import Rivulet.Proofs.Reactive.Disposing
import Rivulet.Proofs.Reactive.Ending
import Rivulet.Proofs.Reactive.Evaluation
import Rivulet.Proofs.Reactive.Keeping
import Rivulet.Proofs.Reactive.Persistence
import Rivulet.Proofs.Reactive.Reacting
import Rivulet.Proofs.Reactive.Reading
import Rivulet.Proofs.Reactive.Ready
import Rivulet.Proofs.Reactive.Recompute
import Rivulet.Proofs.Reactive.Settling
import Rivulet.Proofs.Reactive.Sound
import Rivulet.Proofs.Reactive.Writing
import Rivulet.Proofs.Recomputing.Minimal
import Rivulet.Proofs.Text.Positions
import Rivulet.Proofs.Tracking.Nesting
import Rivulet.Proofs.Unwinding.Restoring
import Rivulet.Query.Cache
import Rivulet.Query.Options
import Rivulet.Query.Payload
import Rivulet.Query.Plan
import Rivulet.Query.Prefetch
import Rivulet.Query.Shape
import Rivulet.Scopes
import Rivulet.Script.Basic
import Rivulet.Script.Compile
import Rivulet.Script.Function
import Rivulet.Script.Reader
import Rivulet.Script.Session
import Rivulet.Text.Plain
import Rivulet.Text.Search
import Rivulet.Tracking
