import Gearbox.Status.History
import Gearbox.Status.Finalisation
import Gearbox.Status.Atomic
import Gearbox.Interleaving.Along
import Gearbox.Status.Concurrency
import Gearbox.Status.Progress
import Gearbox.Status.Completion
import Gearbox.Worker.Failures
import Gearbox.Cancel.Handlers
import Gearbox.Interleaving.Except
import Gearbox.Cancel.Watch
import Gearbox.Cancel.Launch
import Gearbox.Cancel.Recovery
import Gearbox.Delay.Processor
import Gearbox.Agents.Pipeline
import Gearbox.Agents.Plan
import Gearbox.Agents.Barrier
import Gearbox.Assoc.Ordered
import Gearbox.Assoc.Sorted
import Gearbox.Json.Tree
import Gearbox.Json.Schema
import Gearbox.Json.Parser
import Gearbox.Json.Validate
import Gearbox.Json.Conform
import Gearbox.Json.Copy
import Gearbox.Json.Order
import Gearbox.Json.Growth
import Gearbox.Json.Store
import Gearbox.Json.Checks
import Gearbox.Json.Selection
import Gearbox.Json.Validated
import Gearbox.Json.Parsed
import Gearbox.Json.Documents
import Gearbox.Json.Exceptions
import Gearbox.Json.Text
import Gearbox.Json.Uses
import Gearbox.Json.Agreement
import Gearbox.Json.Filling
import Gearbox.Json.Numbers
import Gearbox.Delay.Daemon
import Gearbox.Delay.Wakeup
import Gearbox.Texts.Cut
import Gearbox.Job.Job
import Gearbox.Config.File
import Gearbox.Config.Merge
import Gearbox.Config.Builder
import Gearbox.Job.Schemas
import Gearbox.Job.Request
import Gearbox.Job.Envelope
import Gearbox.Worker.RunJob
import Gearbox.Json.Parents
import Gearbox.Json.RoundTrip
import Gearbox.Json.Links
import Gearbox.Json.Restrict
import Gearbox.Json.Accept
import Gearbox.Uri.Canonical
import Gearbox.Status.Resource
import Gearbox.Status.Gateway
import Gearbox.Status.Published
import Gearbox.Status.Resync
import Gearbox.Json.Conversion
import Gearbox.Json.Normal
import Gearbox.Agents.Layers
import Gearbox.Agents.Run
import Gearbox.Agents.Rest
import Gearbox.Agents.Config
import Gearbox.Service.Builder
import Gearbox.Job.Accepted
import Gearbox.Job.Decode
import Gearbox.Job.Transit
import Gearbox.Job.RoundTrip
import Gearbox.Job.Hop
import Gearbox.Job.Caches
import Gearbox.Ids.Base32
import Gearbox.Ids.Uuid
import Gearbox.Shell.Quote
import Gearbox.Uri.Path
import Gearbox.Uri.Components
import Gearbox.Uri.Fixpoint
import Gearbox.Status.Parent
import Gearbox.Json.Equality
import Gearbox.Json.Handlers
import Gearbox.Refinement.Retry
import Gearbox.Status.Tables
import Gearbox.Status.Stored
import Gearbox.Status.Lazy
import Gearbox.Http.Client
import Gearbox.Worker.Propagation
import Gearbox.Worker.Counter
import Gearbox.Worker.Afterwards
import Gearbox.Status.ReadBack
import Gearbox.Interleaving.Interpret
import Gearbox.Cancel.Stop
import Gearbox.Refinement.Assigns
import Gearbox.Job.BaseUri
import Gearbox.Job.Matrix
import Gearbox.Rewriting.Words
import Gearbox.Service.Tokens
import Gearbox.Service.Substitution
import Gearbox.Refinement.Fails
import Gearbox.Json.Roots
import Gearbox.Json.Nesting
import Gearbox.Json.Cursors
import Gearbox.Json.Faults
import Gearbox.Json.Assertions
import Gearbox.Texts.Escape
import Gearbox.Refinement.Ladder
import Gearbox.Migration.Setup
import Gearbox.Migration.History
import Gearbox.Migration.Killed
import Gearbox.Worker.Hops
import Gearbox.Worker.Registry
import Gearbox.Store.Connection
import Gearbox.Store.ConnectionString
import Gearbox.Http.Headers
import Gearbox.Rest.Client
import Gearbox.Interleaving.Watched
import Gearbox.Rest.Verdict
import Gearbox.Interleaving.Steady
import Gearbox.Delay.Blocked
import Gearbox.Status.Listing
import Gearbox.Refinement.Ensures
import Gearbox.Plugin.Cache
import Gearbox.Plugin.Objects
import Gearbox.Plugin.Handed
