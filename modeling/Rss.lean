import Rss.Library.Ascii
import Rss.Library.Base64
import Rss.Library.Chains
import Rss.Library.Fallible
import Rss.Library.Json
import Rss.Library.Sql
import Rss.Library.Query
import Rss.Library.Checks
import Rss.Library.Chronicle
import Rss.Library.Entries
import Rss.Library.Framing
import Rss.Library.Grammar
import Rss.Library.Hexadecimal
import Rss.Library.Runs
import Rss.Library.Locking
import Rss.Library.Prefixes
import Rss.Library.Ranking
import Rss.Library.Sorting
import Rss.Library.Spans
import Rss.Library.Table
import Rss.Library.Tilings
import Rss.Model.Amqp.Transport
import Rss.Model.Messaging.Outcome
import Rss.Model.Amqp.Publish
import Rss.Model.Contract.Identity
import Rss.Model.Contract.Cursor
import Rss.Model.Contract.Pattern
import Rss.Model.DeviceCommand.Command
import Rss.Model.DeviceCommand.Schema
import Rss.Model.DeviceCommand.Store
import Rss.Model.Messaging.Fence
import Rss.Model.Messaging.Inbox
import Rss.Model.Messaging.Consumer
import Rss.Model.Messaging.Backoff
import Rss.Model.Messaging.Envelope
import Rss.Model.Messaging.Relay
import Rss.Model.Mqtt.Client
import Rss.Model.Mqtt.Codec
import Rss.Model.Mqtt.Driver
import Rss.Model.Observation.State
import Rss.Model.Observation.Journal
import Rss.Model.Observation.Encoding
import Rss.Model.Observation.Text
import Rss.Model.Outbox.Store
import Rss.Model.Outbox.Delivery
import Rss.Model.Outbox.Recovery
import Rss.Model.Outbox.Projection
import Rss.Model.Projection.Runner
import Rss.Model.Projection.Store
import Rss.Model.Reconcile.Policy
import Rss.Model.Reconcile.Store
import Rss.Model.Runtime.Shutdown
import Rss.Model.Saga.Definition
import Rss.Model.Saga.Progress
import Rss.Model.Saga.Snapshot
import Rss.Model.Saga.Sweep
import Rss.Model.SagaPostgres.History
import Rss.Model.SagaPostgres.Store
import Rss.Model.SagaPostgres.Candidates
import Rss.Model.SagaPostgres.Wire
import Rss.Model.Timeseries.Sample
import Rss.Model.Timeseries.Aggregate
import Rss.Model.Timeseries.Lifecycle
import Rss.Model.TimeseriesClickhouse.Aggregate
import Rss.Model.TimeseriesPostgres.Store
import Rss.Model.TimeseriesPostgres.Aggregate
import Rss.Model.TimeseriesPostgres.Write
import Rss.Model.TimeseriesPostgres.Maintain
import Rss.Model.TimeseriesPostgres.Cursor
import Rss.Verification.Amqp.Generations
import Rss.Verification.Amqp.Honesty
import Rss.Verification.Amqp.Recovery
import Rss.Verification.Contract.Identity
import Rss.Verification.Contract.Grammar
import Rss.Verification.Contract.Versions
import Rss.Verification.Contract.Cursor
import Rss.Verification.DeviceCommand.Reducer
import Rss.Verification.DeviceCommand.Operations
import Rss.Verification.DeviceCommand.Supersession
import Rss.Verification.DeviceCommand.Authority
import Rss.Verification.DeviceCommand.Rows
import Rss.Verification.DeviceCommand.Snapshots
import Rss.Verification.DeviceCommand.Histories
import Rss.Verification.DeviceCommand.Isolation
import Rss.Verification.Messaging.Delays
import Rss.Verification.Messaging.Envelope
import Rss.Verification.Messaging.Fingerprint
import Rss.Verification.Messaging.InboxOnce
import Rss.Verification.Messaging.Relay
import Rss.Verification.Messaging.Settlement
import Rss.Verification.Mqtt.Publications
import Rss.Verification.Mqtt.Admissions
import Rss.Verification.Mqtt.Codec
import Rss.Verification.Mqtt.Outstanding
import Rss.Verification.Mqtt.Settlements
import Rss.Verification.Observation.Chain
import Rss.Verification.Observation.Coherence
import Rss.Verification.Observation.Encoding
import Rss.Verification.Observation.Journal
import Rss.Verification.Observation.Restore
import Rss.Verification.Outbox.Keys
import Rss.Verification.Outbox.Reachable
import Rss.Verification.Outbox.Candidates
import Rss.Verification.Outbox.Claiming
import Rss.Verification.Outbox.Statuses
import Rss.Verification.Outbox.Readback
import Rss.Verification.Outbox.Quiet
import Rss.Verification.Outbox.Wakeup
import Rss.Verification.Outbox.Decisions
import Rss.Verification.Projection.EffectOnce
import Rss.Verification.Projection.Runner
import Rss.Verification.Projection.Repeats
import Rss.Verification.Reconcile.Delays
import Rss.Verification.Reconcile.Effects
import Rss.Verification.Reconcile.Exclusion
import Rss.Verification.Reconcile.Waiting
import Rss.Verification.Reconcile.Wake
import Rss.Verification.Runtime.Findings
import Rss.Verification.Runtime.Invariant
import Rss.Verification.Runtime.Receipt
import Rss.Verification.Saga.Transition
import Rss.Verification.Saga.Reservation
import Rss.Verification.Saga.Journal
import Rss.Verification.Saga.Replay
import Rss.Verification.Saga.Sweep
import Rss.Verification.SagaPostgres.Encoding
import Rss.Verification.SagaPostgres.Refinement
import Rss.Verification.SagaPostgres.Commit
import Rss.Verification.SagaPostgres.Discovery
import Rss.Verification.SagaPostgres.Integrity
import Rss.Verification.SagaPostgres.Sweep
import Rss.Verification.Timeseries.Statistics
import Rss.Verification.Timeseries.Chained
import Rss.Verification.Timeseries.Points
import Rss.Verification.Timeseries.Counters
import Rss.Verification.Timeseries.Evolution
import Rss.Verification.Timeseries.Gauge
import Rss.Verification.Timeseries.Merge
import Rss.Verification.Timeseries.States
import Rss.Verification.TimeseriesPostgres.Ledger
import Rss.Verification.TimeseriesPostgres.Upkeep
import Rss.Verification.TimeseriesPostgres.Admission
import Rss.Verification.TimeseriesPostgres.Coverage
import Rss.Verification.TimeseriesClickhouse.Coverage
import Rss.Verification.TimeseriesPostgres.Folding
import Rss.Verification.TimeseriesPostgres.Reads
import Rss.Verification.TimeseriesPostgres.Recomputation
import Rss.Verification.TimeseriesPostgres.Resumption
import Rss.Verification.TimeseriesPostgres.Announcements
import Rss.Verification.TimeseriesPostgres.Catalogue
import Rss.Verification.TimeseriesPostgres.Plans
import Rss.Verification.TimeseriesPostgres.Steps
