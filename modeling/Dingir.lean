import Dingir.Lib.Channel
import Dingir.Lib.Greedy
import Dingir.Lib.Grouping
import Dingir.Lib.Guarded
import Dingir.Lib.Heap
import Dingir.Lib.Keyed
import Dingir.Lib.Lockstep
import Dingir.Lib.Mantissa
import Dingir.Lib.Outcome
import Dingir.Lib.Paging
import Dingir.Lib.Partition
import Dingir.Lib.Posting
import Dingir.Lib.Prefix
import Dingir.Lib.Rounding
import Dingir.Lib.Service
import Dingir.Lib.Sql
import Dingir.Lib.Stream
import Dingir.Lib.Table
import Dingir.Proof.Access
import Dingir.Proof.Agreement
import Dingir.Proof.AssetIds
import Dingir.Proof.Assets
import Dingir.Proof.Atomic
import Dingir.Proof.Backing
import Dingir.Proof.Batch
import Dingir.Proof.Book
import Dingir.Proof.Budget
import Dingir.Proof.Bystander
import Dingir.Proof.CancelAll
import Dingir.Proof.Columns
import Dingir.Proof.Complete
import Dingir.Proof.Conservation
import Dingir.Proof.Crash
import Dingir.Proof.Database
import Dingir.Proof.Depth
import Dingir.Proof.Desk
import Dingir.Proof.Dispatcher
import Dingir.Proof.DumpRecords
import Dingir.Proof.Duplicate
import Dingir.Proof.EntryPoints
import Dingir.Proof.Events
import Dingir.Proof.Exact
import Dingir.Proof.Exchange
import Dingir.Proof.Execution
import Dingir.Proof.Filing
import Dingir.Proof.Filter
import Dingir.Proof.FinalStatus
import Dingir.Proof.Frame
import Dingir.Proof.Grids
import Dingir.Proof.Halting
import Dingir.Proof.Handler
import Dingir.Proof.Handles
import Dingir.Proof.Headroom
import Dingir.Proof.History
import Dingir.Proof.HistoryWriter
import Dingir.Proof.Ids
import Dingir.Proof.InPlace
import Dingir.Proof.Index
import Dingir.Proof.Journal
import Dingir.Proof.Ledger
import Dingir.Proof.Limit
import Dingir.Proof.LogPrefix
import Dingir.Proof.Lookup
import Dingir.Proof.Match
import Dingir.Proof.Models
import Dingir.Proof.Moves
import Dingir.Proof.Once
import Dingir.Proof.Persist
import Dingir.Proof.Pipeline
import Dingir.Proof.Placeholders
import Dingir.Proof.Priority
import Dingir.Proof.Producer
import Dingir.Proof.PutRun
import Dingir.Proof.Query
import Dingir.Proof.Range
import Dingir.Proof.Reach
import Dingir.Proof.Record
import Dingir.Proof.Recovery
import Dingir.Proof.Relay
import Dingir.Proof.Reload
import Dingir.Proof.Replay
import Dingir.Proof.Resume
import Dingir.Proof.Rounds
import Dingir.Proof.Server
import Dingir.Proof.Settle
import Dingir.Proof.Sides
import Dingir.Proof.SimpleStream
import Dingir.Proof.Sized
import Dingir.Proof.Slices
import Dingir.Proof.Solvency
import Dingir.Proof.Story
import Dingir.Proof.Summary
import Dingir.Proof.Symbols
import Dingir.Proof.Telling
import Dingir.Proof.Ticker
import Dingir.Proof.Tracing
import Dingir.Proof.Tracker
import Dingir.Proof.Twin
import Dingir.Proof.UnifiedStream
import Dingir.Proof.Venue
import Dingir.Proof.Writer
import Dingir.Spec.Asset
import Dingir.Spec.Authentication
import Dingir.Spec.Columns
import Dingir.Spec.Controller
import Dingir.Spec.Database
import Dingir.Spec.Depth
import Dingir.Spec.Events
import Dingir.Spec.Exchange
import Dingir.Spec.Handler
import Dingir.Spec.History
import Dingir.Spec.HistoryWriter
import Dingir.Spec.InsertTable
import Dingir.Spec.Journal
import Dingir.Spec.LogSender
import Dingir.Spec.Market
import Dingir.Spec.MessageScheme
import Dingir.Spec.Models
import Dingir.Spec.Order
import Dingir.Spec.Persist
import Dingir.Spec.Pipeline
import Dingir.Spec.Producer
import Dingir.Spec.Query
import Dingir.Spec.Range
import Dingir.Spec.Reload
import Dingir.Spec.Run
import Dingir.Spec.Sample
import Dingir.Spec.Server
import Dingir.Spec.Snapshot
import Dingir.Spec.Symbols
import Dingir.Spec.Ticker
import Dingir.Spec.Tracker
import Dingir.Spec.Types
import Dingir.Spec.Update
import Dingir.Spec.Writer
