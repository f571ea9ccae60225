import FastK.Lib.Search
import FastK.Lib.Sampled
import FastK.Lib.Spans
import FastK.Lib.Components
import FastK.Lib.Ranges
import FastK.Lib.Versioned
import FastK.Lib.Contended
import FastK.Lib.Journal
import FastK.Lib.Triples
import FastK.Lib.Calendar
import FastK.Lib.Text
import FastK.Lib.Transitions
import FastK.Lib.Tables
import FastK.Lib.Codec
import FastK.Lib.Slots
import FastK.Lib.Digests
import FastK.Lib.SecondChance
import FastK.Types
import FastK.Records
import FastK.Bytes
import FastK.Path
import FastK.Chunk
import FastK.ManifestCodec
import FastK.ChunkCodec
import FastK.Reader
import FastK.Index
import FastK.SeriesDir
import FastK.SeriesReader
import FastK.Latest
import FastK.Query
import FastK.Replay
import FastK.Manifest
import FastK.Recovery
import FastK.Store
import FastK.Writes
import FastK.Content
import FastK.Repair
import FastK.Edits
import FastK.Traces
import FastK.Restart
import FastK.Rerun
import FastK.Listing
import FastK.Commits
import FastK.ScalarWrites
import FastK.KlineWrites
import FastK.Rows
import FastK.TickWrites
import FastK.Good
import FastK.Batches
import FastK.Runs
import FastK.Names
import FastK.Invariants
import FastK.RecordTypes
import FastK.Merges
import FastK.Handles
import FastK.Interrupted
import FastK.TickStops
import FastK.Appends
import FastK.Pieces
import FastK.Legacy
import FastK.ManifestCache
import FastK.Inspection
import FastK.Frames
import FastK.Temps
import FastK.Validation
import FastK.Migration
import FastK.Lib.Walk
import FastK.Discovery
import FastK.Crashes
import FastK.Preview
import FastK.Overlaps
import FastK.Lookup
import FastK.Registry
import FastK.Parallel
import FastK.Replacement
import FastK.Timestamps
import FastK.Snapshot
import FastK.Sealing
import FastK.SealedRuns
import FastK.TickRanges
import FastK.Atomicity
import FastK.ScalarStops
import FastK.KlineStops
import FastK.Reports
import FastK.Accounting
import FastK.Sequences
import FastK.Damage
import FastK.HeaderVersions
import FastK.Scoped
import FastK.Splits
import FastK.FileCache
import FastK.Offsets
import FastK.Bridge
import FastK.Writers
import FastK.IndexRanges
import FastK.CutRows
import FastK.Lib.Recency
import FastK.SidecarCache
import FastK.SealedRoots
import FastK.Rebuild
import FastK.Isolation
import FastK.Leftovers
import FastK.Transport
import FastK.SessionClient
import FastK.SessionLink
import FastK.SessionSafety
import FastK.SessionRuns
import FastK.Locks
import FastK.Inventory
import FastK.CommandLine
import FastK.BridgeReads
