import Drevo.Lib.Index
import Drevo.Lib.Sorted
import Drevo.Core.Model
import Drevo.Core.Inner
import Drevo.Core.Mutate
import Drevo.Core.Replay
import Drevo.Core.Adjacency
import Drevo.Core.Graph
import Drevo.Core.Wf
import Drevo.Core.Agree
import Drevo.Core.Frame
import Drevo.Core.Conflict
import Drevo.Lib.GroupCommit
import Drevo.Core.Engine
import Drevo.Core.Merge
import Drevo.Core.System
import Drevo.Core.Effect
import Drevo.Core.Invariant
import Drevo.Core.Integrity
import Drevo.Core.Snapshot
import Drevo.Core.Constraints
import Drevo.Core.Ledger
import Drevo.Core.TwoPhase
import Drevo.Core.DirectWrites
import Drevo.Core.Reads
import Drevo.Core.Follow
import Drevo.Core.Dump
import Drevo.Core.Ids
import Drevo.Lib.Feed
import Drevo.Lib.I64
import Drevo.Core.Source
import Drevo.Core.Flow
import Drevo.Core.Replica
import Drevo.Wal.Format
import Drevo.Wal.Replay
import Drevo.Wal.Sealed
import Drevo.Wal.Lines
import Drevo.Wal.Crash
import Drevo.Wal.Value
import Drevo.Wal.Compact
import Drevo.Wal.Codec
import Drevo.Wal.Tail
import Drevo.Lib.BigEndian
import Drevo.Bolt.Message
import Drevo.Bolt.PackStream
import Drevo.Bolt.Chunked
import Drevo.Bolt.Service
import Drevo.Bolt.Session
import Drevo.Bolt.Auth
import Drevo.Bolt.Loop
import Drevo.Bolt.Tx
import Drevo.Lib.Memo
import Drevo.Auth.Privileges
import Drevo.Auth.Context
import Drevo.Auth.Catalog
import Drevo.Auth.Manager
import Drevo.Auth.Integrity
import Drevo.Lib.Lockout
import Drevo.Auth.Server
import Drevo.Auth.Login
import Drevo.Auth.Tokens
import Drevo.Core.Exact
import Drevo.Core.Atomic
import Drevo.Core.Calls
import Drevo.Core.Import
import Drevo.Mvcc.Store
import Drevo.Mvcc.Stable
import Drevo.Mvcc.Moves
import Drevo.Mvcc.Overlap
import Drevo.Mvcc.Readers
import Drevo.Mvcc.Journal
import Drevo.Mvcc.Serial
import Drevo.Mvcc.Serializable
import Drevo.Lib.Register
import Drevo.Delta.Peer
import Drevo.Delta.Cells
import Drevo.Delta.Apply
import Drevo.Delta.Change
import Drevo.Delta.Latest
import Drevo.Core.Cursor
import Drevo.Lib.Postings
import Drevo.Index.Text
import Drevo.Lib.Reader
import Drevo.Bolt.Prefix
import Drevo.Bolt.Stream
import Drevo.Lib.Intern
import Drevo.Bolt.Path
import Drevo.Lib.Shared
import Drevo.Core.DenseMap
import Drevo.Core.DenseRefines
import Drevo.Delta.Lww
import Drevo.Wal.Shorten
import Drevo.Index.Search
import Drevo.Lib.Edits
import Drevo.Index.Levenshtein
import Drevo.Index.Fuzzy
import Drevo.Core.Changes
import Drevo.Core.Diamond
import Drevo.Lib.Explore
import Drevo.Traversal.Graph
import Drevo.Traversal.Depth
import Drevo.Lib.Matching
import Drevo.Algorithms.StableMatching
import Drevo.Lib.Attempt
import Drevo.Cypher.Regex
import Drevo.Cypher.RegexLanguage
import Drevo.Lib.Binary64
import Drevo.Lib.Binary64Ints
import Drevo.Cypher.Value
import Drevo.Cypher.Arith
import Drevo.Cypher.Range
import Drevo.Cypher.Rounding
import Drevo.Lib.Kleene
import Drevo.Cypher.Eval
import Drevo.Cypher.Membership
import Drevo.Lib.Grouping
import Drevo.Cypher.Distinct
import Drevo.Lib.Glob
import Drevo.Lib.Utf8
import Drevo.Auth.Globs
import Drevo.Delta.Clock
import Drevo.Index.Backfill
import Drevo.Vector.Hnsw
import Drevo.Vector.Search
import Drevo.Vector.Links
import Drevo.Vector.Runs
