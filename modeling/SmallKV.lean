import SmallKV.Foundations.Exec
import SmallKV.Foundations.Bytes
import SmallKV.Foundations.SortedMap
import SmallKV.Foundations.LinkedChain
import SmallKV.Foundations.Cursor
import SmallKV.Memtable.SkipList
import SmallKV.Memtable.SkipListSearch
import SmallKV.Memtable.SkipListUpdate
import SmallKV.Memtable.SkipListRefinement
import SmallKV.Memtable.SkipListSafety
import SmallKV.Memtable.AvlTree
import SmallKV.Utils.Codec
import SmallKV.Db.Status
import SmallKV.File.FileWriter
import SmallKV.File.StreamLaw
import SmallKV.File.FileReader
import SmallKV.Foundations.PrefixCode
import SmallKV.Foundations.Recency
import SmallKV.Foundations.Interleaving
import SmallKV.Wal.WalWriter
import SmallKV.Wal.WalReader
import SmallKV.Wal.Scan
import SmallKV.Wal.Phantom
import SmallKV.Wal.Offsets
import SmallKV.Cache.Lru
import SmallKV.Cache.RefCount
import SmallKV.Cache.Recency
import SmallKV.Cache.Victim
import SmallKV.Cache.Values
import SmallKV.Cache.Station
import SmallKV.Cache.Pins
import SmallKV.Utils.StringView
import SmallKV.Memtable.MemTable
import SmallKV.Memtable.Contract
import SmallKV.Cache.Cache
import SmallKV.Filter.BloomFilter
import SmallKV.Filter.KeySet
import SmallKV.Table.DataBlockBuilder
import SmallKV.Table.SstableBuilder
import SmallKV.Table.Layout
import SmallKV.Table.Records
import SmallKV.Table.Restarts
import SmallKV.Table.Index
import SmallKV.Table.ShortestKey
import SmallKV.Table.Aborts
import SmallKV.Sstparser.SstParser
import SmallKV.Sstparser.ReadAll
import SmallKV.Sstparser.Loads
import SmallKV.Sstparser.BlockLookup
import SmallKV.Sstparser.IndexRanges
import SmallKV.Sstparser.IndexLoop
import SmallKV.Sstparser.Routing
import SmallKV.Sstparser.FilterReload
import SmallKV.Sstparser.WholeTable
import SmallKV.Db.DbImpl
import SmallKV.Db.Flush
import SmallKV.Db.Writes
import SmallKV.Db.TableWrites
import SmallKV.Db.MemBound
import SmallKV.Db.Views
import SmallKV.Db.Sessions
import SmallKV.Db.ResultString
import SmallKV.Db.Concurrent
import SmallKV.Foundations.Linearize
import SmallKV.Foundations.Guarded
import SmallKV.Foundations.ReadWrite
import SmallKV.Foundations.Completion
import SmallKV.Foundations.Sharding
import SmallKV.Utils.Lock
import SmallKV.Cache.Threads
import SmallKV.Cache.Shards
import SmallKV.Db.Threads
import SmallKV.Db.Refinement
import SmallKV.Db.Programs
import SmallKV.Db.Workload
import SmallKV.Db.Provenance
import SmallKV.Db.Caching
import SmallKV.Db.LogHistory
import SmallKV.Server.LsmServer
import SmallKV.Server.Delete
import SmallKV.Server.RespSound
import SmallKV.Server.Progress
import SmallKV.Server.Replies
import SmallKV.Server.Session
import SmallKV.Server.Refinement
