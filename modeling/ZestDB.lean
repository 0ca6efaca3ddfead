import ZestDB.Manager.FirstKeys
import ZestDB.Manager.Merging
import ZestDB.Manager.Sequence
import ZestDB.Server.Race
import ZestDB.Server.Attempts
import ZestDB.Shard.Reclaim
import ZestDB.Shard.Origin
import ZestDB.Database.CrashReboot
import ZestDB.Database.StartupAlone
import ZestDB.Cache.Recency
import ZestDB.Server.Framing
import ZestDB.Database.Lines
import ZestDB.Storage.SegmentStream
import ZestDB.Database.MapStep
import ZestDB.Database.Clients
import ZestDB.Foundations.Movers
import ZestDB.Database.RegexGuard
import ZestDB.Foundations.Regex
import ZestDB.Database.Limit
import ZestDB.Database.Validated
import ZestDB.Database.Scfg
import ZestDB.Shard.Verification
import ZestDB.Server.Deadline
import ZestDB.Server.Handshake
import ZestDB.Server.Loop
import ZestDB.Index.Replace
import ZestDB.Index.Reload
import ZestDB.Database.Mixture
import ZestDB.Foundations.Change
import ZestDB.Server.Unanswered
import ZestDB.Server.GroupCommit
import ZestDB.Server.Traffic
import ZestDB.Shard.OnDisk
import ZestDB.Server.Authentication
import ZestDB.Server.Lockout
import ZestDB.Server.Reply
import ZestDB.Database.Archive
import ZestDB.Shard.Appends
import ZestDB.Index.Faulty
import ZestDB.Manager.GetByTasks
import ZestDB.Manager.LimitedSetBy
import ZestDB.Shard.Readers
import ZestDB.Wal.Torn
import ZestDB.Database.Permissions
import ZestDB.Database.ReplaySets
import ZestDB.Database.Replay
import ZestDB.Database.Journal
import ZestDB.Foundations.Merge
import ZestDB.Database.Effect
import ZestDB.Database.Restart
import ZestDB.Database.Sound
import ZestDB.Manager.Sound
import ZestDB.Shard.Durable
import ZestDB.Shard.Sound
import ZestDB.Database.Defs
import ZestDB.Database.Config
import ZestDB.Database.Command
import ZestDB.Database.Rule
import ZestDB.Shard.CompactionCrash
import ZestDB.Storage.Synced
import ZestDB.Manager.Refinement
import ZestDB.Manager.Queries
import ZestDB.Manager.Writes
import ZestDB.Shard.Tracked
import ZestDB.Shard.Recovery
import ZestDB.Shard.Views
import ZestDB.Manager.Shards
import ZestDB.Manager.Defs
import ZestDB.Foundations.Smallest
import ZestDB.Shard.Compaction
import ZestDB.Shard.Bulk
import ZestDB.Shard.Operations
import ZestDB.Shard.Moves
import ZestDB.Storage.Maintenance
import ZestDB.Storage.Append
import ZestDB.Index.Log
import ZestDB.Shard.Defs
import ZestDB.Settings
import ZestDB.Storage.StorageManager
import ZestDB.Cache.WellFormed
import ZestDB.Database.Interleaved
import ZestDB.Manager.ThreadPool
import ZestDB.Database.Locks
import ZestDB.Server.Accept
import ZestDB.Server.Client
import ZestDB.Database.Retention
