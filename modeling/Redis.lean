import Redis.AofFlush
import Redis.ArgText
import Redis.BlockedWake
import Redis.ClusterBus
import Redis.ClusterSafety
import Redis.DictScan
import Redis.ElectionSafety
import Redis.Evict
import Redis.Glob
import Redis.HllSparse
import Redis.KeyspaceExpire
import Redis.QuicklistInsert
import Redis.QuicklistSize
import Redis.ReplStream
import Redis.ReplyOrder
import Redis.SentinelSafety
import Redis.SlotIndex
import Redis.StreamReplica
import Redis.StringCommands
import Redis.WatchSafety
