import BackendProgramming.RedisScanRecv
import BackendProgramming.RedisLockSafety
import BackendProgramming.SerializeTruncate
import BackendProgramming.ClusterNodesExact
import BackendProgramming.NorahManagers
import BackendProgramming.PoolReturn
import BackendProgramming.BPlusTreeWaste
import BackendProgramming.ClusterSends
import BackendProgramming.ClusterCheck
import BackendProgramming.RedisPush
import BackendProgramming.RedisEnhanceRecv
import BackendProgramming.LruCacheRuns
import BackendProgramming.LruCacheEviction
import BackendProgramming.PagerRuns
import BackendProgramming.SkipListReaders
import BackendProgramming.SkipListLite
import BackendProgramming.InfoReplication
import BackendProgramming.PoolIntegrity
import BackendProgramming.EntityCopies
import BackendProgramming.PrepareLoad
import BackendProgramming.ClusterScan
import BackendProgramming.RwMutex
import BackendProgramming.TimerWheel
import BackendProgramming.LengthPrefixed
import BackendProgramming.RedisBuffer
import BackendProgramming.BPlusTreeCompact
import BackendProgramming.LogStream
import BackendProgramming.TimerContainers
import BackendProgramming.Assoc
import BackendProgramming.RedisDict
import BackendProgramming.NgxPool
import BackendProgramming.PagerDirty
import BackendProgramming.Slab
