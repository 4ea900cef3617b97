import Photon.Thread.Mutex
import Photon.Thread.Rwlock
import Photon.Thread.Semaphore
import Photon.Common.Rcu
import Photon.Thread.CondVar
import Photon.Thread.Interrupt
import Photon.Thread.Join
import Photon.Thread.StackAllocator
import Photon.Thread.Standby
import Photon.Thread.Timer
import Photon.Thread.PoolOnce
import Photon.Thread.KeyRefine
import Photon.Common.RangeLock
import Photon.Common.Ring
import Photon.Common.MpmcQueue
import Photon.Common.BatchQueue
import Photon.Common.SpscQueue
import Photon.Common.RingChannel
import Photon.Common.ObjectCacheV2
import Photon.Common.ConsistentHashMap
import Photon.Common.Throttle
import Photon.Rpc.StubCalls
import Photon.Net.ChunkedWrite
import Photon.Net.FsHandler
import Photon.Net.SetCookie
import Photon.Net.Client
import Photon.Fs.StripeFile
import Photon.Fs.ThrottledFile
import Photon.Fs.AlignedFileVectorWrite
import Photon.Fs.CacheRead
import Photon.Fs.Path
import Photon.Common.Crc32cHw
import Photon.Net.PooledSocket
import Photon.Net.BasicSocket
import Photon.Ecosystem.SimpleDom
import Photon.Common.ConvertCase
import Photon.Common.ObjectCacheCooldown
import Photon.Rpc.StubResponse
import Photon.Common.ExpireContainer
import Photon.Common.LogRotate
import Photon.Thread.SemaphoreOoo
import Photon.Io.EpollNg
import Photon.Rpc.OutOfOrderOwner
import Photon.Io.Pending
import Photon.Rpc.OutOfOrderRelay
