import Comanche.Hstore.Reconstitute
import Comanche.Hstore.RefCount
import Comanche.Hstore.Segments
import Comanche.Dawn.PoolSession
import Comanche.Dawn.RoundTrip
import Comanche.Dawn.Buffers
import Comanche.Dawn.ValueLocks
import Comanche.Dawn.Reads
import Comanche.Dawn.Ado
import Comanche.Store.FileStore
import Comanche.Store.NvmeLocks
import Comanche.Store.AppendReads
import Comanche.Pmem.PagedPersist
import Comanche.Pmem.Fixed
import Comanche.Metadata.Fixobd
import Comanche.Block.Raid
import Comanche.Block.Posix
import Comanche.Store.LogStore
import Comanche.Block.BlockAllocator
import Comanche.Hstore.Doubling
import Comanche.Core.LfBitmap
import Comanche.Core.Postbox
import Comanche.Net.Unblock
import Comanche.Net.GroupedConnection
import Comanche.Store.PmStore
import Comanche.Kernel.Copager
import Comanche.Fuse.Ustack
import Comanche.Core.UipcRuns
import Comanche.Block.RegionTable
import Comanche.Core.AvlRuns
import Comanche.Nupm.MaxAvailable
import Comanche.Core.PageBitmap
import Comanche.Hstore.Displacement
import Comanche.Nupm.RegionMap
import Comanche.Hstore.AtomicUpdate
import Comanche.Block.BitmapTx
import Comanche.Dawn.KeyFind
import Comanche.Hstore.PoolHeap
import Comanche.Store.NvmePool
import Comanche.Store.AppendWrites
import Comanche.Kernel.PageWalk
