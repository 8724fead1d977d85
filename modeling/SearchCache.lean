import SearchCache.Lib.Linked
import SearchCache.Lib.Slots
import SearchCache.Cache.HashTableMap
import SearchCache.Cache.DqHashtable
import SearchCache.Cache.DqHashtableInvariant
import SearchCache.Cache.DqHashtableDeque
import SearchCache.Cache.Dlirs
import SearchCache.Lib.RefCount
import SearchCache.Cache.Lirs
import SearchCache.Cache.LirsInvariant
import SearchCache.Cache.LirsOperations
import SearchCache.Cache.LirsProgress
import SearchCache.Cache.DlirsModels
import SearchCache.Cache.DlirsSimulation
import SearchCache.Cache.DlirsSteps
import SearchCache.Cache.DlirsTracks
import SearchCache.Cache.DlirsAccounting
import SearchCache.Cache.DlirsCoherence
import SearchCache.Cache.CacheClients
import SearchCache.Heap.Headers
import SearchCache.Heap.ControllerSpecs
import SearchCache.Heap.HtfhSpecs
import SearchCache.Heap.PoolSpecs
import SearchCache.Heap.HtfhRuns
import SearchCache.Heap.PhysicalBlocks
import SearchCache.Heap.HtfhUndo
import SearchCache.Heap.HtfhAdequacy
import SearchCache.Heap.HtfhAlignment
import SearchCache.Heap.HtfhRealloc
import SearchCache.Heap.Glibc
import SearchCache.Heap.GlibcHeaders
import SearchCache.Heap.GlibcHeap
import SearchCache.Heap.GlibcBlocks
import SearchCache.Heap.GlibcGrowth
import SearchCache.Heap.GlibcSpecs
import SearchCache.Cache.DqHashtableInsert
import SearchCache.Cache.Lru
import SearchCache.Cache.DqHashtableComparator
import SearchCache.Cache.KeyCodec
import SearchCache.Cache.DlirsRuns
import SearchCache.Cache.DlirsResidentHit
import SearchCache.Cache.DlirsMembership
import SearchCache.Cache.HashTableResize
import SearchCache.Cache.KeyHash
import SearchCache.Cache.DlirsLimits
import SearchCache.Cache.Random
import SearchCache.Heap.HtfhCreate
import SearchCache.Heap.LockBalance
import SearchCache.Heap.ListIndices
import SearchCache.Heap.GlibcRuns
import SearchCache.Heap.GlibcRealloc
import SearchCache.Cache.HashTableLoad
import SearchCache.Heap.GlibcOversize
import SearchCache.Heap.HtfhSearch
import SearchCache.Heap.HtfhMemalign
import SearchCache.Heap.FreeInterior
import SearchCache.Heap.DoubleFree
import SearchCache.Cache.DlirsWellFormed
import SearchCache.Cache.DlirsTransitions
import SearchCache.Cache.DlirsReports
import SearchCache.Cache.DlirsResidentOrder
import SearchCache.Cache.DlirsFailure
import SearchCache.Cache.DlirsOwnership
import SearchCache.Cache.CacheLock
import SearchCache.Cache.DlirsScan
import SearchCache.Cache.LruFailure
import SearchCache.Cache.LruRecency
import SearchCache.Cache.RandomRuns
import SearchCache.Heap.GlibcContents
import SearchCache.Heap.GlibcLayout
import SearchCache.Heap.HtfhContents
import SearchCache.Cache.KeyCompare
import SearchCache.Heap.HtfhLayout
import SearchCache.Cache.DlirsSpace
import SearchCache.Cache.LruSpace
import SearchCache.Cache.DlirsLoop
import SearchCache.Cache.DlirsRecency
