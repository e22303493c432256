import IibMalloc.Alignment
import IibMalloc.BucketSizes
import IibMalloc.Bulk
import IibMalloc.BulkAlloc
import IibMalloc.BulkBlock
import IibMalloc.BulkContent
import IibMalloc.BulkDealloc
import IibMalloc.BulkDebug
import IibMalloc.BulkFailure
import IibMalloc.BulkFlags
import IibMalloc.BulkHeader
import IibMalloc.BulkInv
import IibMalloc.BulkLife
import IibMalloc.BulkLists
import IibMalloc.BulkRuns
import IibMalloc.BulkSplice
import IibMalloc.BulkSplit
import IibMalloc.BulkUnlink
import IibMalloc.BulkValid
import IibMalloc.CollectionInPages
import IibMalloc.CollectionRuns
import IibMalloc.Common
import IibMalloc.Lib.Act
import IibMalloc.Lib.Bytes
import IibMalloc.Lib.Cells
import IibMalloc.Lib.Digits
import IibMalloc.Lib.Heap
import IibMalloc.Lib.Links
import IibMalloc.Lib.Padding
import IibMalloc.Lib.Period
import IibMalloc.Lib.Ring
import IibMalloc.Lib.Run
import IibMalloc.Lib.Shared
import IibMalloc.Lib.SizeClass
import IibMalloc.Lib.Wrap
import IibMalloc.MemoryBlockList
import IibMalloc.PageAllocator
import IibMalloc.PageAllocatorNoCaching
import IibMalloc.PageCache
import IibMalloc.PageCacheStats
import IibMalloc.Serializable
import IibMalloc.SerializableContent
import IibMalloc.SerializableFootprint
import IibMalloc.SerializableFormat
import IibMalloc.SerializableInv
import IibMalloc.SerializableItems
import IibMalloc.SerializableLife
import IibMalloc.SerializableRuns
import IibMalloc.SerializableSlots
import IibMalloc.SerializableSteps
import IibMalloc.Sounding
import IibMalloc.SoundingGetPage
import IibMalloc.SoundingInv
import IibMalloc.SoundingLayout
import IibMalloc.SoundingLife
import IibMalloc.SoundingMultipage
import IibMalloc.SoundingRuns
import IibMalloc.SoundingSegments
import IibMalloc.SoundingStats
import IibMalloc.Tester
import IibMalloc.TesterIibmalloc
import IibMalloc.TesterModes
import IibMalloc.TesterPareto
import IibMalloc.TesterPeak
import IibMalloc.TesterPeriod
import IibMalloc.TesterRuns
import IibMalloc.TesterScript
import IibMalloc.TesterSeed
import IibMalloc.TesterSizes
import IibMalloc.TesterTwins
import IibMalloc.Threads
import IibMalloc.VirtualMemory
