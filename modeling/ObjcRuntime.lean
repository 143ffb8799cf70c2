import ObjcRuntime.WeakSoundness
import ObjcRuntime.RetainAssembly
import ObjcRuntime.TaggedPointers
import ObjcRuntime.InitializeOnce
import ObjcRuntime.SyncLocks
import ObjcRuntime.AssociationOwnership
import ObjcRuntime.ReleaseUntil
import ObjcRuntime.Deallocation
import ObjcRuntime.TrampolineRuns
import ObjcRuntime.WeakHooks
import ObjcRuntime.CacheCoherence
import ObjcRuntime.BlockedMarker
import ObjcRuntime.CacheLookup
import ObjcRuntime.CacheOwnership
import ObjcRuntime.ConcurrentAdds
import ObjcRuntime.ConstructionFailure
import ObjcRuntime.DuplicateLists
import ObjcRuntime.ClassDisposal
import ObjcRuntime.CoreShortcuts
import ObjcRuntime.InstanceLayout
import ObjcRuntime.BulkMethods
import ObjcRuntime.CategoryUnloading
import ObjcRuntime.LazyNames
import ObjcRuntime.CorruptionReport
import ObjcRuntime.LoadUnscheduling
import ObjcRuntime.SyncFailures
import ObjcRuntime.MethodSignatures
import ObjcRuntime.PropertyAttributes
import ObjcRuntime.AltHandlers
import ObjcRuntime.CategoryArrays
import ObjcRuntime.DataSegments
import ObjcRuntime.AtomicProperties
import ObjcRuntime.LebNumbers
import ObjcRuntime.LayoutReaders
import ObjcRuntime.ZoneAllocator
import ObjcRuntime.StripedLocks
