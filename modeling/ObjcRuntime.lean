import ObjcRuntime.RefCount.LockBalance
import ObjcRuntime.Weak.Reclaim
import ObjcRuntime.Autorelease.Refinement
import ObjcRuntime.Classes.DefaultImpls
import ObjcRuntime.Classes.Categories
import ObjcRuntime.Cache.X86
import ObjcRuntime.Cache.Capacity
import ObjcRuntime.Cache.EmptyBuckets
import ObjcRuntime.Classes.HashedCache
import ObjcRuntime.RefCount.CountMove
import ObjcRuntime.WeakVars.NeverDangle
import ObjcRuntime.Initialize.Protocol
import ObjcRuntime.Load.Ordering
import ObjcRuntime.Load.Unload
import ObjcRuntime.Assoc.Refinement
import ObjcRuntime.Assoc.Destruct
import ObjcRuntime.Sync.Exclusion
import ObjcRuntime.Sync.Reclaim
import ObjcRuntime.Lists.Independence
import ObjcRuntime.Lists.Concurrent
import ObjcRuntime.Ivars.Slide
import ObjcRuntime.Classes.Structors.Construct
import ObjcRuntime.Classes.Structors.Flags
import ObjcRuntime.Protocols.Methods
import ObjcRuntime.Classes.Unload
import ObjcRuntime.Classes.Bulk
import ObjcRuntime.Classes.InstanceSize
import ObjcRuntime.TypeEncoding
import ObjcRuntime.Trampolines
import ObjcRuntime.ClassHook
import ObjcRuntime.KVO
import ObjcRuntime.Ivars.LayoutString
