import ImpossibleOs.Ob.Rights
import ImpossibleOs.Ex.AvlRun
import ImpossibleOs.Ex.FastRef
import ImpossibleOs.Ex.Rundown
import ImpossibleOs.Ex.SListRun
import ImpossibleOs.Security.Inherit
import ImpossibleOs.Security.RoundTrip
import ImpossibleOs.Vfs.Locks
import ImpossibleOs.Fat32.FsckHarm
import ImpossibleOs.Fat32.LongNameRun
import ImpossibleOs.Fat32.Rename
import ImpossibleOs.Fat32.ScacheRun
import ImpossibleOs.Ixfs.FsckRun
import ImpossibleOs.Ixfs.DirRun
import ImpossibleOs.Ntfs.ClustersRun
import ImpossibleOs.Quota.ChargeRun
import ImpossibleOs.Quota.LedgerWrap
import ImpossibleOs.Ntfs.Lznt1RoundTrip
import ImpossibleOs.Registry.JournalRun
import ImpossibleOs.Ipc.PipeRun
import ImpossibleOs.Security.Unpack
import ImpossibleOs.Pm.HiberCodec
import ImpossibleOs.Mm.SwapRun
import ImpossibleOs.Ntfs.RecoveryRun
import ImpossibleOs.Ke.ApcRun
import ImpossibleOs.Ke.DpcRun
import ImpossibleOs.Security.AclWalk
import ImpossibleOs.Ob.Limit
import ImpossibleOs.Security.TokenUndo
import ImpossibleOs.Ex.RtlBitmapFind
import ImpossibleOs.Vfs.ResolveRun
import ImpossibleOs.Mm.PmmBoot
import ImpossibleOs.Ex.HashTableRun
import ImpossibleOs.Heap.Contents
import ImpossibleOs.Heap.Stale
import ImpossibleOs.Ipc.AlpcMessaging
import ImpossibleOs.Ixfs.JournalCommit
import ImpossibleOs.Ixfs.JournalScan
import ImpossibleOs.Ixfs.CowMap
import ImpossibleOs.Ixfs.InlineBounds
import ImpossibleOs.Ixfs.Refcount
import ImpossibleOs.Ixfs.TruncateVolume
import ImpossibleOs.Vfs.OpenAtomic
import ImpossibleOs.Vfs.PathsRight
import ImpossibleOs.Fat32.Geometry
import ImpossibleOs.Ntfs.Fixup
import ImpossibleOs.Registry.Links
import ImpossibleOs.Fat32.FsckEnds
import ImpossibleOs.Boot.Counter
import ImpossibleOs.Nt.Filetime
import ImpossibleOs.Nt.Nls
import ImpossibleOs.Security.Impersonate
import ImpossibleOs.Fs.Mbr
