import PMigrate.Migration.Ordering
import PMigrate.Migration.ControlStream
import PMigrate.Migration.Handshake
import PMigrate.Migration.Precopy
import PMigrate.Migration.HeaderParsing
import PMigrate.Migration.HeaderWrites
import PMigrate.Migration.Outbuf
import PMigrate.Migration.SparseScan
import PMigrate.Migration.SharedPage
import PMigrate.Migration.BufferPool
import PMigrate.Migration.PvTail
import PMigrate.Migration.HypercallBuffer
import PMigrate.Migration.WorkQueue
import PMigrate.Hypervisor.RangesetRemove
import PMigrate.Hypervisor.RangesetReport
import PMigrate.Hypervisor.LogDirty
import PMigrate.Hypervisor.SharedRing
import PMigrate.Hypervisor.TimerRuns
import PMigrate.Hypervisor.EptSlaveLifetime
import PMigrate.Hypervisor.EventPending
import PMigrate.Hypervisor.HvmSaveOne
import PMigrate.Hypervisor.PageAllocSearch
import PMigrate.Hypervisor.GrantCopy
import PMigrate.Hypervisor.GrantGrow
import PMigrate.Hypervisor.GrantTransfer
import PMigrate.Hypervisor.P2mLock
import PMigrate.Hypervisor.PodSweep
import PMigrate.Hypervisor.GrantPinRuns
import PMigrate.Hypervisor.EventChannelRuns
import PMigrate.Hypervisor.PodRuns
import PMigrate.Hypervisor.PhysmapInverse
import PMigrate.Hypervisor.CreditShares
import PMigrate.Hypervisor.CreditBurn
import PMigrate.Hypervisor.RunqSort
import PMigrate.Hypervisor.CpuPick
import PMigrate.Xenstore.Visibility
import PMigrate.Xenstore.Watches
import PMigrate.Xenstore.Quota
import PMigrate.Xenstore.SanitiseValue
import PMigrate.Oxenstored.FailedRequests
import PMigrate.Oxenstored.Serial
import PMigrate.Hypervisor.PageTypeRaces
