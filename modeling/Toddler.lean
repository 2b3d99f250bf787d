import Toddler.Proofs.PallocInit
import Toddler.Proofs.MemmapAlloc
import Toddler.Proofs.MemmapUsable
import Toddler.Proofs.MemmapTag
import Toddler.Proofs.Event
import Toddler.Proofs.Futex
import Toddler.Proofs.Shootdown
import Toddler.Proofs.SharedPages
import Toddler.Proofs.PageContents
import Toddler.Proofs.UserAccess
import Toddler.Proofs.MessageBounds
import Toddler.Proofs.IpcDelivery
import Toddler.Proofs.ThreadRefs
import Toddler.Proofs.Process
import Toddler.Proofs.Rwlock
import Toddler.Proofs.Barrier
import Toddler.Proofs.Sema
import Toddler.Proofs.UserRwlock
import Toddler.Proofs.WaitQueue
import Toddler.Proofs.IdAlloc
import Toddler.Proofs.Salloc
import Toddler.Proofs.Malloc
import Toddler.Proofs.Slots
import Toddler.Proofs.DirRead
import Toddler.Proofs.OpenHandling
import Toddler.Proofs.WalkLocks
import Toddler.Proofs.PathWalk
import Toddler.Proofs.TaskDeletion
import Toddler.Proofs.ThreadBlock
import Toddler.Proofs.IntHandler
import Toddler.Proofs.PallocSuccess
import Toddler.Proofs.Pfndb
import Toddler.Proofs.MemoryNode
import Toddler.Proofs.Bootarg
import Toddler.Proofs.Coreimg
import Toddler.Proofs.Spinlock
import Toddler.Proofs.FutexWait
import Toddler.Proofs.FdTable
import Toddler.Proofs.TaskCreate
import Toddler.Proofs.IpcPorts
