import Toddler.Spec.Vm

/-! The teardown of a user process (`kernel/proc/process.c`). Other threads hold references from
`acquire_process`; the process's cleaner is one kernel thread, modelled by its program point. -/

namespace Toddler

inductive ProcState
  | enter
  | normal
  | crashed
  | stopped
  | zombie
  deriving DecidableEq, Repr

structure ProcThread where
  tid : ℕ
  block : ℕ
  deriving DecidableEq, Repr

/-- The points of `process_cleaner`. `stopState` and `stopCount` are in `_stop_all_threads`,
`freeState` and `freeCount` in `_free_all_vm_blocks`. -/
inductive CleanerPoint
  | wait
  | move
  | stopTest
  | stopState
  | stopCount
  | freeTest
  | freeState
  | freeCount
  | loop
  | destroy
  | freeAddrSpace
  | unlink
  | sfree
  | done
  deriving DecidableEq, Repr

/-- `struct process` with its cleaner; its `ref_count` is in `vm`. `listed` says that it is on the
list of processes. `handles` is history: the references from `acquire_process` in use. -/
structure Proc where
  state : ProcState
  threads : List ProcThread
  vm : Vm
  popupMsgHandler : ℕ
  cleanupEvent : Bool
  listed : Bool
  point : CleanerPoint
  allThreadsStopped : Bool
  allVmBlocksFreed : Bool
  handles : ℕ

/-- `create_process`; the reference of `vm_create` is overwritten by `ref_count_init`. -/
def createProcess (c : VmConfig) : Proc where
  state := .enter
  threads := []
  vm := { vmCreate c 0 with refCount := 1 }
  popupMsgHandler := 0
  cleanupEvent := false
  listed := true
  point := .wait
  allThreadsStopped := false
  allVmBlocksFreed := false
  handles := 0

/-- Who creates a thread: `thread_create` by a thread of the process, `thread_create_cross`, or a
popup `ipc_request`. -/
inductive CreateVia
  | syscall
  | cross
  | popup
  deriving DecidableEq, Repr

/-- A caller of `thread_create` has passed the test of `dispatch` when its system call began. -/
def CreateVia.enabled (s : Proc) : CreateVia → Bool
  | .syscall => !s.threads.isEmpty
  | .cross => 0 < s.handles && s.state = .enter
  | .popup => 0 < s.handles && s.popupMsgHandler ≠ 0

def procCreateThread (s : Proc) (tid blockSize : ℕ) : Option Proc :=
  match vmAllocThread s.vm blockSize with
  | some (vm, some b) => some { s with
      vm := { vm with refCount := vm.refCount + 1 }
      threads := s.threads ++ [⟨tid, b.id⟩] }
  | _ => none

/-- `vm_move_to_sanit_unmapped` signals the cleaner. -/
def Proc.signal (s : Proc) : Proc := { s with cleanupEvent := true }

/-- `vm_free_block`; with a single CPU the block goes on to `sanit_unmapped` at once. -/
def procFreeBlock (c : VmConfig) (s : Proc) (id : ℕ) : Option Proc := do
  let vm ← vmFreeBlock c s.vm id
  let s := { s with vm := vm }
  some (if c.numCpus ≤ 1 then s.signal else s)

def procExitThread (c : VmConfig) (s : Proc) (tid : ℕ) : Option Proc := do
  let t ← s.threads.find? fun t => t.tid = tid
  let s ← procFreeBlock c s t.block
  some { s with
    threads := s.threads.erase t
    vm := { s.vm with refCount := s.vm.refCount - 1 } }

def processCleaner (c : VmConfig) (s : Proc) : Option Proc :=
  match s.point with
  | .wait => if s.cleanupEvent then some { s with cleanupEvent := false, point := .move } else none
  | .move => some { s with vm := vmMoveSanitToAvail s.vm, point := .stopTest }
  | .stopTest =>
    if !s.allThreadsStopped && s.state = .stopped then some { s with point := .stopState }
    else some { s with point := .freeTest }
  | .stopState => some { s with point := if s.state = .stopped then .stopCount else .freeTest }
  -- with threads left, their wait queues are purged and the flag stays
  | .stopCount => some { s with
      allThreadsStopped := s.threads.isEmpty
      point := .freeTest }
  | .freeTest =>
    if !s.allVmBlocksFreed && s.state = .zombie then some { s with point := .freeState }
    else some { s with point := .loop }
  | .freeState => some { s with point := if s.state = .zombie then .freeCount else .loop }
  | .freeCount =>
    if s.vm.numActiveBlocks = 0 then some { s with allVmBlocksFreed := true, point := .loop }
    else do
      let vm ← vmPurge c s.vm
      some { s with
        vm := vm
        cleanupEvent := s.cleanupEvent || !s.vm.inuseMapped.isEmpty
        point := .loop }
  | .loop =>
    some { s with point := if s.allThreadsStopped && s.allVmBlocksFreed then .destroy else .wait }
  -- `vm_destory`
  | .destroy => some { s with
      vm := { s.vm with
        availUnmapped := []
        numSallocObjs := s.vm.numSallocObjs - s.vm.availUnmapped.length }
      cleanupEvent := s.cleanupEvent || !s.vm.availUnmapped.isEmpty
      point := .freeAddrSpace }
  | .freeAddrSpace => some { s with point := .unlink }
  | .unlink => some { s with listed := false, point := .sfree }
  | .sfree => some { s with point := .done }
  | .done => none

inductive ProcAction
  | acquire
  | release
  | register (entry : ℕ)
  | createThread (via : CreateVia) (tid blockSize : ℕ)
  | exitThread (tid : ℕ)
  | alloc (base size : ℕ)
  | free (base : ℕ)
  | shootdownDone (id : ℕ)
  | exitProcess
  | recycleProcess
  | cleaner
  deriving DecidableEq, Repr

/-- A system call on the process is made by one of its threads, or by the holder of a reference. -/
def procStep (c : VmConfig) (s : Proc) : ProcAction → Option Proc
  | .acquire =>
    if s.listed then
      some { s with vm := { s.vm with refCount := s.vm.refCount + 1 }, handles := s.handles + 1 }
    else none
  | .release =>
    if s.handles = 0 ∨ s.vm.refCount ≤ 0 then none
    else some { s with vm := { s.vm with refCount := s.vm.refCount - 1 }, handles := s.handles - 1 }
  | .register entry => if s.threads.isEmpty then none else some { s with popupMsgHandler := entry }
  | .createThread via tid blockSize => if via.enabled s then procCreateThread s tid blockSize else none
  | .exitThread tid => if s.listed then procExitThread c s tid else none
  | .alloc base size =>
    if s.threads.isEmpty ∧ s.handles = 0 then none else some { s with vm := (vmAlloc s.vm base size).1 }
  | .free base =>
    if s.threads.isEmpty then none
    else do
      let b ← s.vm.inuseMapped.find? fun b => b.base = base
      procFreeBlock c s b.id
  | .shootdownDone id => do
    let vm ← vmMoveToSanitUnmapped s.vm id
    some { s with vm := vm }.signal
  | .exitProcess => if s.handles = 0 then none else some { s with state := .stopped }.signal
  | .recycleProcess => if s.handles = 0 then none else some { s with state := .zombie }.signal
  | .cleaner => processCleaner c s

def Proc.dying (s : Proc) : Prop :=
  s.point = .destroy ∨ s.point = .freeAddrSpace ∨ s.point = .unlink ∨ s.point = .sfree

/-- A process that is taken apart has no thread, no active block and no holder of a reference. -/
def TeardownSafe (s : Proc) : Prop :=
  s.dying → s.threads = [] ∧ s.vm.active = [] ∧ s.vm.numActiveBlocks = 0 ∧ s.handles = 0

/-- `recycle_process` waits until the cleaner has seen the last thread go, and no thread is created
from then on. When the cleaner finds the zombie without active blocks every reference has been given
back, and nobody acquires the process after that. -/
def TeardownOrder (s : Proc) : ProcAction → Prop
  | .recycleProcess => s.allThreadsStopped = true
  | .createThread _ _ _ => s.allThreadsStopped = false
  | .acquire => s.allVmBlocksFreed = false
  | .cleaner => s.point = .freeCount → s.vm.numActiveBlocks = 0 → s.handles = 0
  | _ => True

instance TeardownOrder.decidable (s : Proc) (a : ProcAction) : Decidable (TeardownOrder s a) := by
  cases a <;> unfold TeardownOrder <;> infer_instance

end Toddler
