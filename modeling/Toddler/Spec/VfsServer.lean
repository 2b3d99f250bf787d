import Mathlib.Data.List.TakeWhile
import Toddler.Spec.FileSystem

/-! The VFS server on what a process has open: the operations of `system/vfs/vfs.c` that are
forwarded to a file system, and their handlers in `system/api/vfs.c`. `ipc` is
`syscall_ipc_popup_request` to a process and an opcode: it takes the message of the thread to the
one that it has after the response. The state `σ` is that of the file systems. Pipes are not
forwarded and have no operations here. A panic and an access through a null pointer are `none`. -/

namespace Toddler

structure MountPoint where
  opsIgnoreMap : ℕ
  pid : ℕ
  opcode : ℕ

structure Vnode where
  fsId : ℕ
  type : ℤ
  mount : MountPoint

/-- What is read of the `struct ventry` of an open file. -/
structure OpenEntry where
  vnode : Option Vnode
  hasMount : Bool
  hasChild : Bool

structure TaskFile (ν : Type) where
  inuse : Bool
  vent : Option ν

def maxNumFiles : ℕ := 32

abbrev FdTable (ν : Type) := ℕ → TaskFile ν

/-- `task_lookup_fd`. There is no check for a negative descriptor. -/
def taskLookupFd {ν : Type} (task : Option (FdTable ν)) (fd : ℤ) : Option (Option ν) :=
  match task with
  | none => some none
  | some files =>
    if (maxNumFiles : ℤ) ≤ fd then some none
    else if fd < 0 then none
    else some (if (files fd.toNat).inuse then (files fd.toNat).vent else none)

def ignoreOpIpc (mount : MountPoint) (op : VfsOp) : Bool := mount.opsIgnoreMap.testBit op.code

def cstrOf (bytes : List UInt8) : Option Message.CStr :=
  if h : 0 ∈ bytes ∧ (bytes.takeWhile (· ≠ 0)).length < 2 ^ 31 then
    some ⟨bytes.takeWhile (· ≠ 0), fun h0 => by simpa using List.mem_takeWhile_imp h0, h.2⟩
  else none

section Server

variable {σ : Type} (A : Arch) (ipc : σ → ℕ → ℕ → Slots → Option (σ × Slots))

def vfsDevCreate (st : σ) (node : Vnode) (name : Message.CStr) (flags pid opcode : ℕ) :
    Option (σ × ℤ) :=
  if ignoreOpIpc node.mount .devCreate then some (st, -1)
  else do
    let msg ← Slots.appendParam [] VfsOp.devCreate.code
    let msg ← Slots.appendParam msg node.fsId
    let msg ← Slots.appendStr A msg name
    let msg ← Slots.appendParam msg flags
    let msg ← Slots.appendParam msg pid
    let msg ← Slots.appendParam msg opcode
    let (st, _) ← ipc st node.mount.pid node.mount.opcode msg
    -- the response is not read
    some (st, 0)

def vfsPipeCreate (st : σ) (node : Vnode) (name : Message.CStr) (flags : ℕ) : Option (σ × ℤ) :=
  if ignoreOpIpc node.mount .pipeCreate then some (st, -1)
  else do
    let msg ← Slots.appendParam [] VfsOp.pipeCreate.code
    let msg ← Slots.appendParam msg node.fsId
    let msg ← Slots.appendStr A msg name
    let msg ← Slots.appendParam msg flags
    let (st, _) ← ipc st node.mount.pid node.mount.opcode msg
    some (st, 0)

def vfsFileOpen (st : σ) (node : Vnode) (flags mode : ℕ) : Option (σ × ℤ) :=
  if ignoreOpIpc node.mount .fileOpen then some (st, 0)
  else do
    let msg ← Slots.appendParam [] VfsOp.fileOpen.code
    let msg ← Slots.appendParam msg node.fsId
    let msg ← Slots.appendParam msg flags
    let msg ← Slots.appendParam msg mode
    let (st, _) ← ipc st node.mount.pid node.mount.opcode msg
    some (st, 0)

def vfsDirOpen (st : σ) (node : Vnode) (flags : ℕ) : Option (σ × ℤ) :=
  if ignoreOpIpc node.mount .dirOpen then some (st, 0)
  else do
    let msg ← Slots.appendParam [] VfsOp.dirOpen.code
    let msg ← Slots.appendParam msg node.fsId
    let msg ← Slots.appendParam msg flags
    let (st, _) ← ipc st node.mount.pid node.mount.opcode msg
    some (st, 0)

def readForward (op : VfsOp) (st : σ) (node : Vnode) (count offset : ℕ) : Option (σ × Slots) := do
  let msg ← Slots.appendParam [] op.code
  let msg ← Slots.appendParam msg node.fsId
  let msg ← Slots.appendParam msg count
  let msg ← Slots.appendParam msg offset
  ipc st node.mount.pid node.mount.opcode msg

def vfsFileRead (st : σ) (node : Vnode) (count offset : ℕ) (msg : Slots) : Option (σ × Slots) :=
  if ignoreOpIpc node.mount .fileRead then some (st, msg)
  else if node.type = NodeType.pipe.code then none
  else readForward ipc .fileRead st node count offset

def vfsDirReadForward (st : σ) (node : Vnode) (count offset : ℕ) (msg : Slots) :
    Option (σ × Slots) :=
  if ignoreOpIpc node.mount .dirRead then some (st, msg)
  else readForward ipc .dirRead st node count offset

def vfsFileWriteReal (st : σ) (node : Vnode) (data : List UInt8) (count offset : ℕ) :
    Option (σ × ℤ) := do
  let msg ← Slots.appendParam [] VfsOp.fileWrite.code
  let msg ← Slots.appendParam msg node.fsId
  let msg ← Slots.appendParam msg count
  let msg ← Slots.appendParam msg offset
  let msg ← Slots.appendData A msg data count
  let (st, msg) ← ipc st node.mount.pid node.mount.opcode msg
  let err ← Slots.getInt msg 0
  if err ≠ 0 then some (st, err)
  else do
    let writeCount ← Slots.getParam msg 1
    some (st, A.ssize writeCount)

def vfsFileWrite (st : σ) (node : Vnode) (data : List UInt8) (count offset : ℕ) : Option (σ × ℤ) :=
  if node.type = NodeType.pipe.code then none
  else vfsFileWriteReal A ipc st node data count offset

/-- The request of `vfs_mount` and its response, which is left in the message. What is stored of it
is not needed here. -/
def vfsMount (st : σ) (vent : OpenEntry) (pid opcode : ℕ) (msg : Slots) : Option (σ × Slots) :=
  if vent.hasMount then some (st, msg)
  else if vent.hasChild then some (st, msg)
  else do
    let msg ← Slots.appendParam [] VfsOp.mount.code
    let (st, msg) ← ipc st pid opcode msg
    let err ← Slots.getInt msg 0
    if err ≠ 0 then some (st, msg)
    else do
      let _ ← Slots.getParam msg 1
      let _ ← Slots.getInt msg 2
      some (st, msg)

def fdVnode (task : Option (FdTable OpenEntry)) (fd : ℤ) : Option Vnode := do
  let vent ← taskLookupFd task fd
  let vent ← vent
  vent.vnode

def codeResponse (r : σ × ℤ) : Option (σ × Slots) := (Slots.appendInt A [] r.2).map fun msg =>
    (r.1, msg)

/-- The call that `vfs_api_node_create` makes for the type of the node. -/
def nodeCreate (st : σ) (node : Vnode) (name : Message.CStr) (flags nodeType : ℕ) (msg : Slots) :
    Option (σ × ℤ) :=
  if nodeType = NodeType.dev.code then do
    let drvPid ← Slots.getParam msg 4
    let drvOpcode ← Slots.getParam msg 5
    vfsDevCreate A ipc st node name (flags % 2 ^ 32) drvPid drvOpcode
  else if nodeType = NodeType.pipe.code then vfsPipeCreate A ipc st node name (flags % 2 ^ 32)
  else some (st, -1)

def vfsApiNodeCreate (task : Option (FdTable OpenEntry)) (st : σ) (msg : Slots) :
    Option (σ × Slots) := do
  let dirfd ← Slots.getInt msg 0
  let (name, _) ← Slots.getData A msg 1
  let flags ← Slots.getParam msg 2
  let nodeType ← Slots.getParam msg 3
  let node ← fdVnode task dirfd
  let name ← cstrOf name
  let r ← nodeCreate A ipc st node name flags nodeType msg
  codeResponse A r

def vfsApiFileOpen (task : Option (FdTable OpenEntry)) (st : σ) (msg : Slots) :
    Option (σ × Slots) := do
  let fd ← Slots.getInt msg 0
  let flags ← Slots.getParam msg 1
  let mode ← Slots.getParam msg 2
  let node ← fdVnode task fd
  let r ← vfsFileOpen ipc st node flags mode
  codeResponse A r

def vfsApiDirOpen (task : Option (FdTable OpenEntry)) (st : σ) (msg : Slots) :
    Option (σ × Slots) := do
  let fd ← Slots.getInt msg 0
  let flags ← Slots.getParam msg 1
  let node ← fdVnode task fd
  let r ← vfsDirOpen ipc st node flags
  codeResponse A r

def vfsApiFileRead (task : Option (FdTable OpenEntry)) (st : σ) (msg : Slots) :
    Option (σ × Slots) := do
  let fd ← Slots.getInt msg 0
  let count ← Slots.getParam msg 1
  let offset ← Slots.getParam msg 2
  let node ← fdVnode task fd
  vfsFileRead ipc st node count offset msg

def vfsApiDirRead (task : Option (FdTable OpenEntry)) (st : σ) (msg : Slots) :
    Option (σ × Slots) := do
  let fd ← Slots.getInt msg 0
  let count ← Slots.getParam msg 1
  let offset ← Slots.getParam msg 2
  let node ← fdVnode task fd
  vfsDirReadForward ipc st node count offset msg

def writeCountResponse (r : σ × ℤ) : Option (σ × Slots) :=
  if r.2 < 0 then (Slots.appendInt A [] (Int.bmod r.2 (2 ^ 32))).map fun msg => (r.1, msg)
  else do
    let msg ← Slots.appendInt A [] 0
    let msg ← Slots.appendParam msg r.2.toNat
    some (r.1, msg)

def vfsApiFileWrite (task : Option (FdTable OpenEntry)) (st : σ) (msg : Slots) :
    Option (σ × Slots) := do
  let fd ← Slots.getInt msg 0
  let count ← Slots.getParam msg 1
  let offset ← Slots.getParam msg 2
  let (data, _) ← Slots.getData A msg 3
  let dataDup ← copyKnown data count
  let node ← fdVnode task fd
  let r ← vfsFileWrite A ipc st node dataDup count offset
  writeCountResponse A r

def vfsApiMount (vroot : OpenEntry) (task : Option (FdTable OpenEntry)) (st : σ) (msg : Slots) :
    Option (σ × Slots) := do
  let fd ← Slots.getInt msg 0
  let (name, _) ← Slots.getData A msg 1
  let _ ← cstrOf name
  let pid ← Slots.getParam msg 2
  let op ← Slots.getParam msg 3
  let _ ← Slots.getParam msg 4
  let vent ← if fd ≠ 0 then taskLookupFd task fd else some none
  vfsMount ipc st (vent.getD vroot) pid op msg

inductive SysApi
  | nodeCreate
  | fileOpen
  | fileRead
  | fileWrite
  | dirOpen
  | dirRead
  | mount
  deriving DecidableEq, Repr

def vfsServe (vroot : OpenEntry) (task : Option (FdTable OpenEntry)) (st : σ) (msg : Slots) :
    SysApi → Option (σ × Slots)
  | .nodeCreate => vfsApiNodeCreate A ipc task st msg
  | .fileOpen => vfsApiFileOpen A ipc task st msg
  | .fileRead => vfsApiFileRead ipc task st msg
  | .fileWrite => vfsApiFileWrite A ipc task st msg
  | .dirOpen => vfsApiDirOpen A ipc task st msg
  | .dirRead => vfsApiDirRead ipc task st msg
  | .mount => vfsApiMount A ipc vroot task st msg

end Server

end Toddler
