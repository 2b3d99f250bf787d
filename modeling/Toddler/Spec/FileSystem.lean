import Toddler.Spec.Slots

/-! The dispatcher of a file system (`libfs/fs.c`) for the operations that the VFS server forwards,
and the pseudo file system (`libfs/pseudo.c`). The functions of a file system work on its state `σ`.
A panic and an access through a null pointer are `none`. -/

namespace Toddler

inductive NodeType
  | dummy
  | file
  | symlink
  | dir
  | dev
  | pipe
  deriving DecidableEq, Repr

def NodeType.code : NodeType → ℕ
  | .dummy => 0
  | .file => 1
  | .symlink => 2
  | .dir => 3
  | .dev => 4
  | .pipe => 5

/-- Those of `enum vfs_ops` that are forwarded. -/
inductive VfsOp
  | mount
  | devCreate
  | pipeCreate
  | fileOpen
  | fileRead
  | fileWrite
  | dirOpen
  | dirRead
  deriving DecidableEq, Repr

def VfsOp.code : VfsOp → ℕ
  | .mount => 1
  | .devCreate => 9
  | .pipeCreate => 10
  | .fileOpen => 11
  | .fileRead => 12
  | .fileWrite => 13
  | .dirOpen => 22
  | .dirRead => 23

def VfsOp.ofCode (code : ℕ) : Option VfsOp :=
  [VfsOp.mount, .devCreate, .pipeCreate, .fileOpen, .fileRead, .fileWrite, .dirOpen,
    .dirRead].find? (·.code = code)

structure FsMountConfig where
  readOnly : ℤ
  rootId : ℕ

structure FileOp where
  err : ℤ
  count : ℤ
  more : ℤ
  deriving DecidableEq

structure FileRead extends FileOp where
  buf : List UInt8
  deriving DecidableEq

structure DirRead where
  err : ℤ
  internalPtr : Option ℕ
  id : ℕ
  type : ℕ
  name : List UInt8

structure FsOps (σ : Type) where
  mount : Option (σ → Option (σ × ℤ × FsMountConfig))
  devCreate : Option (σ → ℕ → List UInt8 → ℕ → ℕ → ℕ → Option (σ × ℤ))
  pipeCreate : Option (σ → ℕ → List UInt8 → ℕ → Option (σ × ℤ))
  fileOpen : Option (σ → ℕ → ℕ → ℕ → Option (σ × ℤ))
  fileRead : Option (σ → ℕ → ℕ → ℕ → Option (σ × FileRead))
  fileWrite : Option (σ → ℕ → List UInt8 → ℕ → ℕ → Option (σ × FileOp))
  dirOpen : Option (σ → ℕ → ℕ → Option (σ × ℤ))
  dirRead : Option (σ → ℕ → ℕ → Option ℕ → Option (σ × DirRead))

section Dispatch

variable {σ : Type} (A : Arch)

def dispatchResponse (err : ℤ) : Option Slots := Slots.appendInt A [] err

/-- A handler that only returns a code; a missing one counts as success. -/
def dispatchCode (st : σ) (handler : Option (σ → Option (σ × ℤ))) : Option (σ × Slots) :=
  match handler with
  | none => (dispatchResponse A 0).map fun msg => (st, msg)
  | some f => do
    let (st, err) ← f st
    let msg ← dispatchResponse A err
    some (st, msg)

def dispatchMount (ops : FsOps σ) (st : σ) : Option (σ × Slots) :=
  match ops.mount with
  | none => do
    let msg ← dispatchResponse A 0
    let msg ← Slots.appendParam msg 0
    let msg ← Slots.appendInt A msg 0
    some (st, msg)
  | some f => do
    let (st, err, cfg) ← f st
    let msg ← dispatchResponse A err
    let msg ← Slots.appendParam msg cfg.rootId
    let msg ← Slots.appendInt A msg cfg.readOnly
    some (st, msg)

def dispatchDevCreate (ops : FsOps σ) (st : σ) (msg : Slots) : Option (σ × Slots) := do
  let fsId ← Slots.getParam msg 1
  let (name, _) ← Slots.getData A msg 2
  let flags ← Slots.getParam msg 3
  let pid ← Slots.getParam msg 4
  let opcode ← Slots.getParam msg 5
  -- `opcode` is passed as an `unsigned`
  dispatchCode A st (ops.devCreate.map fun f st => f st fsId name flags pid (opcode % 2 ^ 32))

def dispatchPipeCreate (ops : FsOps σ) (st : σ) (msg : Slots) : Option (σ × Slots) := do
  let fsId ← Slots.getParam msg 1
  let (name, _) ← Slots.getData A msg 2
  let flags ← Slots.getParam msg 3
  dispatchCode A st (ops.pipeCreate.map fun f st => f st fsId name flags)

def dispatchFileOpen (ops : FsOps σ) (st : σ) (msg : Slots) : Option (σ × Slots) := do
  let fsId ← Slots.getParam msg 1
  let flags ← Slots.getParam msg 2
  let mode ← Slots.getParam msg 3
  dispatchCode A st (ops.fileOpen.map fun f st => f st fsId flags mode)

def dispatchDirOpen (ops : FsOps σ) (st : σ) (msg : Slots) : Option (σ × Slots) := do
  let fsId ← Slots.getParam msg 1
  let flags ← Slots.getParam msg 2
  dispatchCode A st (ops.dirOpen.map fun f st => f st fsId flags)

def readResponse (reqSize : ℕ) : Option (Slots × ℕ) := do
  let msg ← dispatchResponse A 0
  let msg ← Slots.appendParam msg 0
  let msg ← Slots.appendInt A msg 0
  let maxSize := Slots.remainDataSize A msg - 32
  let reqSize := if maxSize < reqSize then maxSize else reqSize
  let msg ← Slots.appendData A msg [] reqSize
  some (msg, reqSize)

def setRead (msg : Slots) (r : FileRead) : Option Slots :=
  if r.err = 0 then do
    let msg ← Slots.setParam msg 1 (r.count % A.ulong).toNat
    Slots.setInt A msg 2 r.more
  else some msg

def dispatchFileRead (ops : FsOps σ) (st : σ) (msg : Slots) : Option (σ × Slots) := do
  let fsId ← Slots.getParam msg 1
  let reqSize ← Slots.getParam msg 2
  let offset ← Slots.getParam msg 3
  let (msg, reqSize) ← readResponse A reqSize
  match ops.fileRead with
  | none => (Slots.setInt A msg 0 0).map fun msg => (st, msg)
  | some f => do
    let (st, r) ← f st fsId reqSize offset
    let msg ← Slots.fill A msg 3 r.buf
    let msg ← setRead A msg r
    let msg ← Slots.setInt A msg 0 r.err
    some (st, msg)

def writeResponse (r : FileOp) : Option Slots := do
  let msg ← dispatchResponse A r.err
  if r.err = 0 then Slots.appendParam msg (r.count % A.ulong).toNat else some msg

def dispatchFileWrite (ops : FsOps σ) (st : σ) (msg : Slots) : Option (σ × Slots) := do
  let fsId ← Slots.getParam msg 1
  let reqSize ← Slots.getParam msg 2
  let offset ← Slots.getParam msg 3
  let (data, _) ← Slots.getData A msg 4
  match ops.fileWrite with
  | none => (writeResponse A ⟨0, 0, 0⟩).map fun msg => (st, msg)
  | some f => do
    let (st, r) ← f st fsId data reqSize offset
    let msg ← writeResponse A r
    some (st, msg)

def sizeofSysDirEnt : ℕ := 2 * A.bytes

def encodeShort (v : ℕ) : List UInt8 := encodeWord A.big 2 v

/-- A `struct sys_dir_ent` with its name; `pad` are the bytes between `type` and `fs_id`. -/
def encodeDent (pad : List UInt8) (size type fsId : ℕ) (name : List UInt8) : List UInt8 :=
  encodeShort A size ++ encodeShort A type ++ pad ++ encodeWord A.big A.bytes fsId ++ name ++ [0]

/-- `msg_try_append_data` of `NULL`. -/
def tryAppendData (msg : Slots) (size : ℕ) : Option Slots := Slots.appendData A msg [] size

/-- The loop of `dispatch_dir_read` with the result `r` of the last call, and `size` the room at the
client. The bytes of the message that no field of an entry covers are `pad`. -/
def dirReadLoop (pad : ℕ → List UInt8) (dirRead : σ → ℕ → ℕ → Option ℕ → Option (σ × DirRead))
    (parentId size : ℕ) : ℕ → σ → DirRead → Slots → (copiedSize numEntries : ℕ) →
    Option (σ × ℤ × Slots × ℕ)
  | 0, _, _, _, _, _ => none
  | fuel + 1, st, r, msg, copiedSize, numEntries =>
    if r.err ≠ 1 then some (st, r.err, msg, numEntries)
    else
      let dentSize := sizeofSysDirEnt A + r.name.length + 1
      if size < copiedSize + dentSize then some (st, r.err, msg, numEntries)
      else
        match tryAppendData A msg dentSize with
        | none => some (st, r.err, msg, numEntries)
        | some msg' => do
          let msg' ← Slots.fill A msg' msg.length (encodeDent A (pad numEntries) dentSize r.type
            r.id r.name)
          let (st, r) ← dirRead st parentId r.id r.internalPtr
          dirReadLoop pad dirRead parentId size fuel st r msg' (copiedSize + dentSize) (numEntries + 1)

/-- A round of the loop appends a param, so there are at most 14. -/
def dispatchDirRead (pad : ℕ → List UInt8) (ops : FsOps σ) (st : σ) (msg : Slots) :
    Option (σ × Slots) := do
  let parentId ← Slots.getParam msg 1
  let size ← Slots.getParam msg 2
  let lastId ← Slots.getParam msg 3
  let msg ← dispatchResponse A 0
  let msg ← Slots.appendParam msg 0
  match ops.dirRead with
  | none => some (st, msg)
  | some f => do
    let (st, r) ← f st parentId lastId none
    let (st, err, msg, numEntries) ← dirReadLoop A pad f parentId size (maxMsgParams + 1) st r msg 0 0
    let msg ← Slots.setInt A msg 0 (if err < 0 then err else 0)
    let msg ← Slots.setParam msg 1 numEntries
    some (st, msg)

def fsDispatch (pad : ℕ → List UInt8) (ops : FsOps σ) (st : σ) (msg : Slots) :
    Option (σ × Slots) := do
  let vfsOp ← Slots.getParam msg 0
  match VfsOp.ofCode vfsOp with
  | some .mount => dispatchMount A ops st
  | some .devCreate => dispatchDevCreate A ops st msg
  | some .pipeCreate => dispatchPipeCreate A ops st msg
  | some .fileOpen => dispatchFileOpen A ops st msg
  | some .fileRead => dispatchFileRead A ops st msg
  | some .fileWrite => dispatchFileWrite A ops st msg
  | some .dirOpen => dispatchDirOpen A ops st msg
  | some .dirRead => dispatchDirRead A pad ops st msg
  | none => (dispatchResponse A (-1)).map fun msg => (st, msg)

end Dispatch

inductive PseudoFsData
  | none
  | fixed (data : List UInt8)
  | dynamic

/-- The fields of `struct pseudo_fs_node` that are read, as functions of its address, and the list
of all nodes. -/
structure PseudoFs where
  list : List ℕ
  child : ℕ → Option ℕ
  siblingNext : ℕ → Option ℕ
  id : ℕ → ℕ
  name : ℕ → List UInt8
  type : ℕ → NodeType
  data : ℕ → PseudoFsData

namespace PseudoFs

variable (A : Arch)

def nodeFind (fs : PseudoFs) (id : ℕ) : Option ℕ := fs.list.find? fun node => fs.id node = id

def readData (fs : PseudoFs) (node count offset : ℕ) : ℕ × List UInt8 × ℤ :=
  match fs.data node with
  | .fixed data =>
    if offset < data.length ∧ count ≠ 0 then
      let readSize := data.length - offset
      if count < readSize then (count, (data.drop offset).take count, 1)
        else (readSize, data.drop offset, 0)
    else (0, [], 0)
  | _ => (0, [], 0)

def fileRead (fs : PseudoFs) (id count offset : ℕ) : FileRead :=
  match fs.nodeFind id with
  | some node =>
    if fs.type node = .file then
      let (readSize, buf, more) := fs.readData node count offset
      let count := A.ssize readSize
      ⟨⟨if count < 0 then Int.bmod count (2 ^ 32) else 0, count, more⟩, buf⟩
    else ⟨⟨-1, 0, 0⟩, []⟩
  | none => ⟨⟨-1, 0, 0⟩, []⟩

def dirNext (fs : PseudoFs) (parent lastId : ℕ) : Option ℕ → Option ℕ
  | some ptr => fs.siblingNext ptr
  | none =>
    if lastId ≠ 0 then (fs.nodeFind lastId).bind fs.siblingNext
    else fs.child parent

def dirRead (fs : PseudoFs) (id lastId : ℕ) (lastInternalPtr : Option ℕ) : DirRead :=
  match fs.nodeFind id with
  | some parent =>
    if fs.type parent = .dir then
      match fs.dirNext parent lastId lastInternalPtr with
      | some node => ⟨1, some node, fs.id node, (fs.type node).code, fs.name node⟩
      | none => ⟨0, none, 0, 0, []⟩
    else ⟨-1, none, 0, 0, []⟩
  | none => ⟨-1, none, 0, 0, []⟩

def openNode (fs : PseudoFs) (id : ℕ) (types : List NodeType) : ℤ :=
  match fs.nodeFind id with
  | some node => if fs.type node ∈ types then 0 else -1
  | none => -1

/-- `pseudo_fs_ops`, without `mount`, `pipe_create` and the operations that `FsOps` leaves out.
`pseudo_fs_file_write` only fails. -/
def ops : FsOps PseudoFs where
  mount := none
  devCreate := none
  pipeCreate := none
  fileOpen := some fun fs id _ _ => some (fs, fs.openNode id [.file, .pipe, .dev])
  fileRead := some fun fs id count offset => some (fs, fs.fileRead A id count offset)
  fileWrite := some fun fs _ _ _ _ => some (fs, ⟨-1, 0, 0⟩)
  dirOpen := some fun fs id _ => some (fs, fs.openNode id [.dir])
  dirRead := some fun fs id lastId lastInternalPtr =>
    some (fs, fs.dirRead id lastId lastInternalPtr)

end PseudoFs

end Toddler
