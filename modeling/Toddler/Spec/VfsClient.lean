import Toddler.Spec.VfsServer

/-! The stubs of a client (`libc/sys/api/vfs.c`) for the operations that the VFS server forwards,
and `readdir` (`libc/dirent/dirent.c`). `serve` is `syscall_ipc_popup_request` to the system
process: it takes the message of the thread to the response. A panic and an access through a null
pointer are `none`. -/

namespace Toddler

section Client

variable {σ : Type} (A : Arch) (serve : σ → Slots → SysApi → Option (σ × Slots))

def requestCode (st : σ) (msg : Slots) (api : SysApi) : Option (σ × ℤ) := do
  let (st, msg) ← serve st msg api
  let err ← Slots.getInt msg 0
  some (st, err)

def sysApiDirOpen (st : σ) (fd : ℤ) (flags : ℕ) : Option (σ × ℤ) := do
  let msg ← Slots.appendInt A [] fd
  let msg ← Slots.appendParam msg flags
  requestCode serve st msg .dirOpen

def requestRead (api : SysApi) (st : σ) (fd : ℤ) (count offset : ℕ) : Option (σ × Slots) := do
  let msg ← Slots.appendInt A [] fd
  let msg ← Slots.appendParam msg count
  let msg ← Slots.appendParam msg offset
  serve st msg api

/-- The loop of `sys_api_file_read`: the value returned and the bytes at `buf`. -/
def fileReadLoop (fd : ℤ) : ℕ → σ → (count offset : ℕ) → (more : ℤ) → (buf : List UInt8) →
    (readCount : ℕ) → Option (σ × ℤ × List UInt8)
  | 0, _, _, _, _, _, _ => none
  | fuel + 1, st, count, offset, more, buf, readCount =>
    if count = 0 ∨ more = 0 then some (st, A.ssize readCount, buf)
    else do
      let (st, msg) ← requestRead A serve .fileRead st fd count offset
      let err ← Slots.getInt msg 0
      if err ≠ 0 then some (st, err, buf)
      else do
        let rc ← Slots.getParam msg 1
        if count < rc then none
        else do
          let more ← Slots.getParam msg 2
          let (readData, _) ← Slots.getData A msg 3
          let bytes ← copyKnown readData rc
          fileReadLoop fd fuel st (count - rc) ((offset + rc) % A.ulong) (Int.bmod more (2 ^ 32))
            (buf ++ bytes) (readCount + rc)

def sysApiFileRead (fuel : ℕ) (st : σ) (fd : ℤ) (count offset : ℕ) : Option (σ × ℤ × List UInt8) :=
  fileReadLoop A serve fd fuel st count offset 1 [] 0

def loadShort (m : ByteMem) (a : ℕ) : ℕ := decodeWord A.big (m.load a 2)

/-- The loop of `sys_api_dir_read` from the param `pidx` on, for `rounds` entries: the memory and
the value returned. -/
def dirEntriesLoop (msg : Slots) (count : ℕ) : ℕ → ℕ → ByteMem → (dirp readCount : ℕ) →
    Option (ByteMem × ℤ)
  | 0, _, m, _, readCount => some (m, A.ssize readCount)
  | rounds + 1, pidx, m, dirp, readCount => do
    let (vfsDirp, entSize) ← Slots.getData A msg pidx
    if entSize ≤ sizeofSysDirEnt A then some (m, -1)
    else if count < readCount + entSize then some (m, A.ssize readCount)
    else do
      let size ← (copyKnown vfsDirp 2).map (decodeWord A.big)
      if size = 0 ∨ 2 ^ 15 ≤ size then none
      else do
        let bytes ← copyKnown vfsDirp size
        let m := ((m.store dirp bytes).store (dirp + (size - 1)) [0]).store dirp (encodeShort A entSize)
        dirEntriesLoop msg count rounds (pidx + 1) m (dirp + entSize) (readCount + entSize)

def sysApiDirRead (st : σ) (m : ByteMem) (fd : ℤ) (dirp count offset : ℕ) :
    Option (σ × ByteMem × ℤ) := do
  let (st, msg) ← requestRead A serve .dirRead st fd count offset
  let err ← Slots.getInt msg 0
  if err ≠ 0 then some (st, m, err)
  else do
    let numEntries ← Slots.getParam msg 1
    let (m, r) ← dirEntriesLoop A msg count numEntries 2 m dirp 0
    some (st, m, r)

def dirBufSize : ℕ := 4096

structure Dir where
  fd : ℤ
  lastFsId : ℕ
  buf : ℕ
  bufIdx : ℤ
  bufSize : ℤ

structure Dirent where
  ino : ℕ
  type : ℕ
  name : List UInt8
  deriving DecidableEq

def nextDirent (m : ByteMem) (d : Dir) : Option (Dir × Dirent) :=
  if d.bufIdx < 0 then none
  else
    let dent := d.buf + d.bufIdx.toNat
    let fsId := A.loadWord m (dent + A.bytes)
    some ({ d with lastFsId := fsId, bufIdx := d.bufIdx + Int.bmod (loadShort A m dent) (2 ^ 16) },
      ⟨fsId, loadShort A m (dent + 2) % 256,
      ((m.load (dent + sizeofSysDirEnt A) 256).takeWhile (· ≠ 0)).take 255⟩)

def readdir (st : σ) (m : ByteMem) (d : Dir) : Option (σ × ByteMem × Dir × Option Dirent) :=
  if d.bufSize ≤ d.bufIdx then do
    let (st, m, readCount) ← sysApiDirRead A serve st m d.fd d.buf dirBufSize d.lastFsId
    if readCount ≤ 0 then some (st, m, { d with bufIdx := 0, bufSize := 0 }, none)
    else do
      let (d, entry) ← nextDirent A m { d with bufIdx := 0, bufSize := readCount }
      some (st, m, d, some entry)
  else do
    let (d, entry) ← nextDirent A m d
    some (st, m, d, some entry)

def opendir (st : σ) (fd : ℤ) (buf : ℕ) : Option (σ × Option Dir) :=
  if fd < 0 then some (st, none)
  else do
    let (st, err) ← sysApiDirOpen A serve st fd 0
    some (st, if err ≠ 0 then none else some ⟨fd, 0, buf, 0, 0⟩)

def readdirAll : ℕ → σ → ByteMem → Dir → Option (List Dirent)
  | 0, _, _, _ => none
  | fuel + 1, st, m, d => do
    let (st, m, d, entry) ← readdir A serve st m d
    match entry with
    | none => some []
    | some e => (readdirAll fuel st m d).map (e :: ·)

end Client

end Toddler
