import Toddler.Spec.PageContents

/-! The memory block of a thread as `create_exec_context` of `kernel/proc/thread.c` lays it out: the
message area, the thread information block, the thread-local storage and the stack. Offsets count
from the base of the block; each part also has a pointer in the direct mapping. -/

namespace Toddler

inductive ProcessType
  | kernel
  | driver
  | system
  | user
  | emulate
  deriving DecidableEq, Repr

structure ThreadAttri where
  stackSize : ℕ
  tlsSize : ℕ
  deriving DecidableEq, Repr

structure ThreadMemory where
  blockBase : ℕ := 0
  blockSize : ℕ
  msgStartOffset : ℕ := 0
  msgStartPtr : ℕ := 0
  msgSize : ℕ := 0
  tlsStartOffset : ℕ := 0
  tlsStartPtr : ℕ := 0
  tlsSize : ℕ
  stackLimitOffset : ℕ
  stackTopOffset : ℕ
  stackTopPtr : ℕ := 0
  stackSize : ℕ
  deriving DecidableEq, Repr

structure ThreadInfoBlock where
  self : ℕ
  msg : ℕ
  tls : ℕ
  tlsSize : ℕ
  deriving DecidableEq, Repr

/-- What the allocator answers: the base of the block and, for a block of a process's dynamic area,
the pointers that `thread_block_mapper` or `thread_block_reuse` leaves. -/
structure BlockAnswer where
  base : ℕ
  tlsStartPtr : ℕ
  stackTopPtr : ℕ
  deriving DecidableEq, Repr

namespace ThreadMemory

def attriSize (attri : Option ThreadAttri) (size : ThreadAttri → ℕ) (default : ℕ) : ℕ :=
  match attri with
  | some a => if size a ≠ 0 then alignUpPage (size a) else default
  | none => default

def roundedStack (userMode : Bool) (attri : Option ThreadAttri) : ℕ :=
  attriSize attri ThreadAttri.stackSize (if userMode then pageSize * 4 else pageSize)

def roundedTls (userMode : Bool) (attri : Option ThreadAttri) : ℕ :=
  attriSize attri ThreadAttri.tlsSize (if userMode then pageSize * 4 else pageSize)

def setup (userMode : Bool) (attri : Option ThreadAttri) : ThreadMemory :=
  let stackSize := roundedStack userMode attri
  let tlsSize := roundedTls userMode attri
  { blockSize := add64 tlsSize stackSize, tlsSize := tlsSize, stackSize := stackSize
    stackLimitOffset := add64 0 tlsSize, stackTopOffset := add64 (add64 0 tlsSize) stackSize }

/-- The block of a kernel thread is direct-mapped as a whole. -/
def place (type : ProcessType) (block : BlockAnswer) (t : ThreadMemory) : ThreadMemory :=
  if type = .kernel then
    { t with blockBase := block.base, tlsStartPtr := add64 block.base t.tlsStartOffset
             stackTopPtr := add64 block.base t.stackTopOffset }
  else
    { t with blockBase := block.base, tlsStartPtr := block.tlsStartPtr, stackTopPtr := block.stackTopPtr }

/-- The message area takes the start of the TLS, and 16 bytes stay free above the stack. -/
def makeRoom (t : ThreadMemory) : ThreadMemory :=
  { t with msgSize := maxMsgSize, msgStartOffset := t.tlsStartOffset, msgStartPtr := t.tlsStartPtr
           tlsStartOffset := add64 t.tlsStartOffset maxMsgSize, tlsStartPtr :=
           add64 t.tlsStartPtr maxMsgSize
           stackTopOffset := sub64 t.stackTopOffset 16, stackTopPtr := sub64 t.stackTopPtr 16 }

def tib (t : ThreadMemory) : ThreadInfoBlock where
  self := add64 t.blockBase t.tlsStartOffset
  msg := add64 t.blockBase t.msgStartOffset
  tls := add64 (add64 t.blockBase t.tlsStartOffset) tibSize
  tlsSize := sub64 t.tlsSize tibSize

end ThreadMemory

def createExecContext (type : ProcessType) (userMode : Bool) (attri : Option ThreadAttri)
    (block : BlockAnswer) : ThreadMemory × ThreadInfoBlock :=
  let t := ((ThreadMemory.setup userMode attri).place type block).makeRoom
  (t, t.tib)

end Toddler
