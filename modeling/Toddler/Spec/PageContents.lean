import Toddler.Spec.UserPages
import Toddler.Spec.Message

/-! What a user process can read in a page that has just been mapped for it: the fault handler,
`vm_map_kernel`, `vm_map_cross`, and the thread blocks of `kernel/proc/thread.c`. -/

namespace Toddler

variable {n : ℕ}

def tibSize : ℕ := 56

/-- `thread_block_mapper` for a block at `base` with the top of the stack at the offset `stackTop`.
A null pointer from `palloc_ptr` is cast to the physical address 0. -/
def threadBlockMapper (s : UserPages n) (p : Fin n) (base stackTop tlsPaddr stackPaddr : ℕ) :
    Option (UserPages n) := do
  let live ← pallocPaddr s.live (some p) tlsPaddr 1
  let live ← pallocPaddr live (some p) stackPaddr 1
  let pageTable ← halMapRange (s.procs p).pageTable base tlsPaddr pageSize
  let pageTable ← halMapRange pageTable (sub64 (add64 base stackTop) pageSize) stackPaddr pageSize
  some ({ s with live := live }.setProc p { s.procs p with
    pageTable := pageTable
    numPallocPages := (s.procs p).numPallocPages + 2 })

structure ThreadRequest where
  tlsSize : ℕ
  stackSize : ℕ
  tlsPaddr : ℕ
  stackPaddr : ℕ
  tib : List UInt8
  param : List UInt8
  deriving DecidableEq

def threadSize (size : ℕ) : ℕ := if size = 0 then 4 * pageSize else alignUpPage size

def ThreadRequest.blockSize (t : ThreadRequest) : ℕ :=
  add64 (threadSize t.tlsSize) (threadSize t.stackSize)

/-- What `create_exec_context` and `create_thread` write: the TIB above the message area, and the
parameter below the top of the stack. -/
def writeThread (mem : ℕ → UInt8) (t : ThreadRequest) (tlsPaddr stackPaddr : ℕ) : ℕ → UInt8 :=
  let tib := tlsPaddr + maxMsgSize
  let mem := memcpy (memzero mem tib tibSize) tib (t.tib.take tibSize)
  memcpy mem (stackPaddr + pageSize - 16 - 8) (t.param.take 8)

/-- `create_thread` for a user process. Without a block the kernel follows a null pointer. A block
that is used again keeps its pages. -/
def createUserThread (s : UserPages n) (p : Fin n) (t : ThreadRequest) : Option (UserPages n) :=
  let u := s.procs p
  match vmAllocThread u.vm t.blockSize with
  | some (vm, some b) =>
    if u.vm.reuseMapped ≠ [] then
      let tls := translate u.pageTable (b.base / pageSize)
      let stack := translate u.pageTable (sub64 (add64 b.base t.blockSize) pageSize / pageSize)
      some { s.setProc p { u with vm := vm } with mem := writeThread s.mem t tls stack }
    else do
      let s ← threadBlockMapper (s.setProc p { u with vm := vm }) p b.base t.blockSize t.tlsPaddr
        t.stackPaddr
      some { s with mem := writeThread s.mem t t.tlsPaddr t.stackPaddr }
  | _ => none

inductive MapOp (n : ℕ)
  | fault (p : Fin n) (addr paddr : ℕ)
  | mapKernel (p : Fin n) (size : ℕ) (paddrs : List ℕ)
  | mapCross (p r : Fin n) (remoteVbase size : ℕ) (paddrs : List ℕ)
  | thread (p : Fin n) (t : ThreadRequest)

def MapOp.IsWord : MapOp n → Prop
  | .mapCross _ _ remoteVbase _ _ => remoteVbase < word
  | _ => True

def mapOp (s : UserPages n) : MapOp n → Option (UserPages n)
  | .fault p addr paddr => vmMap s p addr paddr
  | .mapKernel p size paddrs => vmMapKernel s p size paddrs
  | .mapCross p r remoteVbase size paddrs => vmMapCross s p r remoteVbase size paddrs
  | .thread p t => createUserThread s p t

/-- The page at `paddr` is one that `palloc` may hand out. -/
def FreePage (s : UserPages n) (paddr : ℕ) : Prop :=
  paddr ≠ 0 ∧ pageSize ∣ paddr ∧ ∀ r ∈ s.live, paddr + pageSize ≤ r.paddr ∨ r.fin ≤ paddr

/-- `m` differs from the memory of `s` in free pages only. -/
def DiffersOnFree (s : UserPages n) (m : ℕ → UInt8) : Prop :=
  ∀ x, m x ≠ s.mem x → FreePage s (alignDownPage x)

/-- Whatever the free pages hold, a process reads the same in the pages that the operation takes
from the allocator and maps. -/
def ReadsTheSame (s : UserPages n) (op : MapOp n) : Prop :=
  ∀ m, DiffersOnFree s m → ∀ s' t', mapOp s op = some s' → mapOp { s with mem := m } op = some t' →
    ∀ p pg, FreePage s (translate (s'.procs p).pageTable pg) →
    ¬ FreePage s' (translate (s'.procs p).pageTable pg) →
      ∀ off < pageSize, s'.mem (translate (s'.procs p).pageTable pg + off) =
        t'.mem (translate (t'.procs p).pageTable pg + off)

/-- No page is taken from the allocator: the fault is in no block, no block can be allocated, the
size is zero, the thread's block is used again, or the allocator has nothing. -/
def TakesNoPage (s : UserPages n) : MapOp n → Prop
  | .fault p addr paddr =>
    paddr = 0 ∨ ∀ b ∈ (s.procs p).vm.inuseMapped, ¬ (b.base ≤ addr ∧ addr < add64 b.base b.size)
  | .mapKernel p size _ => alignUpPage size = 0 ∨ allocTarget (s.procs p).vm 0 (alignUpPage size) = none
  | .mapCross _ r remoteVbase size paddrs =>
    let mapSize := sub64 (alignUpPage (add64 remoteVbase size)) (alignDownPage remoteVbase)
    (∀ a ∈ paddrs, a = 0) ∨ allocTarget (s.procs r).vm (alignDownPage remoteVbase) mapSize = none
  | .thread p t => (s.procs p).vm.reuseMapped ≠ [] ∨ (t.tlsPaddr = 0 ∧ t.stackPaddr = 0)

instance TakesNoPage.decidable (s : UserPages n) (op : MapOp n) : Decidable (TakesNoPage s op) := by
  cases op <;> unfold TakesNoPage <;> infer_instance

/-- The lists hold blocks of whole pages, and what is available ends below the last page of the
address space. -/
structure BlocksFit (s : UserPages n) : Prop where
  inuse : ∀ p, ∀ b ∈ (s.procs p).vm.inuseMapped, pageSize ∣ b.base ∧ pageSize ∣ b.size
  avail : ∀ p, ∀ b ∈ (s.procs p).vm.availUnmapped,
    pageSize ∣ b.base ∧ pageSize ∣ b.size ∧ b.fin + pageSize < word

end Toddler
