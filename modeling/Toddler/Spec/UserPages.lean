import Toddler.Spec.Tlb

/-! How pages get into the address spaces of user processes and out of them (`kernel/proc/vm.c`, and
`load_coreimg_elf` of `kernel/proc/process.c`). A call is one step; the loop of
`vm_free_block_pages` takes one step per access, so that the cleaners of the processes interleave.
What `palloc` answers is part of the action, 0 when it has no page. The HAL's page tables are kept
per page, without attributes. A panic is `none`. -/

namespace Toddler

/-- The HAL's bounds of the dynamic area are page-aligned. -/
structure PageConfig extends VmConfig where
  start_dvd : pageSize ∣ start
  fin_dvd : pageSize ∣ fin

def halMapPage (pageTable : List Translation) (page paddr : ℕ) : Option (List Translation) :=
  if page = 0 ∧ paddr ≠ 0 then none
  else
    match pageTable.find? fun e => e.page = page with
    | some e => if e.paddr = paddr then some pageTable else none
    | none => some (⟨page, paddr⟩ :: pageTable)

def halMapPages (pageTable : List Translation) (page paddr : ℕ) : ℕ → Option (List Translation)
  | 0 => some pageTable
  | k + 1 => do
    let pageTable ← halMapPage pageTable page paddr
    halMapPages pageTable (page + 1) (add64 paddr pageSize) k

def halRangePages (vaddr size : ℕ) : ℕ :=
  (alignUpPage (add64 vaddr size) - alignDownPage vaddr) / pageSize

def halMapRange (pageTable : List Translation) (vaddr paddr size : ℕ) : Option (List Translation) :=
  halMapPages pageTable (vaddr / pageSize) (alignDownPage paddr) (halRangePages vaddr size)

structure PageRun (n : ℕ) where
  paddr : ℕ
  count : ℕ
  owner : Option (Fin n)
  deriving DecidableEq, Repr

def PageRun.fin {n : ℕ} (r : PageRun n) : ℕ := r.paddr + r.count * pageSize

structure UserProc where
  vm : Vm
  pageTable : List Translation
  numPallocPages : ℤ
  cleaner : Option PageCleaner
  deriving DecidableEq, Repr

structure CrossMap (n : ℕ) where
  owner : Fin n
  ownerBlock : ℕ
  guest : Fin n
  guestBlock : ℕ
  deriving DecidableEq, Repr

/-- `n` processes and the physical memory. `crosses` is history. -/
structure UserPages (n : ℕ) where
  procs : Fin n → UserProc
  live : List (PageRun n)
  mem : ℕ → UInt8
  crosses : List (CrossMap n)

variable {n : ℕ}

def UserPages.setProc (s : UserPages n) (p : Fin n) (u : UserProc) : UserPages n :=
  { s with procs := Function.update s.procs p u }

/-- `palloc` answers `paddr`: nothing, or pages of which none is in use. -/
def pallocPaddr (live : List (PageRun n)) (owner : Option (Fin n)) (paddr count : ℕ) :
    Option (List (PageRun n)) :=
  if paddr = 0 then some live
  else if pageSize ∣ paddr ∧ ∀ r ∈ live, paddr + count * pageSize ≤ r.paddr ∨ r.fin ≤ paddr then
    some (⟨paddr, count, owner⟩ :: live)
  else none

def pfreePaddr (live : List (PageRun n)) (paddr : ℕ) : List (PageRun n) := live.filter fun r =>
    r.paddr ≠ paddr

def Vm.setMapType (s : Vm) (id : ℕ) (t : VmMapType) : Vm :=
  { s with inuseMapped := s.inuseMapped.map fun b => if b.id = id then { b with mapType := t }
    else b }

def vmAllocAs (s : UserPages n) (p : Fin n) (base size : ℕ) (t : VmMapType) :
    UserPages n × Option VmBlock :=
  match vmAlloc (s.procs p).vm base size with
  | (vm, none) => (s.setProc p { s.procs p with vm := vm }, none)
  | (vm, some b) => (s.setProc p { s.procs p with vm := vm.setMapType b.id t }, some b)

def growPage (s : UserPages n) (p : Fin n) (vaddr paddr : ℕ) : Option (UserPages n) := do
  let live ← pallocPaddr s.live (some p) paddr 1
  let pageTable ← halMapRange (s.procs p).pageTable vaddr paddr pageSize
  some ({ s with live := live }.setProc p { s.procs p with
    pageTable := pageTable
    numPallocPages := (s.procs p).numPallocPages + 1 })

def vmMap (s : UserPages n) (p : Fin n) (addr paddr : ℕ) : Option (UserPages n) :=
  match (s.procs p).vm.inuseMapped.find? fun b => b.base ≤ addr && addr < add64 b.base b.size with
  | none => some s
  | some b => do
    let s ← growPage s p (alignDownPage addr) paddr
    -- a fault in a guest block panics
    if b.mapType = .guest then none
    else some (s.setProc p { s.procs p with vm := (s.procs p).vm.setMapType b.id .owner })

/-- `vm_map_coreimg`, `vm_map_devtree` and `vm_map_dev` from their `vm_alloc` on. -/
def vmMapGuest (s : UserPages n) (p : Fin n) (paddr mapSize : ℕ) : Option (UserPages n) :=
  match vmAllocAs s p 0 mapSize .guest with
  | (s, none) => some s
  | (s, some b) => do
    let pageTable ← halMapRange (s.procs p).pageTable b.base paddr b.size
    some (s.setProc p { s.procs p with pageTable := pageTable })

/-- The size of the pages around `size` bytes at the kernel address `ptr`. -/
def kernelMapSize (ptr size : ℕ) : ℕ := sub64 (alignUpPage (add64 ptr size)) (alignDownPage ptr)

def vmMapCoreimg (s : UserPages n) (p : Fin n) (ci size paddr : ℕ) : Option (UserPages n) :=
  if ci = 0 ∨ size = 0 then some s else vmMapGuest s p paddr (kernelMapSize ci size)

def vmMapDevtree (s : UserPages n) (p : Fin n) (dt size paddr : ℕ) : Option (UserPages n) :=
  if dt = 0 ∨ size = 0 then some s else vmMapGuest s p paddr (kernelMapSize dt size)

def vmMapDev (s : UserPages n) (p : Fin n) (ppfn size : ℕ) : Option (UserPages n) :=
  vmMapGuest s p (ppfn * pageSize % word) (alignUpPage size)

def mapKernelLoop (p : Fin n) : List ℕ → ℕ → UserPages n → Option (UserPages n)
  | [], _, s => some s
  | paddr :: rest, vaddr, s =>
    if paddr = 0 then none
    else do
      let s ← growPage s p vaddr paddr
      mapKernelLoop p rest (add64 vaddr pageSize) s

def vmMapKernel (s : UserPages n) (p : Fin n) (size : ℕ) (paddrs : List ℕ) : Option (UserPages n) :=
  let mapSize := alignUpPage size
  match vmAllocAs s p 0 mapSize .owner with
  | (s, none) => some s
  | (s, some b) => if paddrs.length = mapSize / pageSize then mapKernelLoop p paddrs b.base s else none

/-- The loop of `vm_map_cross`, at `remoteVaddr` in the owner `r` and at `localVaddr` in the guest
`p`. -/
def mapCrossLoop (p r : Fin n) : List ℕ → ℕ → ℕ → UserPages n → Option (UserPages n)
  | [], _, _, s => some s
  | paddr :: rest, remoteVaddr, localVaddr, s => do
    let s ← growPage s r remoteVaddr paddr
    let pageTable ← halMapRange (s.procs p).pageTable localVaddr paddr pageSize
    mapCrossLoop p r rest (add64 remoteVaddr pageSize) (add64 localVaddr pageSize)
      (s.setProc p { s.procs p with pageTable := pageTable })

def vmMapCross (s : UserPages n) (p r : Fin n) (remoteVbase size : ℕ) (paddrs : List ℕ) :
    Option (UserPages n) :=
  let remoteMapVbase := alignDownPage remoteVbase
  let mapSize := sub64 (alignUpPage (add64 remoteVbase size)) remoteMapVbase
  match vmAllocAs s r remoteMapVbase mapSize .owner with
  | (s, none) => some s
  | (s, some remote) =>
    match vmAllocAs s p 0 mapSize .guest with
    | (_, none) => none
    | (s, some loc) =>
      if paddrs.length = mapSize / pageSize then
        mapCrossLoop p r paddrs remoteMapVbase loc.base
          { s with crosses := ⟨r, remote.id, p, loc.id⟩ :: s.crosses }
      else none

def memzero (mem : ℕ → UInt8) (paddr size : ℕ) : ℕ → UInt8 :=
  fun a => if paddr ≤ a ∧ a < paddr + size then 0 else mem a

def memcpy (mem : ℕ → UInt8) (paddr : ℕ) (data : List UInt8) : ℕ → UInt8 :=
  fun a => if paddr ≤ a then (data[a - paddr]?).getD (mem a) else mem a

/-- A program header; `data` are the `program_filesz` bytes at `program_offset`. -/
structure ElfSegment where
  programType : ℕ
  vaddr : ℕ
  memsz : ℕ
  data : List UInt8
  deriving DecidableEq

/-- One round of `load_coreimg_elf`, with `vrange_start` and `vrange_end`. -/
def loadSegment (p : Fin n) (acc : UserPages n × ℕ × ℕ) (g : ElfSegment × ℕ) :
    Option (UserPages n × ℕ × ℕ) :=
  let (s, vrangeStart, vrangeEnd) := acc
  let (seg, paddr) := g
  if seg.programType = 1 ∧ seg.memsz ≠ 0 then do
    let vaddrStart := alignDownPage seg.vaddr
    let vaddrEnd := alignUpPage (add64 seg.vaddr seg.memsz)
    let vaddrRange := sub64 vaddrEnd vaddrStart
    let vpages := alignUpPage vaddrRange / pageSize
    let live ← pallocPaddr s.live (some p) paddr vpages
    let pageTable ← halMapRange (s.procs p).pageTable vaddrStart paddr vaddrRange
    if halRangePages vaddrStart vaddrRange ≠ vpages then none
    else
      let mem := memcpy (memzero s.mem paddr vaddrRange) (paddr + (seg.vaddr - vaddrStart)) seg.data
      some ({ s with live := live, mem := mem }.setProc p { s.procs p with pageTable := pageTable },
        min vaddrStart vrangeStart, max vaddrEnd vrangeEnd)
  else some acc

/-- `load_coreimg_elf`; every segment comes with the answer of `palloc` to it. -/
def loadCoreimgElf (s : UserPages n) (p : Fin n) (segs : List (ElfSegment × ℕ)) :
    Option (UserPages n) := do
  let (s, vrangeStart, vrangeEnd) ← segs.foldlM (loadSegment p) (s, word - 1, 0)
  match vmAllocAs s p vrangeStart (sub64 vrangeEnd vrangeStart) .none with
  | (_, none) => none
  | (s, some _) => some s

inductive PageAction (n : ℕ)
  | loadElf (p : Fin n) (segs : List (ElfSegment × ℕ))
  | alloc (p : Fin n) (base size : ℕ)
  | fault (p : Fin n) (addr paddr : ℕ)
  | mapCoreimg (p : Fin n) (ci size paddr : ℕ)
  | mapDevtree (p : Fin n) (dt size paddr : ℕ)
  | mapDev (p : Fin n) (ppfn size : ℕ)
  | mapKernel (p : Fin n) (size : ℕ) (paddrs : List ℕ)
  | mapCross (p r : Fin n) (remoteVbase size : ℕ) (paddrs : List ℕ)
  | free (p : Fin n) (base : ℕ)
  | purge (p : Fin n)
  | shootdownDone (p : Fin n) (id : ℕ)
  | cleanerTake (p : Fin n)
  | cleanerUnmap (p : Fin n)
  | cleanerFree (p : Fin n)
  | cleanerDone (p : Fin n)
  deriving DecidableEq

/-- A step of `vm_move_sanit_to_avail` on the process `u`, without `pfree_paddr`. -/
def UserProc.take (u : UserProc) : Option UserProc :=
  match u.cleaner, u.vm.sanitUnmapped with
  | none, b :: rest => some { u with
      vm := { u.vm with sanitUnmapped := rest }
      cleaner := some ⟨b, 0, 0, none⟩ }
  | _, _ => none

def UserProc.unmap (u : UserProc) : Option UserProc := do
  let k ← u.cleaner
  if k.toFree = none ∧ k.offset < k.block.size then
    some { u with
      pageTable := (cleanerUnmap u.pageTable k).1
      cleaner := some (cleanerUnmap u.pageTable k).2 }
  else none

def UserProc.done (u : UserProc) : Option UserProc := do
  let k ← u.cleaner
  if k.toFree = none ∧ k.block.size ≤ k.offset then
    some { u with vm := vmMoveOneToAvail u.vm k.block, cleaner := none }
  else none

def cleanerFree (s : UserPages n) (p : Fin n) : Option (UserPages n) := do
  let k ← (s.procs p).cleaner
  let paddr ← k.toFree
  some ({ s with live := pfreePaddr s.live paddr }.setProc p { s.procs p with
    numPallocPages := (s.procs p).numPallocPages - 1
    cleaner := some { k with toFree := none, offset := k.offset + pageSize } })

def pageStep (c : PageConfig) (s : UserPages n) : PageAction n → Option (UserPages n)
  | .loadElf p segs => loadCoreimgElf s p segs
  | .alloc p base size => some (vmAllocAs s p base size .owner).1
  | .fault p addr paddr => vmMap s p addr paddr
  | .mapCoreimg p ci size paddr => vmMapCoreimg s p ci size paddr
  | .mapDevtree p dt size paddr => vmMapDevtree s p dt size paddr
  | .mapDev p ppfn size => vmMapDev s p ppfn size
  | .mapKernel p size paddrs => vmMapKernel s p size paddrs
  | .mapCross p r remoteVbase size paddrs => vmMapCross s p r remoteVbase size paddrs
  | .free p base => (vmFree c.toVmConfig (s.procs p).vm base).map fun vm =>
    s.setProc p { s.procs p with vm := vm }
  | .purge p => (vmPurge c.toVmConfig (s.procs p).vm).map fun vm =>
    s.setProc p { s.procs p with vm := vm }
  | .shootdownDone p id =>
    (vmMoveToSanitUnmapped (s.procs p).vm id).map fun vm => s.setProc p { s.procs p with vm := vm }
  | .cleanerTake p => (s.procs p).take.map (s.setProc p)
  | .cleanerUnmap p => (s.procs p).unmap.map (s.setProc p)
  | .cleanerFree p => Toddler.cleanerFree s p
  | .cleanerDone p => (s.procs p).done.map (s.setProc p)

/-- Processes right after `vm_create`, with nothing mapped, in a system where the runs `live` are
the kernel's. -/
def pagesInit (c : PageConfig) (live : List (PageRun n)) (mem : ℕ → UInt8) : UserPages n where
  procs := fun _ => ⟨vmCreate c.toVmConfig 0, [], 0, none⟩
  live := live.map fun r => { r with owner := none }
  mem := mem
  crosses := []

def UserProc.pending (u : UserProc) : Option ℕ := u.cleaner.bind PageCleaner.toFree

/-- `pfree_paddr` is only called on the first page of a run in use that belongs to the process,
after which the run is in use no more. When no block is active, no page is counted and none is in
use. -/
def PageOwnership (s : UserPages n) : Prop :=
  ∀ p, (∀ a ∈ (s.procs p).pending, ∃ r ∈ s.live, r.paddr = a ∧ r.owner = some p) ∧
    ((s.procs p).vm.numActiveBlocks = 0 → (s.procs p).numPallocPages = 0 ∧ ∀ r ∈ s.live,
    r.owner ≠ some p)

/-- No program is loaded by `load_coreimg_elf`. `palloc` does not fail in `vm_map` and
`vm_map_cross`, where its answer is not checked. The ends of requested ranges do not wrap. -/
def PagesSupplied (_ : UserPages n) : PageAction n → Prop
  | .loadElf _ _ => False
  | .alloc _ base size => base + size + (pageSize - 1) < word
  | .fault _ _ paddr => paddr ≠ 0
  | .mapCross _ _ remoteVbase size paddrs => remoteVbase + size + (pageSize - 1) < word ∧ 0 ∉ paddrs
  | _ => True

instance PagesSupplied.decidable (s : UserPages n) (a : PageAction n) :
    Decidable (PagesSupplied s a) := by
  cases a <;> unfold PagesSupplied <;> infer_instance

/-- A page about to be given to `pfree_paddr` is mapped by no other process. -/
def SharedUnmapped (s : UserPages n) : Prop :=
  ∀ p, ∀ a ∈ (s.procs p).pending, ∀ q, q ≠ p → ∀ page, translate (s.procs q).pageTable page ≠ a

/-- The calls of `vm_map_cross`, of the other allocations, of the frees and of the cleaners. -/
def CrossAction (_ : UserPages n) : PageAction n → Prop
  | .loadElf _ _ | .mapCoreimg _ _ _ _ | .mapDevtree _ _ _ _ | .mapDev _ _ _ => False
  | _ => True

instance CrossAction.decidable (s : UserPages n) (a : PageAction n) :
    Decidable (CrossAction s a) := by
  cases a <;> unfold CrossAction <;> infer_instance

def UserProc.blocks (u : UserProc) : List VmBlock :=
  u.cleaner.toList.map PageCleaner.block ++ u.vm.active

/-- The cleaner takes up the owner's block of a `vm_map_cross` only after the guest's block has been
cleaned. -/
def GuestFirst (s : UserPages n) (a : PageAction n) : Prop :=
  CrossAction s a ∧ PagesSupplied s a ∧
    match a with
    | .cleanerTake p => ∀ b ∈ (s.procs p).vm.sanitUnmapped.head?, ∀ x ∈ s.crosses,
        x.owner = p → x.ownerBlock = b.id → x.guestBlock ∉ (s.procs x.guest).blocks.map VmBlock.id
    | _ => True

instance GuestFirst.decidable (s : UserPages n) (a : PageAction n) :
    Decidable (GuestFirst s a) := by
  cases a <;> unfold GuestFirst <;> infer_instance

end Toddler
