import Toddler.Spec.Vm

/-! TLB shootdown (`kernel/proc/tlb.c`) and the freeing of a block's pages (`kernel/proc/vm.c`) for
one process on `n` CPUs. A traversal of the locked request list is one step. The page table and the
TLBs are kept per page; physical address 0 means that a page is not mapped. -/

namespace Toddler

open Function

structure Translation where
  page : ℕ
  paddr : ℕ
  deriving DecidableEq, Repr

def translate (pageTable : List Translation) (page : ℕ) : ℕ :=
  ((pageTable.find? fun e => e.page = page).map Translation.paddr).getD 0

def unmapPage (pageTable : List Translation) (page : ℕ) : List Translation :=
  pageTable.filter fun e => e.page ≠ page

def VmBlock.hasPage (b : VmBlock) (page : ℕ) : Bool :=
  b.base / pageSize ≤ page && page * pageSize < b.fin

def invalidateTlb (tlb : List Translation) (b : VmBlock) : List Translation :=
  tlb.filter fun e => !b.hasPage e.page

/-- A block on `tlb_shootdown_reqs`. `ackedBy` is history: the CPUs that decremented `wait_acks`. -/
structure ShootdownReq (n : ℕ) where
  block : VmBlock
  waitAcks : ℤ
  seq : ℕ
  ackedBy : List (Fin n)
  deriving DecidableEq, Repr

/-- Where a CPU stands in `service_tlb_shootdown_requests`: outside, before `flush`, or before the
loop that pops the requests. -/
inductive ServicePoint
  | outside
  | flush
  | pop
  deriving DecidableEq, Repr

/-- `vm_free_block_pages` at work on a block. `toFree` is the page it has unmapped and is about to
give to `pfree_paddr`. -/
structure PageCleaner where
  block : VmBlock
  offset : ℕ
  prevPaddr : ℕ
  toFree : Option ℕ
  deriving DecidableEq, Repr

def PageCleaner.page (k : PageCleaner) : ℕ := (k.block.base + k.offset) / pageSize

structure TlbState (n : ℕ) where
  vm : Vm
  pageTable : List Translation
  tlb : Fin n → List Translation
  reqs : List (ShootdownReq n)
  seq : ℕ
  localSeq : Fin n → ℕ
  point : Fin n → ServicePoint
  cleaner : Option PageCleaner

variable {n : ℕ}

def requestTlbShootdown (s : TlbState n) (cpu : Fin n) (b : VmBlock) : Option (TlbState n) :=
  if n ≤ 1 then do
    let vm ← vmMoveToSanitUnmapped s.vm b.id
    some { s with tlb := update s.tlb cpu (invalidateTlb (s.tlb cpu) b), vm := vm }
  else some { s with reqs := s.reqs ++ [⟨b, n, s.seq, []⟩], seq := add64 s.seq 1 }

def tlbFreeBlock (s : TlbState n) (cpu : Fin n) (id : ℕ) : Option (TlbState n) := do
  let b ← s.vm.inuseMapped.find? fun b => b.id = id
  match vmChooseSanit { s.vm with inuseMapped := s.vm.inuseMapped.erase b } b with
  | (vm, none) => some { s with vm := vm }
  | (vm, some b) =>
    requestTlbShootdown
      { s with vm := { vm with sanitMapped := listInsertSorted baseLe b vm.sanitMapped } } cpu b

def ackLoop (hasAsid : Bool) (cpu : Fin n) (mySeq : ℕ) (tlb : List Translation) :
    List (ShootdownReq n) → ℕ × List Translation × List (ShootdownReq n)
  | [] => (mySeq, tlb, [])
  | r :: rs =>
    if mySeq < r.seq then
      let next := ackLoop hasAsid cpu r.seq (if hasAsid then invalidateTlb tlb r.block else tlb) rs
      (next.1, next.2.1, { r with waitAcks := r.waitAcks - 1, ackedBy := cpu :: r.ackedBy } :: next.2.2)
    else
      let next := ackLoop hasAsid cpu mySeq tlb rs
      (next.1, next.2.1, r :: next.2.2)

def popLoop (vm : Vm) : List (ShootdownReq n) → Option (Vm × List (ShootdownReq n))
  | [] => some (vm, [])
  | r :: rs =>
    if r.waitAcks ≠ 0 then some (vm, r :: rs)
    else do
      let vm ← vmMoveToSanitUnmapped vm r.block.id
      popLoop vm rs

def cleanerUnmap (pageTable : List Translation) (k : PageCleaner) :
    List Translation × PageCleaner :=
  let paddr := translate pageTable k.page
  if paddr ≠ 0 ∧ paddr ≠ k.prevPaddr then
    if k.block.mapType = .owner then
      (unmapPage pageTable k.page, { k with prevPaddr := paddr, toFree := some paddr })
    else (unmapPage pageTable k.page, { k with prevPaddr := paddr, offset := k.offset + pageSize })
  else (pageTable, { k with offset := k.offset + pageSize })

inductive TlbAction (n : ℕ)
  | freeBlock (cpu : Fin n) (id : ℕ)
  | serviceAcks (cpu : Fin n)
  | serviceFlush (cpu : Fin n)
  | servicePop (cpu : Fin n)
  | refill (cpu : Fin n) (page : ℕ)
  | cleanerTake
  | cleanerUnmap
  | cleanerFree
  | cleanerDone
  deriving DecidableEq, Repr

def tlbStep (hasAsid : Bool) (s : TlbState n) : TlbAction n → Option (TlbState n)
  | .freeBlock cpu id => tlbFreeBlock s cpu id
  | .serviceAcks cpu =>
    if s.point cpu = .outside then
      let r := ackLoop hasAsid cpu (s.localSeq cpu) (s.tlb cpu) s.reqs
      some { s with
        localSeq := update s.localSeq cpu r.1
        tlb := update s.tlb cpu r.2.1
        reqs := r.2.2
        point := update s.point cpu (if hasAsid then .pop else .flush) }
    else none
  | .serviceFlush cpu =>
    if s.point cpu = .flush then
      some { s with
        tlb := update s.tlb cpu []
        point := update s.point cpu .pop }
    else none
  | .servicePop cpu =>
    if s.point cpu = .pop then do
      let r ← popLoop s.vm s.reqs
      some { s with vm := r.1, reqs := r.2, point := update s.point cpu .outside }
    else none
  | .refill cpu page =>
    if translate s.pageTable page ≠ 0 then
      some { s with tlb := update s.tlb cpu (⟨page, translate s.pageTable page⟩ :: s.tlb cpu) }
    else none
  | .cleanerTake =>
    match s.cleaner, s.vm.sanitUnmapped with
    | none, b :: rest =>
      some { s with vm := { s.vm with sanitUnmapped := rest }, cleaner := some ⟨b, 0, 0, none⟩ }
    | _, _ => none
  | .cleanerUnmap => do
    let k ← s.cleaner
    if k.toFree = none ∧ k.offset < k.block.size then
      some { s with
        pageTable := (Toddler.cleanerUnmap s.pageTable k).1
        cleaner := some (Toddler.cleanerUnmap s.pageTable k).2 }
    else none
  -- `pfree_paddr`
  | .cleanerFree => do
    let k ← s.cleaner
    let _ ← k.toFree
    some { s with cleaner := some { k with toFree := none, offset := k.offset + pageSize } }
  | .cleanerDone => do
    let k ← s.cleaner
    if k.toFree = none ∧ k.block.size ≤ k.offset then
      some { s with vm := vmMoveOneToAvail s.vm k.block, cleaner := none }
    else none

structure TlbInit (s : TlbState n) : Prop where
  ids : (s.vm.inuseMapped.map VmBlock.id).Nodup
  reuse : s.vm.reuseMapped = []
  sanitMapped : s.vm.sanitMapped = []
  sanitUnmapped : s.vm.sanitUnmapped = []
  reqs : s.reqs = []
  seq : s.seq = 1
  localSeq : ∀ cpu, s.localSeq cpu = 0
  point : ∀ cpu, s.point cpu = .outside
  cleaner : s.cleaner = none
  tlb : ∀ cpu, ∀ e ∈ s.tlb cpu, translate s.pageTable e.page = e.paddr

/-- No TLB holds a translation to a page that is about to be given to `pfree_paddr`. -/
def PfreeSafe (s : TlbState n) : Prop :=
  ∀ k ∈ s.cleaner, ∀ p ∈ k.toFree, ∀ cpu, ∀ e ∈ s.tlb cpu, e.paddr ≠ p

/-- No CPU loads a translation for a page of a freed block after it has acknowledged the block's
shootdown. Without ASIDs no request is completed while a CPU that has acknowledged it has yet to
flush. A page is unmapped for freeing only if it is mapped at no other address. -/
def QuietStep (hasAsid : Bool) (s : TlbState n) : TlbAction n → Prop
  | .refill cpu page =>
    (∀ r ∈ s.reqs, cpu ∈ r.ackedBy → r.block.hasPage page = false) ∧
      (∀ b ∈ s.vm.sanitUnmapped, b.hasPage page = false) ∧
      ∀ k ∈ s.cleaner, k.block.hasPage page = false
  | .servicePop _ =>
    hasAsid = true ∨ ∀ r ∈ s.reqs, r.waitAcks = 0 → ∀ cpu ∈ r.ackedBy, s.point cpu ≠ .flush
  | .cleanerUnmap => ∀ k ∈ s.cleaner, ∀ e ∈ s.pageTable,
      translate s.pageTable e.page = translate s.pageTable k.page → e.page = k.page
  | _ => True

instance QuietStep.decidable (hasAsid : Bool) (s : TlbState n) (a : TlbAction n) :
    Decidable (QuietStep hasAsid s a) := by
  cases a <;> unfold QuietStep <;> infer_instance

end Toddler
