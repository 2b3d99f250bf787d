import Toddler.Lib.Run
import Toddler.Lib.Word
import Toddler.Lib.Cover
import Toddler.Spec.List

/-! The dynamic area of a process, `kernel/proc/vm.c`. A block is a `struct vm_block` with an `id`
that stands for its address, and the five lists of `struct process_memory` are sequences of blocks.
The page tables behind the blocks are not part of this state. A panic is `none`. -/

namespace Toddler

def pageSize : ℕ := 4096

/-- `ALIGN_UP` and `ALIGN_DOWN` to a page, in 64-bit arithmetic. -/
def alignUpPage (x : ℕ) : ℕ := add64 x (pageSize - 1) / pageSize * pageSize

def alignDownPage (x : ℕ) : ℕ := x / pageSize * pageSize

inductive VmType
  | avail
  | generic
  | thread
  deriving DecidableEq, Repr

inductive VmMapType
  | none
  | owner
  | guest
  deriving DecidableEq, Repr

structure VmBlock where
  id : ℕ
  base : ℕ
  size : ℕ
  type : VmType
  mapType : VmMapType
  deriving DecidableEq, Repr

def VmBlock.fin (b : VmBlock) : ℕ := b.base + b.size

/-- The bounds of the dynamic area, which `create_process` takes from the HAL, and the number of
CPUs. -/
structure VmConfig where
  start : ℕ
  fin : ℕ
  numCpus : ℕ
  start_pos : 0 < start
  start_lt : start < fin
  fin_lt : fin < word

/-- `struct process_memory`, the process's `ref_count` and the next address that `salloc`
returns. -/
structure Vm where
  availUnmapped : List VmBlock
  inuseMapped : List VmBlock
  reuseMapped : List VmBlock
  sanitMapped : List VmBlock
  sanitUnmapped : List VmBlock
  numActiveBlocks : ℤ
  numSallocObjs : ℤ
  refCount : ℤ
  nextId : ℕ
  deriving DecidableEq, Repr

def baseLe (a b : VmBlock) : Bool := a.base ≤ b.base

def availListMerge (a b : VmBlock) : Option VmBlock :=
  if add64 a.base a.size = b.base then some { a with size := add64 a.size b.size } else none

def vmCreate (c : VmConfig) (refCount : ℤ) : Vm where
  availUnmapped := [⟨0, c.start, c.fin - c.start, .avail, .none⟩]
  inuseMapped := []
  reuseMapped := []
  sanitMapped := []
  sanitUnmapped := []
  numActiveBlocks := 0
  numSallocObjs := 1
  refCount := refCount + 1
  nextId := 1

def vmAllocThread (s : Vm) (blockSize : ℕ) : Option (Vm × Option VmBlock) :=
  match s.reuseMapped.getLast? with
  | some b =>
    if b.size ≠ blockSize then none
    else some ({ s with
      reuseMapped := s.reuseMapped.dropLast
      inuseMapped := listInsertSorted baseLe b s.inuseMapped }, some b)
  | none =>
    match s.availUnmapped.getLast? with
    | none => some ({ s with nextId := s.nextId + 1 }, none)
    | some last =>
      if last.size < blockSize then some ({ s with nextId := s.nextId + 1 }, none)
      else
        let size := last.size - blockSize
        let base := add64 last.base size
        let deleted := if size = 0 then 1 else 0
        let avail := s.availUnmapped.dropLast ++ if size = 0 then [] else [{ last with size := size }]
        let s := { s with
          availUnmapped := avail
          numActiveBlocks := s.numActiveBlocks + 1
          refCount := s.refCount + 1 - deleted
          numSallocObjs := s.numSallocObjs - deleted
          nextId := s.nextId + 1 }
        -- a block at address 0 is taken for a failure
        if base ≠ 0 then
          let b := ⟨s.nextId - 1, base, blockSize, .thread, .owner⟩
          some ({ s with
            numSallocObjs := s.numSallocObjs + 1
            inuseMapped := listInsertSorted baseLe b s.inuseMapped }, some b)
        else some (s, none)

def allocFits (base fin size : ℕ) (cur : VmBlock) : Bool :=
  if base ≠ 0 then cur.base ≤ base && fin ≤ add64 cur.base cur.size else size ≤ cur.size

/-- What `vm_alloc` leaves of the block it allocates from; `extraId` is the block `extra_b`. -/
def allocCarve (base fin size extraId : ℕ) (t : VmBlock) : List VmBlock :=
  if base ≠ 0 then
    let tEnd := add64 t.base t.size
    if t.base = base then
      if tEnd = fin then []
      else [{ t with base := add64 t.base size, size := sub64 t.size size }]
    else if tEnd = fin then [{ t with size := sub64 t.size size }]
    else [{ t with size := sub64 base t.base }, ⟨extraId, fin, sub64 tEnd fin, .avail, .none⟩]
  else
    let t := { t with size := sub64 t.size size, base := add64 t.base size }
    if t.size = 0 then [] else [t]

def replaceFirst {α : Type} (p : α → Bool) (f : α → List α) : List α → Option (α × List α)
  | [] => none
  | a :: l => if p a then some (a, f a ++ l) else (replaceFirst p f l).map fun r => (r.1, a :: r.2)

def vmAlloc (s : Vm) (base size : ℕ) : Vm × Option VmBlock :=
  let fin := alignUpPage (add64 base size)
  let base := alignDownPage base
  let size := sub64 fin base
  match replaceFirst (allocFits base fin size) (allocCarve base fin size (s.nextId + 1))
    s.availUnmapped with
  | none => ({ s with nextId := s.nextId + 2 }, none)
  | some (t, avail) =>
    let b := ⟨s.nextId, if base ≠ 0 then base else t.base, size, .generic, .none⟩
    -- one list node more or less for `extra_b` or `delete_block`
    let grown : ℤ := avail.length - s.availUnmapped.length
    ({ s with
      availUnmapped := avail
      inuseMapped := listInsertSorted baseLe b s.inuseMapped
      numActiveBlocks := s.numActiveBlocks + 1
      refCount := s.refCount + 1 + grown
      numSallocObjs := s.numSallocObjs + 1 + grown
      nextId := s.nextId + 2 }, some b)

def vmMoveToSanitUnmapped (s : Vm) (id : ℕ) : Option Vm := do
  let b ← s.sanitMapped.find? fun b => b.id = id
  some { s with sanitMapped := s.sanitMapped.erase b, sanitUnmapped := s.sanitUnmapped ++ [b] }

/-- What `request_tlb_shootdown` does to the lists; on several CPUs the move is left to the service
routine. -/
def vmRequestShootdown (c : VmConfig) (s : Vm) (b : VmBlock) : Option Vm :=
  if c.numCpus ≤ 1 then vmMoveToSanitUnmapped s b.id else some s

def sanitThreshold : ℕ := 0

def vmChooseSanit (s : Vm) (b : VmBlock) : Vm × Option VmBlock :=
  if b.type = .thread then
    let reuse := listInsertSorted baseLe b s.reuseMapped
    if sanitThreshold < reuse.length then ({ s with reuseMapped := reuse.tail }, reuse.head?)
    else ({ s with reuseMapped := reuse }, none)
  else (s, some b)

def vmFreeRemovedBlock (c : VmConfig) (s : Vm) (b : VmBlock) : Option Vm :=
  match vmChooseSanit s b with
  | (s, none) => some s
  | (s, some b) => vmRequestShootdown c
      { s with sanitMapped := listInsertSorted baseLe b s.sanitMapped } b

def vmFreeBlock (c : VmConfig) (s : Vm) (id : ℕ) : Option Vm := do
  let b ← s.inuseMapped.find? fun b => b.id = id
  vmFreeRemovedBlock c { s with inuseMapped := s.inuseMapped.erase b } b

def vmFree (c : VmConfig) (s : Vm) (base : ℕ) : Option Vm := do
  let b ← s.inuseMapped.find? fun b => b.base = base
  vmFreeBlock c s b.id

def vmMoveOneToAvail (s : Vm) (b : VmBlock) : Vm :=
  let r := listInsertMergeSorted baseLe availListMerge b s.availUnmapped
  { s with
    availUnmapped := r.1
    refCount := s.refCount - r.2.length
    numSallocObjs := s.numSallocObjs - r.2.length
    numActiveBlocks := s.numActiveBlocks - 1 }

def vmMoveSanitToAvail (s : Vm) : Vm :=
  s.sanitUnmapped.foldl vmMoveOneToAvail { s with sanitUnmapped := [] }

def vmPurge (c : VmConfig) (s : Vm) : Option Vm :=
  s.inuseMapped.foldlM (vmFreeRemovedBlock c) { s with inuseMapped := [] }

inductive VmCall
  | alloc (base size : ℕ)
  | allocThread (blockSize : ℕ)
  | freeBlock (id : ℕ)
  | free (base : ℕ)
  | purge
  | moveToSanitUnmapped (id : ℕ)
  | moveSanitToAvail
  deriving DecidableEq, Repr

def vmStep (c : VmConfig) (s : Vm) : VmCall → Option Vm
  | .alloc base size => some (vmAlloc s base size).1
  | .allocThread blockSize => (vmAllocThread s blockSize).map Prod.fst
  | .freeBlock id => vmFreeBlock c s id
  | .free base => vmFree c s base
  | .purge => vmPurge c s
  | .moveToSanitUnmapped id => vmMoveToSanitUnmapped s id
  | .moveSanitToAvail => some (vmMoveSanitToAvail s)

def AllocNoWrap (_ : Vm) : VmCall → Prop
  | .alloc base size => base + size + (pageSize - 1) < word
  | _ => True

def AllocNonZero (s : Vm) (a : VmCall) : Prop :=
  AllocNoWrap s a ∧
    match a with
    | .alloc _ size => size ≠ 0
    | .allocThread blockSize => blockSize ≠ 0
    | _ => True

instance AllocNoWrap.decidable (s : Vm) (a : VmCall) : Decidable (AllocNoWrap s a) := by
  cases a <;> unfold AllocNoWrap <;> infer_instance

instance AllocNonZero.decidable (s : Vm) (a : VmCall) : Decidable (AllocNonZero s a) := by
  cases a <;> unfold AllocNonZero <;> infer_instance

def Vm.active (s : Vm) : List VmBlock :=
  s.inuseMapped ++ s.reuseMapped ++ s.sanitMapped ++ s.sanitUnmapped

/-- The blocks of the five lists partition the dynamic area, none is linked twice, and
`num_active_blocks` counts those that are not available. -/
structure VmPartition (c : VmConfig) (s : Vm) : Prop where
  disjoint : (s.availUnmapped ++ s.active).Pairwise (Apart VmBlock.base VmBlock.fin)
  union : ∀ x, (∃ b ∈ s.availUnmapped ++ s.active, b.base ≤ x ∧ x < b.fin) ↔ c.start ≤ x ∧ x < c.fin
  once : ((s.availUnmapped ++ s.active).map VmBlock.id).Nodup
  active : s.numActiveBlocks = s.active.length

def AvailSorted (s : Vm) : Prop := s.availUnmapped.Pairwise fun a b => a.base < b.base

def AvailNotAdjacent (s : Vm) : Prop :=
  ∀ a ∈ s.availUnmapped, ∀ b ∈ s.availUnmapped, a.fin = b.base → a = b

/-- An `avail_unmapped` of sorted, disjoint, page-aligned blocks. -/
structure AvailOk (l : List VmBlock) : Prop where
  sorted : l.Pairwise fun a b => a.base ≤ b.base
  disjoint : l.Pairwise fun a b => ∀ x, ¬ ((a.base ≤ x ∧ x < a.fin) ∧ (b.base ≤ x ∧ x < b.fin))
  aligned : ∀ b ∈ l, pageSize ∣ b.base ∧ pageSize ∣ b.size
  noWrap : ∀ b ∈ l, b.fin < word

/-- The block `b` was cut out of one available block, contains the request, and what is available
afterwards is the rest. -/
structure AllocGiven (s s' : Vm) (base size : ℕ) (b : VmBlock) : Prop where
  enough : size ≤ b.size
  contains : base ≠ 0 → b.base ≤ base ∧ base + size ≤ b.fin
  inside : ∃ t ∈ s.availUnmapped, t.base ≤ b.base ∧ b.fin ≤ t.fin
  rest : ∀ x, cover VmBlock.base VmBlock.fin (b :: s'.availUnmapped) x =
    cover VmBlock.base VmBlock.fin s.availUnmapped x

/-- What `vm_alloc` promises: nothing is changed, or a block is given. Two addresses of `salloc` are
used up in both cases. -/
def AllocSafe (s : Vm) (base size : ℕ) : Prop :=
  match vmAlloc s base size with
  | (s', none) => s' = { s with nextId := s'.nextId }
  | (s', some b) => AllocGiven s s' base size b

/-- The block that the search of `vm_alloc` stops at. -/
def allocTarget (s : Vm) (base size : ℕ) : Option VmBlock :=
  let fin := alignUpPage (add64 base size)
  let base := alignDownPage base
  s.availUnmapped.find? (allocFits base fin (sub64 fin base))

/-- When the search stops at a block, rounding the end of the request up does not wrap, and a base
within page 0, which rounds down to the base that means anywhere, finds the block at address 0. -/
def AllocFits (s : Vm) (base size : ℕ) : Prop :=
  ∀ t, allocTarget s base size = some t →
    base + size + (pageSize - 1) < word ∧ (base = 0 ∨ pageSize ≤ base ∨ t.base = 0)

end Toddler
