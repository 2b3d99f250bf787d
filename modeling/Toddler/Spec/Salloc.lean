import Toddler.Lib.DList
import Toddler.Spec.Math
import Toddler.Spec.Palloc

/-! The structure allocator (`kernel/mem/salloc.c`) on amd64. The memory is one function for each
field of `struct salloc_bucket` and of `struct salloc_magic_block`, at the address of the struct.
There is one salloc object; its name, its callbacks, the link of the buckets to it and the list of
all objects are left out. -/

namespace Toddler

open Function

def sizeofSallocBucket : ℕ := 48

def sizeofSallocMagicBlock : ℕ := 16

inductive SallocBucketState
  | bucketEmpty
  | bucketPartial
  | bucketFull
  deriving DecidableEq, Repr

/-- What `salloc_create` computes. -/
structure SallocObj where
  structSize : ℕ
  blockSize : ℕ
  alignment : ℕ
  blockStartOffset : ℕ
  bucketPageCount : ℕ
  bucketBlockCount : ℤ
  deriving DecidableEq, Repr

structure Salloc where
  obj : SallocObj
  partialNext : Option ℕ
  partialCount : ℤ
  numActiveObjs : ℤ
  numPallocPages : ℤ
  -- `struct salloc_bucket`
  prev : ℕ → Option ℕ
  next : ℕ → Option ℕ
  state : ℕ → SallocBucketState
  entryCount : ℕ → ℤ
  availCount : ℕ → ℤ
  block : ℕ → Option ℕ
  -- `struct salloc_magic_block`
  blockBucket : ℕ → ℕ
  blockNext : ℕ → Option ℕ

/-- The alignment, `DATA_ALIGNMENT` by default. -/
def sallocAlign {w : ℕ} (align : BitVec w) : BitVec w := if align = 0 then 8 else align

def sallocCount (count : BitVec 32) : BitVec 32 := if count = 0 then 32 else count

/-- `salloc_create` where an `ulong` has `w` bits and the two structs have the given sizes. -/
def sallocCreate {w : ℕ} (beyond : ℕ → BitVec 32)
    (sizeofBucket sizeofMagicBlock size align : BitVec w)
    (count : BitVec 32) : Option SallocObj := do
  let align := sallocAlign align
  let blockSize ← alignUpUlongAny beyond (size + sizeofMagicBlock) align
  let startOffset ← alignUpUlongAny beyond (sizeofBucket + sizeofMagicBlock) align
  let startOffset := startOffset - sizeofMagicBlock
  let totalSize := startOffset + blockSize * (sallocCount count).signExtend w
  let pageCount := totalSize / 4096 + if totalSize % 4096 = 0 then 0 else 1
  -- the argument is an `int`
  let order ← calcPallocOrder (pageCount.setWidth 32)
  let (blockCount, _) ← divU beyond (BitVec.twoPow w order * 4096 - startOffset) blockSize
  some ⟨size.toNat, blockSize.toNat, align.toNat, startOffset.toNat, 2 ^ order,
    (blockCount.setWidth 32).toInt⟩

namespace Salloc

def initBlocks (s : Salloc) (bucket : ℕ) : ℕ → Salloc
  | 0 => s
  | i + 1 =>
    let s := s.initBlocks bucket i
    let block := bucket + s.obj.blockStartOffset + i * s.obj.blockSize
    { s with
      blockBucket := update s.blockBucket block bucket
      blockNext := update s.blockNext block (s.block bucket)
      block := update s.block bucket (some block) }

def initBucket (s : Salloc) (bucket : ℕ) : Salloc :=
  { s with
    numPallocPages := s.numPallocPages + s.obj.bucketPageCount
    next := update s.next bucket none
    prev := update s.prev bucket none
    state := update s.state bucket .bucketEmpty
    entryCount := update s.entryCount bucket s.obj.bucketBlockCount
    availCount := update s.availCount bucket s.obj.bucketBlockCount
    block := update s.block bucket none }

def allocBucket (s : Salloc) (bucket : ℕ) : Salloc :=
  (s.initBucket bucket).initBlocks bucket s.obj.bucketBlockCount.toNat

def insertBucket (s : Salloc) (bucket : ℕ) : Salloc :=
  { s with
    next := update s.next bucket s.partialNext
    prev := pushPrev s.prev s.partialNext bucket
    partialNext := some bucket
    partialCount := s.partialCount + 1 }

def removeBucket (s : Salloc) (bucket : ℕ) : Salloc :=
  { s with
    partialCount := s.partialCount - 1
    next := unlinkNext s.next s.prev bucket
    partialNext := if s.prev bucket = none then s.next bucket else s.partialNext
    prev := unlinkPrev s.next s.prev bucket }

def findBucket (s : Salloc) (page : Option ℕ) : Option (Salloc × ℕ) :=
  if s.partialCount = 0 then page.map fun bucket => (s.allocBucket bucket, bucket)
  else s.partialNext.map fun bucket => (s, bucket)

def takeBlock (s : Salloc) (bucket : ℕ) : Option (Salloc × ℕ) := do
  let block ← s.block bucket
  let s := { s with
    block := update s.block bucket (s.blockNext block)
    availCount := update s.availCount bucket (s.availCount bucket - 1)
    blockNext := update s.blockNext block none
    blockBucket := update s.blockBucket block bucket }
  let s :=
    if s.availCount bucket = 0 then
      { s with state := update s.state bucket .bucketFull }.removeBucket bucket
    else if s.availCount bucket = s.entryCount bucket - 1 then
      { s with state := update s.state bucket .bucketPartial }.insertBucket bucket
    else s
  some ({ s with numActiveObjs := s.numActiveObjs + 1 }, block + sizeofSallocMagicBlock)

/-- `salloc`, with the pointer it returns. Reading through a null pointer is `none`. -/
def salloc (s : Salloc) (page : Option ℕ) : Option (Salloc × Option ℕ) :=
  match s.findBucket page with
  | none => some (s, none)
  | some (s, bucket) => (s.takeBlock bucket).map fun r => (r.1, some r.2)

def sfree (s : Salloc) (ptr : ℕ) : Salloc × Option ℕ :=
  let block := ptr - sizeofSallocMagicBlock
  let bucket := s.blockBucket block
  let s := { s with
    blockNext := update s.blockNext block (s.block bucket)
    block := update s.block bucket (some block)
    availCount := update s.availCount bucket (s.availCount bucket + 1) }
  let r : Salloc × Option ℕ :=
    if s.availCount bucket = s.entryCount bucket then
      let s := { s with state := update s.state bucket .bucketEmpty }.removeBucket bucket
      ({ s with numPallocPages := s.numPallocPages - s.obj.bucketPageCount }, some bucket)
    else if s.availCount bucket = 1 then
      ({ s with state := update s.state bucket .bucketPartial }.insertBucket bucket, none)
    else (s, none)
  ({ r.1 with numActiveObjs := r.1.numActiveObjs - 1 }, r.2)

end Salloc

def SallocObj.blocks (obj : SallocObj) (bucket : ℕ) : List ℕ :=
  (List.range obj.bucketBlockCount.toNat).map fun i =>
    bucket + obj.blockStartOffset + i * obj.blockSize

structure SallocState where
  mem : Salloc
  buckets : List ℕ
  live : List ℕ

inductive SallocAction
  | salloc (page : Option ℕ)
  | sfree (ptr : ℕ)
  deriving DecidableEq, Repr

def FreshPages (obj : SallocObj) (buckets : List ℕ) (page : ℕ) : Prop :=
  ∀ b ∈ buckets, b + obj.bucketPageCount * 4096 ≤ page ∨ page + obj.bucketPageCount * 4096 ≤ b

instance FreshPages.decidable (obj : SallocObj) (buckets : List ℕ) (page : ℕ) :
    Decidable (FreshPages obj buckets page) :=
  inferInstanceAs (Decidable (∀ b ∈ buckets, _ ∨ _))

/-- `palloc_ptr` returns fresh pages, live objects are freed, and pages are given back by who holds
them. -/
def sallocStep (s : SallocState) : SallocAction → Option SallocState
  | .salloc page =>
    let pages := if s.mem.partialCount = 0 then page.toList else []
    if ∀ p ∈ pages, FreshPages s.mem.obj s.buckets p then
      (s.mem.salloc page).map fun r => ⟨r.1, pages ++ s.buckets, r.2.toList ++ s.live⟩
    else none
  | .sfree ptr =>
    if ptr ∈ s.live then
      let r := s.mem.sfree ptr
      if ∀ b ∈ r.2, b ∈ s.buckets then
        some ⟨r.1, r.2.elim s.buckets s.buckets.erase, s.live.erase ptr⟩
      else none
    else none

/-- A bucket and its 32 blocks fit into the largest order of the page allocator, and the sizes need
no rounding. -/
def BucketFits (size align : BitVec 64) : Prop :=
  (sallocAlign align).toNat ∣ sizeofSallocBucket + sizeofSallocMagicBlock ∧
    (sallocAlign align).toNat ∣ size.toNat + sizeofSallocMagicBlock ∧
    sizeofSallocBucket + (size.toNat + sizeofSallocMagicBlock) * 32 ≤ 2 ^ pallocMaxOrder * 4096

instance BucketFits.decidable (size align : BitVec 64) : Decidable (BucketFits size align) :=
  inferInstanceAs (Decidable (_ ∧ _ ∧ _))

structure SallocInit (obj : SallocObj) (s : SallocState) : Prop where
  obj : s.mem.obj = obj
  partialNext : s.mem.partialNext = none
  partialCount : s.mem.partialCount = 0
  numActiveObjs : s.mem.numActiveObjs = 0
  numPallocPages : s.mem.numPallocPages = 0
  buckets : s.buckets = []
  live : s.live = []

structure SallocOk (s : SallocState) : Prop where
  distinct : s.live.Nodup
  ofBucket : ∀ ptr ∈ s.live, ∃ b ∈ s.buckets, ∃ block ∈ s.mem.obj.blocks b,
    ptr = block + sizeofSallocMagicBlock
  /-- The partial list. -/
  partials : ∃ l, DList s.mem.next s.mem.prev s.mem.partialNext l ∧ s.mem.partialCount = l.length ∧
    ∀ b, b ∈ l ↔ b ∈ s.buckets ∧ 0 < s.mem.availCount b ∧ s.mem.availCount b < s.mem.entryCount b
  /-- The free list of a bucket, which with the live objects is all its blocks. -/
  freeList : ∀ b ∈ s.buckets, ∃ l, Chain s.mem.blockNext (s.mem.block b) l ∧
    s.mem.availCount b = l.length ∧
    (l ++ (s.mem.obj.blocks b).filter fun block => block + sizeofSallocMagicBlock ∈
    s.live).Perm (s.mem.obj.blocks b)
  /-- No bucket is kept that is completely free, and none is given back twice. -/
  returned : ∀ b ∈ s.buckets, s.mem.availCount b < s.mem.entryCount b
  bucketsDistinct : s.buckets.Nodup
  salloc : ∀ page, (∀ p ∈ page, FreshPages s.mem.obj s.buckets p) →
    ∃ s', sallocStep s (.salloc page) = some s'
  sfree : ∀ ptr ∈ s.live, ∃ s', sallocStep s (.sfree ptr) = some s'
  numActiveObjs : s.mem.numActiveObjs = s.live.length
  numPallocPages : s.mem.numPallocPages = s.mem.obj.bucketPageCount * s.buckets.length

end Toddler
