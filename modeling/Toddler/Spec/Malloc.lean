import Toddler.Lib.DList
import Toddler.Lib.Run
import Toddler.Lib.Word

/-! The heap of a user process (`libc/stdlib/malloc.c`) on amd64. The memory is one function for
each field of `struct chunk` and of `struct block`, at the address of the struct. `struct magic`
shares its word with the first one of `struct block`: `first` is `next` while a block is free and
`chunk` while it is in use. What the payloads hold is left out, and with it the `memcpy` of
`realloc`. A panic and a read through a null pointer are `none`. -/

namespace Toddler.Malloc

open Function

def chunkSize : ℕ := 0x400000

def sizeofChunk : ℕ := 48

def sizeofMagic : ℕ := 8

def maxBlockSize : ℕ := chunkSize - sizeofChunk

def minBlockSize : ℕ := 16

def buckets : List (ℕ × ℕ) :=
  (((List.range 32).takeWhile fun order => 2 ^ order < maxBlockSize).filter fun order =>
    minBlockSize < 2 ^ order).map
    (fun order => (2 ^ order, maxBlockSize >>> order)) ++ [(maxBlockSize, 1)]

def blockSize (i : ℕ) : ℕ := (buckets.getD i (0, 0)).1

def numBlocksPerChunk (i : ℕ) : ℕ := (buckets.getD i (0, 0)).2

/-- `chunks` are those that `syscall_vm_alloc` has given and `syscall_vm_free` has not taken
back. -/
structure Heap where
  -- `struct bucket`, by its number; `head` is `chunk`
  numAllocatedChunks : ℕ → ℕ
  numActiveChunks : ℕ → ℕ
  head : ℕ → Option ℕ
  -- `struct chunk`
  bucket : ℕ → ℕ
  numAvailBlocks : ℕ → ℕ
  numInuseBlocks : ℕ → ℕ
  block : ℕ → Option ℕ
  prev : ℕ → Option ℕ
  next : ℕ → Option ℕ
  -- `struct block`
  first : ℕ → Option ℕ
  span : ℕ → ℕ
  chunks : List ℕ

def findBucket (size : ℕ) : Option ℕ := buckets.findIdx? fun b => size ≤ b.1

namespace Heap

def createChunk (h : Heap) (i c : ℕ) : Heap :=
  { h with
    chunks := c :: h.chunks
    bucket := update h.bucket c i
    numAvailBlocks := update h.numAvailBlocks c (numBlocksPerChunk i)
    numInuseBlocks := update h.numInuseBlocks c 0
    first := update h.first (c + sizeofChunk) none
    span := update h.span (c + sizeofChunk) (numBlocksPerChunk i)
    block := update h.block c (some (c + sizeofChunk)) }

def attachChunk (h : Heap) (i c : ℕ) : Heap :=
  { h with
    prev := pushPrev h.prev (h.head i) c
    next := update h.next c (h.head i)
    numActiveChunks := update h.numActiveChunks i (add64 (h.numActiveChunks i) 1)
    head := update h.head i (some c) }

def detachChunk (h : Heap) (i c : ℕ) : Heap :=
  { h with
    next := unlinkNext h.next h.prev c
    prev := unlinkPrev h.next h.prev c
    head := update h.head i (if h.head i = some c then h.next c else h.head i)
    numActiveChunks := update h.numActiveChunks i (sub64 (h.numActiveChunks i) 1) }

def findChunk (h : Heap) (i : ℕ) (chunk : Option ℕ) : Option (Heap × ℕ) :=
  match h.head i with
  | some c => some (h, c)
  | none => chunk.map fun c =>
    let h := (h.createChunk i c).attachChunk i c
    ({ h with numAllocatedChunks := update h.numAllocatedChunks i (add64 (h.numAllocatedChunks i) 1) }, c)

def takeBlock (h : Heap) (i c b : ℕ) : Heap :=
  let h :=
    if h.span b = 1 then { h with block := update h.block c (h.first b) }
    else
      let nextBlock := b + blockSize i
      { h with
        first := update h.first nextBlock (h.first b)
        span := update h.span nextBlock (sub64 (h.span b) 1)
        block := update h.block c (some nextBlock) }
  { h with
    numAvailBlocks := update h.numAvailBlocks c (sub64 (h.numAvailBlocks c) 1)
    numInuseBlocks := update h.numInuseBlocks c (add64 (h.numInuseBlocks c) 1) }

def findBlock (h : Heap) (i c : ℕ) : Option (Heap × ℕ) := do
  let b ← h.block c
  let h := h.takeBlock i c b
  some (if h.numAvailBlocks c = 0 then h.detachChunk i c else h, b)

def setupPayload (h : Heap) (c b : ℕ) : Heap × ℕ :=
  ({ h with first := update h.first b (some c) }, b + sizeofMagic)

def malloc (h : Heap) (size : ℕ) (chunk : Option ℕ) : Option (Heap × Option ℕ) :=
  if maxBlockSize < size then some (h, none)
  else
    match findBucket (size + sizeofMagic) with
    | none => some (h, none)
    | some i =>
      match h.findChunk i chunk with
      | none => some (h, none)
      | some (h, c) => (h.findBlock i c).map fun r =>
        let p := r.1.setupPayload c r.2
        (p.1, some p.2)

-- unlike `attach_chunk` it neither links the old head back nor counts the chunk
def putbackChunk (h : Heap) (i c : ℕ) : Heap :=
  { h with
    prev := update h.prev c none
    next := update h.next c (h.head i)
    head := update h.head i (some c) }

def putbackBlock (h : Heap) (i c b : ℕ) : Heap :=
  let h := if h.numAvailBlocks c = 0 then h.putbackChunk i c else h
  let h := { h with
    first := update h.first b (h.block c)
    span := update h.span b 1
    block := update h.block c (some b)
    numInuseBlocks := update h.numInuseBlocks c (sub64 (h.numInuseBlocks c) 1)
    numAvailBlocks := update h.numAvailBlocks c (add64 (h.numAvailBlocks c) 1) }
  -- `RESERVED_ACTIVE_CHUNKS` is 0
  if h.numInuseBlocks c = 0 ∧ 0 < h.numActiveChunks i then
    let h := h.detachChunk i c
    { h with
      chunks := h.chunks.erase c
      numAllocatedChunks := update h.numAllocatedChunks i (sub64 (h.numAllocatedChunks i) 1) }
  else h

def free (h : Heap) (ptr : ℕ) : Option Heap :=
  if ptr = 0 then none
  else do
    let magic := ptr - sizeofMagic
    let c ← h.first magic
    some (h.putbackBlock (h.bucket c) c magic)

def staysInPlace (i newSize : ℕ) : Prop :=
  add64 newSize sizeofMagic ≤ blockSize i ∧ blockSize i / 2 ≤ add64 newSize sizeofMagic

instance staysInPlace.decidable (i newSize : ℕ) : Decidable (staysInPlace i newSize) :=
  inferInstanceAs (Decidable (_ ∧ _))

def realloc (h : Heap) (ptr newSize : ℕ) (chunk : Option ℕ) : Option (Heap × Option ℕ) :=
  if ptr = 0 then none
  else if newSize = 0 then (h.free ptr).map fun h => (h, none)
  else do
    let c ← h.first (ptr - sizeofMagic)
    if staysInPlace (h.bucket c) newSize then some (h, some ptr)
    else
      match ← h.malloc newSize chunk with
      | (h, none) => some (h, none)
      | (h, some newPtr) => (h.free ptr).map fun h => (h, some newPtr)

end Heap

structure HeapState where
  heap : Heap
  live : List (ℕ × ℕ)

inductive HeapAction
  | malloc (size : ℕ) (chunk : Option ℕ)
  | free (ptr : ℕ)
  | realloc (ptr newSize : ℕ) (chunk : Option ℕ)
  deriving DecidableEq, Repr

def FreshChunk (chunks : List ℕ) (c : ℕ) : Prop :=
  c + chunkSize ≤ word ∧ ∀ d ∈ chunks, c + chunkSize ≤ d ∨ d + chunkSize ≤ c

instance FreshChunk.decidable (chunks : List ℕ) (c : ℕ) : Decidable (FreshChunk chunks c) :=
  inferInstanceAs (Decidable (_ ∧ ∀ d ∈ chunks, _ ∨ _))

def HeapState.without (s : HeapState) (ptr : ℕ) : List (ℕ × ℕ) := s.live.filter fun p => p.1 ≠ ptr

/-- `syscall_vm_alloc` returns fresh chunks, and live pointers are freed and reallocated. -/
def heapStep (s : HeapState) : HeapAction → Option HeapState
  | .malloc size chunk =>
    if ∀ c ∈ chunk, FreshChunk s.heap.chunks c then
      (s.heap.malloc size chunk).map fun r => ⟨r.1, (r.2.map fun p => (p, size)).toList ++ s.live⟩
    else none
  | .free ptr =>
    if ptr ∈ s.live.map Prod.fst then (s.heap.free ptr).map fun h => ⟨h, s.without ptr⟩ else none
  | .realloc ptr newSize chunk =>
    if ptr ∈ s.live.map Prod.fst ∧ newSize < word ∧ ∀ c ∈ chunk, FreshChunk s.heap.chunks c then
      (s.heap.realloc ptr newSize chunk).map fun r =>
        match r.2 with
        | some p => ⟨r.1, (p, newSize) :: s.without ptr⟩
        | none => ⟨r.1, if newSize = 0 then s.without ptr else s.live⟩
    else none

def ChunkNotFull (h : Heap) (ptr : ℕ) : Prop :=
  ∀ c ∈ h.first (ptr - sizeofMagic), 0 < h.numAvailBlocks c

/-- No block of a full chunk is freed. A `realloc` that moves the payload allocates first: then the
chunk has a further free block, or is not the one that the new block comes from. -/
def FreesNotFull (s : HeapState) : HeapAction → Prop
  | .malloc _ _ => True
  | .free ptr => ChunkNotFull s.heap ptr
  | .realloc ptr newSize _ =>
    if newSize = 0 then ChunkNotFull s.heap ptr
    else
      ∀ c ∈ s.heap.first (ptr - sizeofMagic), ¬ Heap.staysInPlace (s.heap.bucket c) newSize →
        0 < s.heap.numAvailBlocks c ∧
          (s.heap.numAvailBlocks c = 1 → ∀ i ∈ findBucket (newSize + sizeofMagic), s.heap.head i ≠ some c)

instance ChunkNotFull.decidable (h : Heap) (ptr : ℕ) : Decidable (ChunkNotFull h ptr) :=
  inferInstanceAs (Decidable (∀ c ∈ h.first _, _))

instance FreesNotFull.decidable (s : HeapState) : (a : HeapAction) → Decidable (FreesNotFull s a)
  | .malloc _ _ => inferInstanceAs (Decidable True)
  | .free ptr => inferInstanceAs (Decidable (ChunkNotFull s.heap ptr))
  | .realloc _ newSize _ => inferInstanceAs (Decidable (if newSize = 0 then _
      else ∀ c ∈ s.heap.first _, _ → _))

structure HeapInit (s : HeapState) : Prop where
  head : ∀ i, s.heap.head i = none
  numActiveChunks : ∀ i, s.heap.numActiveChunks i = 0
  chunks : s.heap.chunks = []
  live : s.live = []

/-- What holds of the heap between calls. -/
structure HeapOk (s : HeapState) : Prop where
  /-- A payload lies in a chunk that is held and has room for the size asked for. -/
  payload : ∀ p ∈ s.live, ∃ c ∈ s.heap.chunks, c ≤ p.1 ∧ p.1 + p.2 ≤ c + chunkSize ∧
    p.2 + sizeofMagic ≤ blockSize (s.heap.bucket c)
  apart : s.live.Pairwise fun p q => p.1 ≠ q.1 ∧ (p.1 + p.2 ≤ q.1 ∨ q.1 + q.2 ≤ p.1)
  /-- The chunk list of a bucket. -/
  lists : ∀ i < buckets.length, ∃ l, DList s.heap.next s.heap.prev (s.heap.head i) l ∧
    (∀ c, c ∈ l ↔ c ∈ s.heap.chunks ∧ s.heap.bucket c = i ∧ 0 < s.heap.numAvailBlocks c) ∧
    s.heap.numActiveChunks i = l.length

/-- The calls that meet `ok` do not fault. -/
structure HeapCallsOk (ok : HeapState → HeapAction → Prop) (s : HeapState) : Prop where
  malloc : ∀ size chunk, (∀ c ∈ chunk, FreshChunk s.heap.chunks c) → ok s (.malloc size chunk) →
    ∃ s', heapStep s (.malloc size chunk) = some s'
  free : ∀ ptr ∈ s.live.map Prod.fst, ok s (.free ptr) → ∃ s', heapStep s (.free ptr) = some s'
  realloc : ∀ ptr ∈ s.live.map Prod.fst,
    ∀ newSize < word, ∀ chunk, (∀ c ∈ chunk, FreshChunk s.heap.chunks c) →
    ok s (.realloc ptr newSize chunk) → ∃ s', heapStep s (.realloc ptr newSize chunk) = some s'

end Toddler.Malloc
