import Toddler.Spec.Vm

/-! The generic page tables (`libk/lib/page.c`) with the hooks for amd64
(`arch/x86/common/include/page.h`). A pointer to a table is its frame number. `page_palloc` and
`page_pfree` belong to an allocator of which only the laws are known. A panic or a failed assertion
is `none`. -/

namespace Toddler.PageTable

open Function

def pageLevels : ℕ := 4

def pageBits : ℕ := 12

def pageTableEntryCount : ℕ := 512

def pageTableEntryBits : ℕ := 9

structure PageTableEntry where
  present : Bool
  writeAllow : Bool
  userAllow : Bool
  writeThru : Bool
  cacheDisabled : Bool
  accessed : Bool
  dirty : Bool
  largePage : Bool
  global : Bool
  avail : BitVec 3
  pfn : BitVec 51
  noExec : Bool
  deriving DecidableEq

def PageTableEntry.zero : PageTableEntry :=
  ⟨false, false, false, false, false, false, false, false, false, 0, 0, false⟩

structure MapAttri where
  cache : Bool
  exec : Bool
  write : Bool
  kernel : Bool
  deriving DecidableEq

theorem and_lt_pageTableEntryCount (idx : ℕ) :
    idx &&& (pageTableEntryCount - 1) < pageTableEntryCount :=
  Nat.and_lt_two_pow (n := 9) idx (by decide)

def pteIndex (level vaddr : ℕ) : Fin pageTableEntryCount :=
  ⟨vaddr >>> pageBits >>> ((pageLevels - level) * pageTableEntryBits) &&& (pageTableEntryCount - 1),
    and_lt_pageTableEntryCount _⟩

def pageIsPteLeaf (e : PageTableEntry) (level : ℕ) : Bool :=
  if level < 3 then false else if level = 3 then e.largePage else true

def pageComparePteAttri (e : PageTableEntry) (ppfn : ℕ) (a : MapAttri) : Bool :=
  e.pfn.toNat = ppfn && e.cacheDisabled = !a.cache && e.writeAllow = a.write &&
    e.userAllow = !a.kernel && e.noExec = !a.exec

def pageSetPteAttri (level ppfn : ℕ) (a : MapAttri) : PageTableEntry :=
  { PageTableEntry.zero with
    present := true
    pfn := BitVec.ofNat 51 ppfn
    writeAllow := a.write
    cacheDisabled := !a.cache
    userAllow := !a.kernel
    largePage := level = 3
    noExec := !a.exec }

def pageSetPteNextTable (ppfn : ℕ) : PageTableEntry :=
  { PageTableEntry.zero with
    present := true
    pfn := BitVec.ofNat 51 ppfn
    writeAllow := true
    userAllow := true }

def pageGetBlockPageCount (level : ℕ) : ℕ :=
  if level < 3 then 0 else 1 <<< ((pageLevels - level) * pageTableEntryBits)

/-- `page_palloc` and `page_pfree`. An answer of `page_palloc` is 0, or a frame that was not in
use. -/
structure FrameAllocator where
  State : Type
  used : State → Set ℕ
  palloc : State → ℕ × State
  pfree : State → ℕ → ℕ × State
  palloc_lt : ∀ a, (palloc a).1 < 2 ^ 51
  palloc_fresh : ∀ a, (palloc a).1 ≠ 0 → (palloc a).1 ∉ used a
  palloc_used : ∀ a, (palloc a).1 ≠ 0 → used (palloc a).2 = insert (palloc a).1 (used a)
  pfree_used : ∀ a f, used (pfree a f).2 = used a \ {f}

def FrameAllocator.Supplies (A : FrameAllocator) : ℕ → A.State → Prop
  | 0, _ => True
  | n + 1, a => (A.palloc a).1 ≠ 0 ∧ A.Supplies n (A.palloc a).2

/-- The entries of every frame, seen as a table, and the allocator. -/
structure PageMem (A : FrameAllocator) where
  mem : ℕ → Fin pageTableEntryCount → PageTableEntry
  frames : A.State

variable {A : FrameAllocator}

def PageMem.setPte (s : PageMem A) (table : ℕ) (i : Fin pageTableEntryCount) (e : PageTableEntry) :
    PageMem A :=
  { s with mem := update s.mem table (update (s.mem table) i e) }

def pageAllocTable (s : PageMem A) : ℕ × PageMem A :=
  let (ppfn, frames) := A.palloc s.frames
  (ppfn, { mem := update s.mem ppfn fun _ => .zero, frames := frames })

def pageIsEmptyTable (s : PageMem A) (table : ℕ) : Prop := ∀ i, s.mem table i = .zero

instance pageIsEmptyTable.decidable (s : PageMem A) (table : ℕ) :
    Decidable (pageIsEmptyTable s table) :=
  inferInstanceAs (Decidable (∀ i : Fin pageTableEntryCount, s.mem table i = .zero))

def pageGetBlockLevel (vaddr paddr size : ℕ) : ℕ × ℕ :=
  let fits := fun level =>
    let blockSize := pageGetBlockPageCount level <<< pageBits
    pageGetBlockPageCount level ≠ 0 ∧ vaddr % blockSize = 0 ∧ paddr % blockSize = 0 ∧ blockSize ≤ size
  match (List.range' 1 pageLevels).find? fun level => decide (fits level) with
  | some level => (level, pageGetBlockPageCount level)
  | none => (pageLevels, 1)

def pageGetBlockVmask (level : ℕ) : Option ℕ :=
  if pageGetBlockPageCount level = 0 then none
  else some ((pageSize - 1) ||| (pageGetBlockPageCount level - 1) <<< pageBits)

def pageGetPteDestPaddr (e : PageTableEntry) (level vaddr : ℕ) : Option ℕ := do
  let vmask ← pageGetBlockVmask level
  some (e.pfn.toNat <<< pageBits ||| vaddr &&& vmask)

/-- The loop of `_translate_attri` at `level`, with `k` levels to go before the final one. -/
def translateLoop (s : PageMem A) (vaddr : ℕ) : ℕ → ℕ → ℕ → Option ℕ
  | 0, level, table =>
    let pte := s.mem table (pteIndex level vaddr)
    if !pte.present then some 0
    else if !pageIsPteLeaf pte level then none
    else pageGetPteDestPaddr pte level vaddr
  | k + 1, level, table =>
    let pte := s.mem table (pteIndex level vaddr)
    if !pte.present then some 0
    else if !pageIsPteLeaf pte level then translateLoop s vaddr k (level + 1) pte.pfn.toNat
    else pageGetPteDestPaddr pte level vaddr

def genericTranslate (s : PageMem A) (pageTable vaddr : ℕ) : Option ℕ :=
  translateLoop s vaddr (pageLevels - 1) 1 pageTable

/-- The valid leaf entry that a walk for `vaddr` finds, with its level. -/
def findLeaf (s : PageMem A) (vaddr : ℕ) : ℕ → ℕ → ℕ → Option (ℕ × PageTableEntry)
  | 0, level, table =>
    let pte := s.mem table (pteIndex level vaddr)
    if pte.present && pageIsPteLeaf pte level then some (level, pte) else none
  | k + 1, level, table =>
    let pte := s.mem table (pteIndex level vaddr)
    if !pte.present then none
    else if pageIsPteLeaf pte level then some (level, pte)
    else findLeaf s vaddr k (level + 1) pte.pfn.toNat

def leafEntry (s : PageMem A) (pageTable vaddr : ℕ) : Option (ℕ × PageTableEntry) :=
  findLeaf s vaddr (pageLevels - 1) 1 pageTable

/-- The loop of `map_page` from `level` on, `k` levels above `block`; the table it arrives at. -/
def mapDown (vaddr ppfn : ℕ) (a : MapAttri) : ℕ → ℕ → ℕ → PageMem A → Option (ℕ × PageMem A)
  | 0, _, table, s => some (table, s)
  | k + 1, level, table, s =>
    let pte := s.mem table (pteIndex level vaddr)
    if !pte.present then
      let (next, s) := pageAllocTable s
      if next = 0 then none
      else mapDown vaddr ppfn a k (level + 1) next (s.setPte table (pteIndex level vaddr)
        (pageSetPteNextTable next))
    -- a leaf with the same attributes is not refused, and its page is taken for a table
    else if pageIsPteLeaf pte level && !pageComparePteAttri pte ppfn a then none
    else mapDown vaddr ppfn a k (level + 1) pte.pfn.toNat s

/-- `map_page`. The new entry's `cache` is the argument `exec`. -/
def mapPage (pageTable vaddr paddr block : ℕ) (a : MapAttri) (s : PageMem A) : Option (PageMem A) :=
  if vaddr = 0 ∧ paddr ≠ 0 then none
  else do
    let ppfn := paddr >>> pageBits
    let (table, s) ← mapDown vaddr ppfn a (block - 1) 1 pageTable s
    let pte := s.mem table (pteIndex block vaddr)
    if pte.present then if pageComparePteAttri pte ppfn a then some s else none
    else some (s.setPte table (pteIndex block vaddr) (pageSetPteAttri block ppfn
      { a with cache := a.exec }))

def addCount (m : ℤ) (count : ℕ) : ℤ := (m + count).bmod (2 ^ 32)

/-- The loop of `generic_map_range` and `generic_unmap_range`, with the number of pages so far;
`page` is `map_page` or `unmap_page`. A round advances by a page at least, so `fuel` pages are
enough. -/
def rangeLoop (vaddrEnd : ℕ) (page : ℕ → ℕ → ℕ → PageMem A → Option (PageMem A)) :
    ℕ → ℕ → ℕ → ℤ → PageMem A → Option (PageMem A × ℤ)
  | 0, _, _, m, s => some (s, m)
  | fuel + 1, vaddr, paddr, m, s =>
    if vaddr < vaddrEnd then do
      let (block, count) := pageGetBlockLevel vaddr paddr (vaddrEnd - vaddr)
      let s ← page vaddr paddr block s
      rangeLoop vaddrEnd page fuel (add64 vaddr (count * pageSize)) (add64 paddr (count * pageSize))
        (addCount m count) s
    else some (s, m)

def rangeEnd (vaddr size : ℕ) : ℕ := alignUpPage (add64 vaddr size)

def rangePages (vaddr size : ℕ) : ℕ := (rangeEnd vaddr size - alignDownPage vaddr) / pageSize

def genericMapRange (pageTable vaddr paddr size : ℕ) (a : MapAttri) (s : PageMem A) :
    Option (PageMem A × ℤ) :=
  rangeLoop (rangeEnd vaddr size) (fun v p block =>
    mapPage pageTable v p block a) (rangePages vaddr size)
    (alignDownPage vaddr) (alignDownPage paddr) 0 s

/-- The first loop of `unmap_page`: the table of the target level and those above it, the nearest
first. -/
def unmapDown (s : PageMem A) (vaddr : ℕ) : ℕ → ℕ → ℕ → List ℕ → Option (ℕ × List ℕ)
  | 0, _, table, upper => some (table, upper)
  | k + 1, level, table, upper =>
    let pte := s.mem table (pteIndex level vaddr)
    if !pte.present || pageIsPteLeaf pte level then none
    else unmapDown s vaddr k (level + 1) pte.pfn.toNat (table :: upper)

/-- The second loop of `unmap_page`, which frees empty tables; `prev` is at level
`upper.length + 1`. -/
def freeTables (vaddr : ℕ) : List ℕ → ℕ → PageMem A → Option (PageMem A)
  | [], _, s => some s
  | prev :: upper, table, s =>
    if pageIsEmptyTable s table then
      let i := pteIndex (upper.length + 1) vaddr
      let ppfn := (s.mem prev i).pfn.toNat
      if ppfn ≠ table then none
      else
        let (count, frames) := A.pfree s.frames ppfn
        if count ≠ 1 then none
        else freeTables vaddr upper prev ({ s with frames := frames }.setPte prev i .zero)
    else some s

def unmapPage (pageTable vaddr paddr block : ℕ) (s : PageMem A) : Option (PageMem A) := do
  let (table, upper) ← unmapDown s vaddr (block - 1) 1 pageTable []
  let pte := s.mem table (pteIndex block vaddr)
  if !pte.present || !pageIsPteLeaf pte block then none
  else do
    let oldPaddr ← pageGetPteDestPaddr pte block vaddr
    if oldPaddr ≠ paddr then none
    else freeTables vaddr upper table (s.setPte table (pteIndex block vaddr) .zero)

def genericUnmapRange (pageTable vaddr paddr size : ℕ) (s : PageMem A) : Option (PageMem A × ℤ) :=
  rangeLoop (rangeEnd vaddr size) (unmapPage pageTable) (rangePages vaddr size)
    (alignDownPage vaddr) (alignDownPage paddr) 0 s

inductive RangeAction
  | map (vaddr paddr size : ℕ) (a : MapAttri)
  | unmap (vaddr paddr size : ℕ)
  deriving DecidableEq

def rangeStep (pageTable : ℕ) (s : PageMem A) : RangeAction → Option (PageMem A)
  | .map vaddr paddr size a => (genericMapRange pageTable vaddr paddr size a s).map Prod.fst
  | .unmap vaddr paddr size => (genericUnmapRange pageTable vaddr paddr size s).map Prod.fst

structure EmptyTable (pageTable : ℕ) (s : PageMem A) : Prop where
  empty : pageIsEmptyTable s pageTable
  used : pageTable ∈ A.used s.frames

/-- Mapping a range without valid leaf entries succeeds when there are frames for its tables, at
most three a page. It makes the range translate to the physical range, and no other address
translates differently. -/
def MapThenTranslate (pageTable : ℕ) (s : PageMem A) : Prop :=
  ∀ (vaddr paddr size : ℕ) (a : MapAttri), pageSize ∣ vaddr → 0 < vaddr → pageSize ∣ paddr →
    pageSize ∣ size →
    size < 2 ^ 43 → vaddr + size ≤ 2 ^ 48 → paddr + size ≤ 2 ^ 52 →
    A.Supplies (3 * (size / pageSize)) s.frames →
    (∀ v, vaddr ≤ v → v < vaddr + size → leafEntry s pageTable v = none) →
    ∃ s', genericMapRange pageTable vaddr paddr size a s = some (s', ((size / pageSize : ℕ) : ℤ)) ∧
      (∀ d < size, genericTranslate s' pageTable (vaddr + d) = some (paddr + d)) ∧
      ∀ v < 2 ^ 48, v < vaddr ∨ vaddr + size ≤ v →
        genericTranslate s' pageTable v = genericTranslate s pageTable v

/-- In a range from `vaddr` on, the page at `v` is mapped by itself: the block around it begins
before the range or is not mapped as one. -/
def MapsSinglePage (vaddr paddr vaddrEnd v : ℕ) : Prop :=
  let blockSize := pageGetBlockPageCount 3 <<< pageBits
  let base := v / blockSize * blockSize
  vaddr ≤ base → (pageGetBlockLevel base (add64 paddr (base - vaddr)) (vaddrEnd - base)).1 =
    pageLevels

instance MapsSinglePage.decidable (vaddr paddr vaddrEnd v : ℕ) :
    Decidable (MapsSinglePage vaddr paddr vaddrEnd v) :=
  inferInstanceAs (Decidable (_ → _))

/-- A page that `generic_map_range` maps by itself is not part of a large page. The range is not
larger than the address space of the tables, so that it does not come back to its own entries. -/
def SplitsNoLargePage (pageTable : ℕ) (s : PageMem A) : RangeAction → Prop
  | .map vaddr paddr size _ =>
    rangeEnd vaddr size - alignDownPage vaddr ≤ 2 ^ 48 ∧
      ∀ k < rangePages vaddr size,
        MapsSinglePage (alignDownPage vaddr) (alignDownPage paddr) (rangeEnd vaddr size)
          (alignDownPage vaddr + k * pageSize) →
        (leafEntry s pageTable (alignDownPage vaddr + k * pageSize)).map Prod.fst ≠ some 3
  | .unmap _ _ _ => True

instance SplitsNoLargePage.decidable (pageTable : ℕ) (s : PageMem A) (act : RangeAction) :
    Decidable (SplitsNoLargePage pageTable s act) := by
  cases act <;> unfold SplitsNoLargePage <;> infer_instance

end Toddler.PageTable
