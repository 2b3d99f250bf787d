import Toddler.Lib.Word
import Mathlib.Order.CompletePartialOrder

/-! The boot memory map of `libk/lib/memmap.c`. `entries` are the `num_entries` slots in use and
`spare` the contents of the slots after them, so that `num_slots` is the sum of the two lengths. A
panic is `none`. -/

namespace Toddler

structure MemmapEntry where
  start : ℕ
  size : ℕ
  flags : ℤ
  tags : ℕ
  deriving DecidableEq, Repr

def MemmapEntry.fin (e : MemmapEntry) : ℕ := e.start + e.size

structure Memmap where
  entries : List MemmapEntry
  spare : List MemmapEntry
  deriving DecidableEq, Repr

def Memmap.numSlots (m : Memmap) : ℕ := m.entries.length + m.spare.length

def Memmap.setEntry (m : Memmap) (idx : ℕ) (f : MemmapEntry → MemmapEntry) : Memmap :=
  { m with entries := m.entries.modify idx f }

/-- `insert_entry`: the entries from `idx` on move up by one slot. Slot `idx` keeps its old
contents, which the caller overwrites in part. -/
def insertEntry (m : Memmap) (idx : ℕ) : Option Memmap :=
  match m.spare with
  | [] => none
  | e :: spare =>
    if idx ≤ m.entries.length then
      some ⟨m.entries.insertIdx idx (m.entries.getD idx e), spare⟩
    else none

def appendEntry (m : Memmap) : Option Memmap := insertEntry m m.entries.length

def splitEntry (m : Memmap) (idx offset : ℕ) : Option Memmap := do
  let entry ← m.entries[idx]?
  if entry.size ≤ offset then none
  else
    let m ← insertEntry m (idx + 1)
    let m := m.setEntry (idx + 1) fun _ =>
      { entry with start := add64 entry.start offset, size := sub64 entry.size offset }
    some (m.setEntry idx fun e => { e with size := offset })

def splitEntry2 (m : Memmap) (idx offset1 offset2 : ℕ) : Option Memmap := do
  let entry ← m.entries[idx]?
  if entry.size ≤ offset1 ∨ entry.size ≤ offset2 ∨ offset2 ≤ offset1 then none
  else
    let m ← insertEntry m (idx + 1)
    let m := m.setEntry (idx + 1) fun _ =>
      { entry with start := add64 entry.start offset2, size := sub64 entry.size offset2 }
    let m ← insertEntry m (idx + 1)
    let m := m.setEntry (idx + 1) fun _ =>
      { entry with start := add64 entry.start offset1, size := sub64 offset2 offset1 }
    some (m.setEntry idx fun e => { e with size := offset1 })

/-- The loop of `merge_consecutive_regions` from entry `e` on, with the number of entries it
removes. -/
def mergeLoop (e : MemmapEntry) : List MemmapEntry → List MemmapEntry × ℕ
  | [] => ([e], 0)
  | next :: rest =>
    if add64 e.start e.size = next.start ∧ e.flags = next.flags then
      let r := mergeLoop { e with size := add64 e.size next.size } rest
      (r.1, r.2 + 1)
    else
      let r := mergeLoop next rest
      (e :: r.1, r.2)

def mergeConsecutiveRegions (m : Memmap) : Memmap :=
  match m.entries with
  | [] => m
  | e :: rest =>
    let r := mergeLoop e rest
    ⟨r.1, List.replicate r.2 ⟨0, 0, 0, 0⟩ ++ m.spare⟩

/-- The loop of `claim_memmap_region` at index `i`, with the remaining `start` and `size`. `fin` is
`end`, which the source computes once. The result is the map with what remains to be appended. -/
def claimLoop (fin : ℕ) (type : ℤ) : ℕ → Memmap → ℕ → ℕ → ℕ → Option (Memmap × ℕ × ℕ)
  | 0, _, _, _, _ => none
  | fuel + 1, m, i, start, size =>
    match m.entries[i]? with
    | none => some (m, start, size)
    | some entry =>
      let entryEnd := add64 entry.start entry.size
      if size = 0 then some (m, start, size)
      else if fin ≤ entry.start then do
        let m ← insertEntry m i
        let m := m.setEntry i fun e => { e with start := start, size := size, flags := type }
        claimLoop fin type fuel m (i + 1) start 0
      else if start < entry.start then do
        let m ← insertEntry m i
        -- `entry` is the new slot by now: `entry->size = entry->start - start` reads back `start`
        let part := sub64 start start
        let m := m.setEntry i fun e => { e with start := start, size := part, flags := type }
        claimLoop fin type fuel m (i + 1) (add64 start part) (sub64 size part)
      else if start = entry.start then
        if entry.size ≤ size then
          claimLoop fin type fuel (m.setEntry i fun e => { e with flags := type }) (i + 1)
            (add64 start entry.size) (sub64 size entry.size)
        else do
          let m ← splitEntry m i size
          claimLoop fin type fuel (m.setEntry i fun e => { e with flags := type }) (i + 1) start 0
      else if start < entryEnd then
        if entryEnd ≤ fin then do
          let m ← splitEntry m i (sub64 start entry.start)
          let m := m.setEntry (i + 1) fun e => { e with flags := type }
          let second ← m.entries[i + 1]?
          -- `start` is not advanced here
          claimLoop fin type fuel m (i + 2) start (sub64 size second.size)
        else do
          let m ← splitEntry2 m i (sub64 start entry.start) (sub64 fin entry.start)
          claimLoop fin type fuel (m.setEntry (i + 1) fun e => { e with flags := type }) (i + 3) start 0
      else claimLoop fin type fuel m (i + 1) start size

def claimAppend (type : ℤ) (r : Memmap × ℕ × ℕ) : Option Memmap :=
  if r.2.2 ≠ 0 then
    (appendEntry r.1).map fun m => m.setEntry r.1.entries.length fun e =>
      { e with start := r.2.1, size := r.2.2, flags := type }
  else some r.1

/-- `claim_memmap_region`. Each round of the loop moves past an entry or uses up a slot, so
`num_slots + 2` rounds are enough. -/
def claimMemmapRegion (m : Memmap) (start size : ℕ) (type : ℤ) : Option Memmap :=
  ((claimLoop (add64 start size) type (m.numSlots + 2) m 0 start size).bind (claimAppend type)).map
    mergeConsecutiveRegions

def flagsAt (l : List MemmapEntry) (x : ℕ) : Option ℤ :=
  (l.find? fun e => decide (e.start ≤ x ∧ x < e.fin)).map MemmapEntry.flags

/-- Entries sorted by start, pairwise disjoint, of non-zero size, none of which wraps. -/
structure MemmapOk (l : List MemmapEntry) : Prop where
  sorted : l.Pairwise fun a b => a.start ≤ b.start
  disjoint : l.Pairwise fun a b => ∀ x, ¬ ((a.start ≤ x ∧ x < a.fin) ∧ (b.start ≤ x ∧ x < b.fin))
  pos : ∀ e ∈ l, 0 < e.size
  noWrap : ∀ e ∈ l, e.fin < word

/-- `m'` is `m` with the flags of `[start, start + size)` overwritten by `type`. -/
structure Overwritten (m m' : Memmap) (start size : ℕ) (type : ℤ) : Prop where
  ok : MemmapOk m'.entries
  inside : ∀ x, start ≤ x → x < start + size → flagsAt m'.entries x = some type
  outside : ∀ x, ¬ (start ≤ x ∧ x < start + size) → flagsAt m'.entries x = flagsAt m.entries x

/-- The range `[start, fin)` does not run past the end of an entry that it enters in the middle, and
every entry that begins inside it has no gap right before it. -/
structure ClaimFits (l : List MemmapEntry) (start fin : ℕ) : Prop where
  noOverrun : ∀ e ∈ l, e.start < start → start < e.fin → fin ≤ e.fin
  noGap : ∀ e ∈ l, start < e.start → e.start < fin → ∃ p ∈ l, p.fin = e.start

/-- `tags |= mask` or `tags &= ~mask` on 32 bits. -/
def retag (tag : Bool) (mask tags : ℕ) : ℕ :=
  if tag then tags ||| mask else tags &&& (0xffffffff ^^^ mask)

/-- The loop of `do_tag_memmap_region` at index `i`; `f` is what it does to the tags of an entry. -/
def tagLoop (start fin : ℕ) (f : ℕ → ℕ) : ℕ → Memmap → ℕ → Option Memmap
  | 0, _, _ => none
  | fuel + 1, m, i =>
    match m.entries[i]? with
    | none => some m
    | some entry =>
      let entryEnd := add64 entry.start entry.size
      let setTags := fun e : MemmapEntry => { e with tags := f e.tags }
      if entry.start < start ∧ start < entryEnd ∧ entryEnd < fin then do
        let m ← splitEntry m i (sub64 start entry.start)
        tagLoop start fin f fuel (m.setEntry (i + 1) setTags) (i + 2)
      -- the offset is computed from `start` here too
      else if start < entry.start ∧ entry.start < fin ∧ fin < entryEnd then do
        let m ← splitEntry m i (sub64 start entry.start)
        tagLoop start fin f fuel (m.setEntry i setTags) (i + 1)
      else if entry.start < start ∧ fin < entryEnd then do
        let m ← splitEntry2 m i (sub64 start entry.start) (sub64 fin entry.start)
        tagLoop start fin f fuel (m.setEntry (i + 1) setTags) (i + 2)
      else if start ≤ entry.start ∧ entryEnd ≤ fin then
        tagLoop start fin f fuel (m.setEntry i setTags) (i + 1)
      else tagLoop start fin f fuel m (i + 1)

/-- `do_tag_memmap_region`. The index grows in each round and an entry takes a slot, so
`num_slots + 1` rounds are enough. -/
def doTagMemmapRegion (m : Memmap) (start size mask : ℕ) (tag : Bool) : Option Memmap :=
  if size = 0 then some m
  else tagLoop start (add64 start size) (retag tag mask) (m.numSlots + 1) m 0

def tagMemmapRegion (m : Memmap) (start size mask : ℕ) : Option Memmap :=
  doTagMemmapRegion m start size mask true

def untagMemmapRegion (m : Memmap) (start size mask : ℕ) : Option Memmap :=
  doTagMemmapRegion m start size mask false

def tagsAt (l : List MemmapEntry) (x : ℕ) : Option ℕ :=
  (l.find? fun e => decide (e.start ≤ x ∧ x < e.fin)).map MemmapEntry.tags

/-- Entries sorted by start and pairwise disjoint, none of which wraps. -/
structure MemmapSorted (l : List MemmapEntry) : Prop where
  sorted : l.Pairwise fun a b => a.start ≤ b.start
  disjoint : l.Pairwise fun a b => ∀ x, ¬ ((a.start ≤ x ∧ x < a.fin) ∧ (b.start ≤ x ∧ x < b.fin))
  noWrap : ∀ e ∈ l, e.fin < word

/-- `m'` is `m` with the tags in `[start, start + size)` changed by `f`. -/
structure Retagged (m m' : Memmap) (start size : ℕ) (f : ℕ → ℕ) : Prop where
  inside : ∀ x, start ≤ x → x < start + size → tagsAt m'.entries x = (tagsAt m.entries x).map f
  outside : ∀ x, ¬ (start ≤ x ∧ x < start + size) → tagsAt m'.entries x = tagsAt m.entries x
  flags : ∀ x, flagsAt m'.entries x = flagsAt m.entries x

/-- No entry that begins inside the range runs past its end. An entry that shares one end with the
range and runs past the other has the tags already. Where `start + size` wraps, there is no entry
before `start` that ends after the wrapped end, and the entries from `start` on have the tags
already. -/
structure TagFits (l : List MemmapEntry) (start size : ℕ) (f : ℕ → ℕ) : Prop where
  noOverrun : ∀ e ∈ l, start < e.start → e.start < add64 start size → e.fin ≤ add64 start size
  sharedStart : ∀ e ∈ l, e.start = start → 0 < e.size → add64 start size < e.fin → f e.tags = e.tags
  sharedEnd : ∀ e ∈ l, e.start < start → start < e.fin → e.fin = add64 start size →
    f e.tags = e.tags
  wrapped : word ≤ start + size → ∀ e ∈ l, (e.start < start → e.fin ≤ add64 start size) ∧
    (start ≤ e.start → 0 < e.size → f e.tags = e.tags)

def memmapUsable : ℤ := 1

def memmapUsed : ℤ := 2

/-- `enum memmap_alloc_match_type`; `match` is an `int` in the source and `other` stands for its
further values. -/
inductive AllocMatch where
  | ignore
  | exact
  | setAll
  | setAny
  | unsetAll
  | unsetAny
  | other
  deriving DecidableEq, Repr

def AllocMatch.matched (kind : AllocMatch) (tags mask : ℕ) : Bool :=
  match kind with
  | .ignore => true
  | .exact => tags = mask
  | .setAll => tags &&& mask = mask
  | .setAny => tags &&& mask ≠ 0
  | .unsetAll => (0xffffffff ^^^ tags) &&& mask = mask
  | .unsetAny => (0xffffffff ^^^ tags) &&& mask ≠ 0
  | .other => false

def popcount64 (val : ℕ) : ℕ := (List.range 64).countP fun i => val.testBit i

def alignUp64 (s a : ℕ) : ℕ := add64 s (sub64 a 1) &&& (0xffffffffffffffff ^^^ sub64 a 1)

structure FindFree where
  size : ℕ
  align : ℕ
  mask : ℕ
  kind : AllocMatch
  deriving DecidableEq, Repr

def FindFree.alignedStart (c : FindFree) (entry : MemmapEntry) : ℕ :=
  if c.align ≠ 0 then alignUp64 entry.start c.align else entry.start

def FindFree.accepts (c : FindFree) (entry : MemmapEntry) : Bool :=
  entry.flags = memmapUsable ∧ c.size ≤ entry.size ∧
    c.alignedStart entry < add64 entry.start entry.size ∧
    c.size ≤ sub64 (add64 entry.start entry.size) (c.alignedStart entry) ∧
    c.kind.matched entry.tags c.mask

def findFreeMemmapRegion (m : Memmap) (c : FindFree) : Option (Memmap × ℕ) :=
  if 1 < popcount64 c.align then none
  else match m.entries.find? c.accepts with
    | none => some (m, 0)
    | some entry => (claimMemmapRegion m (c.alignedStart entry) c.size memmapUsed).map (·,
        c.alignedStart entry)

def findFreeMemmapRegions (m : Memmap) : List FindFree → Option (Memmap × List ℕ)
  | [] => some (m, [])
  | c :: calls =>
    (findFreeMemmapRegion m c).bind fun r => (findFreeMemmapRegions r.1 calls).map fun t =>
      (t.1, r.2 :: t.2)

def usable (l : List MemmapEntry) : Set ℕ :=
  {x | ∃ e ∈ l, e.flags = memmapUsable ∧ e.start ≤ x ∧ x < e.fin}

/-- Entries of 64-bit values, sorted by start and pairwise disjoint. -/
structure MemmapDisjoint (l : List MemmapEntry) : Prop where
  sorted : l.Pairwise fun a b => a.start ≤ b.start
  disjoint : l.Pairwise fun a b => ∀ x, ¬ ((a.start ≤ x ∧ x < a.fin) ∧ (b.start ≤ x ∧ x < b.fin))
  u64 : ∀ e ∈ l, e.start < word ∧ e.size < word

/-- A call with a size and an alignment that is 0 or a power of two, and entries at least `align`
bytes below the end of the address space. -/
structure FindFree.Proper (l : List MemmapEntry) (c : FindFree) : Prop where
  pos : 0 < c.size
  align : c.align = 0 ∨ ∃ k < 64, c.align = 2 ^ k
  below : ∀ e ∈ l, e.fin + c.align ≤ word

def FindFree.range (c : FindFree) (addr : ℕ) : Set ℕ := Set.Ico addr (addr + c.size)

/-- What calls that returned `addrs` have made of the memory that was usable in `m`. -/
structure Allocated (m m' : Memmap) (calls : List FindFree) (addrs : List ℕ) : Prop where
  aligned : ∀ p ∈ calls.zip addrs, p.1.align ≠ 0 → p.1.align ∣ p.2
  inside : ∀ p ∈ calls.zip addrs, p.1.range p.2 ⊆ usable m.entries
  disjoint : (calls.zip addrs).Pairwise fun p q => Disjoint (p.1.range p.2) (q.1.range q.2)
  rest : usable m'.entries = usable m.entries \ ⋃ p ∈ calls.zip addrs, p.1.range p.2

def FindFree.claims (m : Memmap) (c : FindFree) : List (ℕ × ℕ) :=
  match m.entries.find? c.accepts with
  | none => []
  | some entry => [(c.alignedStart entry, c.size)]

/-- The loop over `tags` of the two fallback allocators: the map and the address returned, and all
ranges claimed. A panic of a claim and the one after the loop are `none`. -/
def findFreeByTags (size align : ℕ) :
    List (AllocMatch × ℕ) → Memmap → Option (Memmap × ℕ) × List (ℕ × ℕ)
  | [], _ => (none, [])
  | (kind, mask) :: tags, m =>
    let c : FindFree := ⟨size, align, mask, kind⟩
    match findFreeMemmapRegion m c with
    | none => (none, [])
    | some (m', paddr) =>
      if paddr ≠ 0 then (some (m', paddr), c.claims m)
      else
        let r := findFreeByTags size align tags m'
        (r.1, c.claims m ++ r.2)

def memmapTagNormal : ℕ := 0x1

def memmapTagDirectMapped : ℕ := 0x2

def memmapTagDirectAccess : ℕ := 0x4

def directMappedTags : List (AllocMatch × ℕ) :=
  [(.exact, memmapTagNormal ||| memmapTagDirectMapped ||| memmapTagDirectAccess),
    (.setAll, memmapTagNormal ||| memmapTagDirectMapped ||| memmapTagDirectAccess),
    (.exact, memmapTagNormal ||| memmapTagDirectMapped),
      (.setAll, memmapTagNormal ||| memmapTagDirectMapped)]

def pallocTags : List (AllocMatch × ℕ) :=
  directMappedTags ++ [(.exact, memmapTagNormal), (.setAll, memmapTagNormal), (.ignore, 0)]

def findFreeMemmapRegionForPalloc (m : Memmap) (size align : ℕ) :
    Option (Memmap × ℕ) × List (ℕ × ℕ) :=
  findFreeByTags size align pallocTags m

def findFreeMemmapDirectMappedRegion (m : Memmap) (size align : ℕ) :
    Option (Memmap × ℕ) × List (ℕ × ℕ) :=
  findFreeByTags size align directMappedTags m

/-- A call that returns 0 has changed nothing and claimed nothing. -/
def FailureKeepsMap (m : Memmap) (c : FindFree) : Prop :=
  ∀ m', findFreeMemmapRegion m c = some (m', 0) → m' = m ∧ c.claims m = []

/-- A fallback allocator claims the range at the address it returns and no other, and none if it
panics. -/
def ClaimsOne (size : ℕ) (r : Option (Memmap × ℕ) × List (ℕ × ℕ)) : Prop :=
  r.2 = (r.1.map fun q => (q.2, size)).toList

/-- What a claim of `[pos, fin)` needs in order to return: no gap in front of an entry that starts
in the range, and a slot for the part that the range cuts off, unless it ends with an entry. -/
structure Claimable (l spare : List MemmapEntry) (pos fin : ℕ) : Prop where
  noGap : ∀ d ∈ l, d.start < fin → ∀ x, pos ≤ x → x < d.start → ∃ p ∈ l, p.start ≤ x ∧ x < p.fin
  slot : spare ≠ [] ∨ ∃ p ∈ l, 0 < p.size ∧ p.fin = fin

/-- The first entry that suits the call starts at address 0, or wraps when its start is rounded up,
and the range at address 0 can be claimed. -/
def ZeroTaken (m : Memmap) (c : FindFree) : Prop :=
  (c.align = 0 ∨ ∃ k < 64, c.align = 2 ^ k) ∧ ∃ e, m.entries.find? c.accepts = some e ∧
    (e.start = 0 ∨ word < e.start + c.align) ∧ Claimable m.entries m.spare 0 c.size

/-- The first of the filters that an entry passes does not take the range at address 0. -/
def FirstAboveZero (m : Memmap) (size align : ℕ) (tags : List (AllocMatch × ℕ)) : Prop :=
  ∀ tag, tags.find? (fun t => m.entries.any (FindFree.accepts ⟨size, align, t.2, t.1⟩)) = some tag →
    ¬ ZeroTaken m ⟨size, align, tag.2, tag.1⟩

def MemmapEntry.hasEnd (start fin : ℕ) (entry : MemmapEntry) : Prop :=
  (entry.start ≤ start ∧ start < add64 entry.start entry.size) ∨
    (entry.start < fin ∧ fin ≤ add64 entry.start entry.size)

instance MemmapEntry.decidableHasEnd (start fin : ℕ) (entry : MemmapEntry) :
    Decidable (entry.hasEnd start fin) :=
  inferInstanceAs (Decidable (_ ∨ _))

def checkMemmapRegionUsable (m : Memmap) (start size : ℕ) : Bool :=
  m.entries.all fun entry => !(decide (entry.hasEnd start (add64 start size)) &&
    entry.flags != memmapUsable)

/-- The placement of an image with direct access in `load_elf` of `loader/boot/exec.c`. -/
def placeImage (m : Memmap) (paddrStart vaddrSize : ℕ) : Option Memmap :=
  if checkMemmapRegionUsable m paddrStart vaddrSize
    then claimMemmapRegion m paddrStart vaddrSize memmapUsed
  else none

end Toddler
