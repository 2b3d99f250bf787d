import Toddler.Spec.Palloc

/-! `init_palloc`: the scan of the PFN database that makes the regions of the page frame
allocator. -/

namespace Toddler

structure PfndbEntry where
  usable : Bool
  tags : ℕ
  inuse : Bool
  deriving DecidableEq, Repr

structure InitScan where
  palloc : Palloc
  curTag : ℕ
  recording : Bool
  curRegionStart : ℕ
  regionCount : ℕ

def initNextRegion (c : PallocConfig) (s : InitScan) (fin : ℕ) : Option InitScan :=
  if h : s.regionCount < 32 then do
    let p ← initRegion c s.palloc s.curRegionStart (fin - s.curRegionStart) ⟨s.regionCount, h⟩ s.curTag
    some { s with palloc := p, recording := false, regionCount := s.regionCount + 1 }
  else none

def initScan (c : PallocConfig) (db : ℕ → PfndbEntry) (s : InitScan) (i : ℕ) : Option InitScan :=
  let entry := db i
  if s.recording && (!entry.usable || entry.inuse || s.curTag != entry.tags)
    then initNextRegion c s i
  else if !s.recording && (entry.usable && !entry.inuse) then
    some { s with curRegionStart := i, curTag := entry.tags, recording := true }
  else some s

def initPalloc (c : PallocConfig) (db : ℕ → PfndbEntry) : Option Palloc := do
  let pfns := List.range' c.pfnStart (c.pfnLimit - c.pfnStart)
  let s ← pfns.foldlM (initScan c db) ⟨.zero, 0, false, 0, 0⟩
  let s ← if s.recording then initNextRegion c s c.pfnLimit else some s
  some s.palloc

def PfndbEntry.free (e : PfndbEntry) : Bool := e.usable && !e.inuse

/-- `i` is the first frame of a maximal run of free frames with equal tags. -/
def startsRun (c : PallocConfig) (db : ℕ → PfndbEntry) (i : ℕ) : Bool :=
  (db i).free && (i == c.pfnStart || !(db (i - 1)).free || (db (i - 1)).tags != (db i).tags)

def numRuns (c : PallocConfig) (db : ℕ → PfndbEntry) : ℕ :=
  (List.range' c.pfnStart (c.pfnLimit - c.pfnStart)).countP (startsRun c db)

/-- PFN `x` is in a block on one of the lists of region `r`. -/
def InRegion (c : PallocConfig) (s : Palloc) (r : RegionId) (x : ℕ) : Prop :=
  ∃ b ∈ listBlocks pallocOrderCount (buddyList c s) r, b.start ≤ x ∧ x < b.fin

/-- The regions hold the free frames of the database and no others, each in one region with its
tags. -/
structure InitComplete (c : PallocConfig) (db : ℕ → PfndbEntry) (s : Palloc) : Prop where
  covered : ∀ x, c.pfnStart ≤ x → x < c.pfnLimit → (db x).free = true → ∃! r, InRegion c s r x
  tags : ∀ r x, InRegion c s r x → (s.regions r).tags = (db x).tags
  onlyFree : ∀ r x, InRegion c s r x → c.pfnStart ≤ x ∧ x < c.pfnLimit ∧ (db x).free = true
  total : ∑ r, (s.regions r).totalPages =
    (List.range' c.pfnStart (c.pfnLimit - c.pfnStart)).countP fun x => (db x).free

def TagsContinue (c : PallocConfig) (db : ℕ → PfndbEntry) : Prop :=
  ∀ i, c.pfnStart ≤ i → i + 1 < c.pfnLimit → (db i).free = true → (db (i + 1)).free = true →
    (db i).tags = (db (i + 1)).tags

end Toddler
