import Toddler.Lib.Buddy
import Toddler.Lib.Chain
import Toddler.Lib.Run
import Toddler.Spec.Math

/-! The page frame allocator of `kernel/mem/palloc.c` in the 64-bit build. Every page has a node,
here indexed by its PFN, and every region has one list header for each order, itself a node. A
panic, a failed assertion and an endless loop are `none`. Locks are left out: the calls run one
after another. -/

namespace Toddler

open Function

def pallocOrderCount : ℕ := 16

def pallocMaxOrder : ℕ := pallocOrderCount - 1

/-- Indices of `regions`, and the values of the five-bit field of a node. -/
abbrev RegionId := Fin 32

structure PallocNode where
  order : ℕ
  region : RegionId
  alloc : Bool
  hasNext : Bool
  avail : Bool
  next : ℕ
  deriving DecidableEq, Repr

def PallocNode.link (n : PallocNode) : Option ℕ := if n.hasNext then some n.next else none

/-- `next` has the bits that the other fields leave. -/
def nextBits : ℕ := 52

def PallocNode.value (n : PallocNode) : ℕ :=
  n.order + 2 ^ 4 * n.region + 2 ^ 9 * n.alloc.toNat + 2 ^ 10 * n.hasNext.toNat +
    2 ^ 11 * n.avail.toNat + 2 ^ 12 * n.next

def PallocNode.zero : PallocNode := ⟨0, 0, false, false, false, 0⟩

structure PallocRegion where
  tags : ℕ
  totalPages : ℕ
  availPages : ℕ
  buddies : ℕ → PallocNode

structure PallocConfig where
  pfnStart : ℕ
  pfnLimit : ℕ
  limit_le : pfnLimit ≤ 2 ^ nextBits

structure Palloc where
  regions : RegionId → PallocRegion
  nodes : ℕ → PallocNode
  numPagesTotal : ℕ
  numPagesAlloc : ℕ

def Palloc.header (s : Palloc) (region : RegionId) (order : ℕ) : PallocNode :=
  (s.regions region).buddies order

def Palloc.setNode (s : Palloc) (pfn : ℕ) (f : PallocNode → PallocNode) : Palloc :=
  { s with nodes := update s.nodes pfn (f (s.nodes pfn)) }

def Palloc.setRegion (s : Palloc) (region : RegionId) (f : PallocRegion → PallocRegion) : Palloc :=
  { s with regions := update s.regions region (f (s.regions region)) }

def Palloc.setHeader (s : Palloc) (region : RegionId) (order : ℕ) (f : PallocNode → PallocNode) :
    Palloc :=
  s.setRegion region fun r => { r with buddies := update r.buddies order (f (r.buddies order)) }

def Palloc.setAvailPages (s : Palloc) (region : RegionId) (f : ℕ → ℕ) : Palloc :=
  s.setRegion region fun r => { r with availPages := f r.availPages }

def Palloc.setNumPagesAlloc (s : Palloc) (f : ℕ → ℕ) : Palloc :=
  { s with numPagesAlloc := f s.numPagesAlloc }

def isPfnValid (c : PallocConfig) (pfn : ℕ) : Bool := !(pfn < c.pfnStart || c.pfnLimit ≤ pfn)

def getNodeByPfn (c : PallocConfig) (s : Palloc) (pfn : ℕ) : Option PallocNode :=
  if pfn < c.pfnStart ∨ c.pfnLimit ≤ pfn then none else some (s.nodes pfn)

def insertNode (c : PallocConfig) (s : Palloc) (pfn : ℕ) (region : RegionId) (order : ℕ) :
    Option Palloc := do
  let _ ← getNodeByPfn c s pfn
  let head := s.header region order
  let s := s.setNode pfn fun n => { n with next := head.next, hasNext := head.hasNext }
  some (s.setHeader region order fun h => { h with hasNext := true, next := pfn % 2 ^ nextBits })

def removeLoop (c : PallocConfig) (pfn : ℕ) : ℕ → Palloc → ℕ → Option Palloc
  | 0, _, _ => none
  | fuel + 1, s, prevPfn => do
    let curPfn := (s.nodes prevPfn).next
    let cur ← getNodeByPfn c s curPfn
    if curPfn = pfn then
      let s := s.setNode prevPfn fun n => { n with hasNext := cur.hasNext, next := cur.next }
      some (s.setNode curPfn fun n => { n with hasNext := false, next := 0 })
    else if cur.hasNext then removeLoop c pfn fuel s curPfn
    else none

/-- `remove_node`. A list has no more entries than there are nodes. -/
def removeNode (c : PallocConfig) (s : Palloc) (pfn : ℕ) (region : RegionId) (order : ℕ) :
    Option Palloc := do
  let curPfn := (s.header region order).next
  let cur ← getNodeByPfn c s curPfn
  if curPfn = pfn then
    let s := s.setHeader region order fun h => { h with hasNext := cur.hasNext, next := cur.next }
    some (s.setNode curPfn fun n => { n with hasNext := false, next := 0 })
  else if cur.hasNext then removeLoop c pfn (c.pfnLimit - c.pfnStart) s curPfn
  else none

def pfnModOrderPageCount (pfn order : ℕ) : ℕ := pfn &&& (2 ^ order - 1)

def clz32 (val : BitVec 32) : ℕ := clzLoop 32 val

def popcount32 (val : BitVec 32) : ℕ := (List.range 32).countP fun i => val &&& (1#32 <<< i) ≠ 0

def calcPallocOrder (count : BitVec 32) : Option ℕ :=
  let order : ℤ := 32 - 1 - clz32 count
  let order := if 1 < popcount32 count then order + 1 else order
  if order < 0 then some 0
  else if pallocMaxOrder < order then none
  else some order.toNat

/-- The lines of `buddy_split` and `palloc_region` that take the first node off a list. -/
def takeFirst (c : PallocConfig) (s : Palloc) (region : RegionId) (order : ℕ) :
    Option (Palloc × ℕ) := do
  let pfn := (s.header region order).next
  let node ← getNodeByPfn c s pfn
  some (s.setHeader region order fun h =>
    { h with next := node.next, hasNext := node.hasNext }, pfn)

/-- `buddy_split` from the line on where its own list has a node. -/
def splitFirst (c : PallocConfig) (s : Palloc) (order : ℕ) (region : RegionId) : Option Palloc := do
  let (s, pfn) ← takeFirst c s region order
  let pfn2 := pfn + 2 ^ (order - 1)
  let _ ← getNodeByPfn c s pfn2
  let s := s.setNode pfn fun _ => ⟨order - 1, region, false, false, true, 0⟩
  let s := s.setNode pfn2 fun _ => ⟨order - 1, region, false, false, true, 0⟩
  let s ← insertNode c s pfn region (order - 1)
  insertNode c s pfn2 region (order - 1)

def buddySplit (c : PallocConfig) (region : RegionId) : ℕ → Palloc → ℕ → Option (Palloc × ℤ)
  | 0, _, _ => none
  | fuel + 1, s, order => do
    if pallocMaxOrder < order then none
    else if (s.header region order).hasNext then
      let s ← splitFirst c s order region
      some (s, 0)
    else if order = pallocMaxOrder then some (s, -1)
    else
      let (s, ret) ← buddySplit c region fuel s (order + 1)
      if ret = -1 then some (s, -1)
      else
        let s ← splitFirst c s order region
        some (s, 0)

def buddyCombine (c : PallocConfig) : ℕ → Palloc → ℕ → Option Palloc
  | 0, _, _ => none
  | fuel + 1, s, pfn => do
    let node ← getNodeByPfn c s pfn
    let region := node.region
    let order := node.order
    if order = pallocMaxOrder then some s
    else
      let higher := order + 1
      let aligned := pfnModOrderPageCount pfn higher = 0
      let higherPfn := if aligned then pfn else pfn - 2 ^ order
      let otherPfn := if aligned then pfn + 2 ^ order else pfn - 2 ^ order
      if !isPfnValid c otherPfn then some s
      else
        let otherNode ← getNodeByPfn c s otherPfn
        if !otherNode.avail ∨ otherNode.region ≠ region ∨ otherNode.alloc ∨ order ≠ otherNode.order
          then some s
        else
          let s ← removeNode c s pfn region order
          let s ← removeNode c s otherPfn region order
          let setUp := fun n : PallocNode =>
            { n with hasNext := false, next := 0, order := higher, region := region, avail := true }
          let s := s.setNode pfn setUp
          let s := s.setNode otherPfn setUp
          let s ← insertNode c s higherPfn region higher
          buddyCombine c fuel s higherPfn

/-- `palloc_region` where it splits higher order buddies if necessary. -/
def splitIfEmpty (c : PallocConfig) (s : Palloc) (region : RegionId) (order : ℕ) :
    Option (Palloc × ℤ) :=
  if (s.header region order).hasNext then some (s, 0)
  else buddySplit c region pallocOrderCount s (order + 1)

/-- `palloc_region` from the line on where it is safe to allocate. -/
def allocFirst (c : PallocConfig) (s : Palloc) (region : RegionId) (order : ℕ) :
    Option (Palloc × ℕ) := do
  let (s, pfn) ← takeFirst c s region order
  let s := s.setNode pfn fun n => { n with alloc := true, hasNext := false, next := 0 }
  let s := s.setAvailPages region (· - 2 ^ order)
  some (s.setNumPagesAlloc (· + 2 ^ order), pfn)

def pallocRegion (c : PallocConfig) (s : Palloc) (count : BitVec 32) (region : RegionId) :
    Option (Palloc × ℕ) := do
  let order ← calcPallocOrder count
  if (s.regions region).availPages < 2 ^ order then some (s, 0)
  else if order = pallocMaxOrder then some (s, 0)
  else
    let (s, ret) ← splitIfEmpty c s region order
    if ret = -1 then some (s, 0) else allocFirst c s region order

def pfree (c : PallocConfig) (s : Palloc) (pfn : ℕ) : Option (Palloc × ℕ) := do
  let node ← getNodeByPfn c s pfn
  let region := node.region
  let order := node.order
  let orderCount := 2 ^ order
  let head := s.header region order
  let s := s.setNode pfn fun n =>
    if head.value ≠ 0 then { n with alloc := false, next := head.next, hasNext := true }
    else { n with alloc := false, next := 0, hasNext := false }
  let s := s.setHeader region order fun h => { h with hasNext := true, next := pfn % 2 ^ nextBits }
  let s := s.setAvailPages region (· + orderCount)
  let s ← buddyCombine c pallocOrderCount s pfn
  some (s.setNumPagesAlloc (· - orderCount), orderCount)

def findOrder (curPfn limit : ℕ) : Option ℕ :=
  (List.range pallocOrderCount).reverse.find? fun order =>
    pfnModOrderPageCount curPfn order = 0 ∧ curPfn + 2 ^ order ≤ limit

def initLoop (c : PallocConfig) (region : RegionId) (limit : ℕ) : ℕ → Palloc → ℕ → Option Palloc
  | fuel, s, curPfn =>
    if curPfn < limit then
      match fuel with
      | 0 => none
      | fuel + 1 => do
        let order ← findOrder curPfn limit
        let _ ← getNodeByPfn c s curPfn
        let s := s.setNode curPfn fun _ => ⟨order, region, false, false, true, 0⟩
        let s ← insertNode c s curPfn region order
        initLoop c region limit fuel s (curPfn + 2 ^ order)
    else some s

def initRegion (c : PallocConfig) (s : Palloc) (startPfn count : ℕ) (region : RegionId) (tags : ℕ) :
    Option Palloc :=
  let s := { s with numPagesTotal := s.numPagesTotal + count }
  let s := s.setRegion region fun r =>
    { r with tags := tags, totalPages := r.totalPages + count, availPages := r.availPages + count }
  initLoop c region (startPfn + count) count s startPfn

/-- The state in which `init_palloc` calls `init_region`: all nodes and headers are zero. -/
def Palloc.zero : Palloc := ⟨fun _ => ⟨0, 0, 0, fun _ => .zero⟩, fun _ => .zero, 0, 0⟩

structure RegionInit where
  startPfn : ℕ
  count : ℕ
  tags : ℕ
  deriving DecidableEq, Repr

def RegionInit.fin (i : RegionInit) : ℕ := i.startPfn + i.count

def initRegions (c : PallocConfig) : List RegionInit → ℕ → Palloc → Option Palloc
  | [], _, s => some s
  | i :: is, region, s =>
    if h : region < 32 then do
      let s ← initRegion c s i.startPfn i.count ⟨region, h⟩ i.tags
      initRegions c is (region + 1) s
    else none

/-- The allocator with the blocks that were handed out and not freed since. -/
structure PallocRun where
  palloc : Palloc
  live : List (DyBlock RegionId)

inductive PallocCall
  | pallocRegion (count : BitVec 32) (region : RegionId)
  | pfree (pfn : ℕ)
  deriving DecidableEq, Repr

/-- A call of `palloc_region`, or of `pfree` on a live allocation. PFN 0 means failure. -/
def pallocStep (c : PallocConfig) (s : PallocRun) : PallocCall → Option PallocRun
  | .pallocRegion count region => do
    let order ← calcPallocOrder count
    let (p, pfn) ← pallocRegion c s.palloc count region
    some ⟨p, if pfn = 0 then s.live else ⟨pfn, order, region⟩ :: s.live⟩
  | .pfree pfn => do
    let b ← s.live.find? fun b => b.start = pfn
    let (p, _) ← pfree c s.palloc pfn
    some ⟨p, s.live.erase b⟩

def buddyList (c : PallocConfig) (s : Palloc) (region : RegionId) (order : ℕ) : List ℕ :=
  walk (fun pfn => (s.nodes pfn).link) (c.pfnLimit - c.pfnStart) (s.header region order).link

/-- The interval of a region; a region that was not initialized is empty. -/
def regionLo (regions : List RegionInit) (r : RegionId) : ℕ :=
  (regions[r.val]?).elim 0 RegionInit.startPfn

def regionHi (regions : List RegionInit) (r : RegionId) : ℕ :=
  (regions[r.val]?).elim 0 RegionInit.fin

/-- A PFN database with regions for `init_region`: pairwise disjoint, inside the database, without
PFN 0. -/
structure PallocLayout extends PallocConfig where
  regions : List RegionInit
  count_le : regions.length ≤ 32
  inRange : ∀ i ∈ regions, pfnStart ≤ i.startPfn ∧ i.fin ≤ pfnLimit
  apart : regions.Pairwise (Apart RegionInit.startPfn RegionInit.fin)
  notZero : ∀ i ∈ regions, i.startPfn ≠ 0

/-- The blocks of a region, listed and live, tile the interval `[lo, hi)`, and the counter and the
list headers agree with the lists. -/
structure RegionSound (c : PallocConfig) (s : PallocRun) (r : RegionId) (lo hi : ℕ) : Prop where
  apart : (regionBlocks pallocOrderCount (buddyList c s.palloc) s.live r).Pairwise
    (Apart DyBlock.start DyBlock.fin)
  aligned : ∀ b ∈ regionBlocks pallocOrderCount (buddyList c s.palloc) s.live r,
    2 ^ b.order ∣ b.start
  inside : ∀ b ∈ regionBlocks pallocOrderCount (buddyList c s.palloc) s.live r,
    lo ≤ b.start ∧ b.fin ≤ hi
  covers : ∀ x, lo ≤ x → x < hi →
    ∃ b ∈ regionBlocks pallocOrderCount (buddyList c s.palloc) s.live r, b.start ≤ x ∧ x < b.fin
  availPages : (s.palloc.regions r).availPages =
    ((listBlocks pallocOrderCount (buddyList c s.palloc) r).map fun b => 2 ^ b.order).sum
  header : ∀ k < pallocOrderCount, (s.palloc.header r k).value = 0 ↔ buddyList c s.palloc r k = []

/-- No list of an order below the highest holds a block together with its buddy. -/
def BuddiesCombined (c : PallocConfig) (s : Palloc) : Prop :=
  ∀ r k, k < pallocMaxOrder → ∀ p ∈ buddyList c s r k, buddy p k ∉ buddyList c s r k

end Toddler
