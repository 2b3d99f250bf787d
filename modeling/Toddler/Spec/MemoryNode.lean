import Toddler.Lib.Word

/-! Physical memory discovery, `create_all_from_memory_node` and `create_all_from_chosen_node` of
`loader/mem/memmap.c`. A region is an address and a size of the `/memory` node, in the node's order.
The calls of `claim_memmap_region` with `MEMMAP_USABLE` are recorded. -/

namespace Toddler

/-- The properties `memstart` and `memsize` of `/chosen`, and the range of the architecture. -/
structure MemoryLimits where
  fwMemstart : Option ℕ
  fwMemsize : Option ℕ
  physMemRangeMin : ℕ
  physMemRangeMax : ℕ
  deriving DecidableEq, Repr

namespace MemoryLimits

def memstart (c : MemoryLimits) : ℕ :=
  if c.fwMemstart.getD 0 < c.physMemRangeMin then c.physMemRangeMin else c.fwMemstart.getD 0

def memsize (c : MemoryLimits) : ℕ :=
  if c.physMemRangeMax ≠ 0 ∧ c.memstart < c.physMemRangeMax ∧
      sub64 c.physMemRangeMax c.memstart < c.fwMemsize.getD 0 then c.physMemRangeMax
  else c.fwMemsize.getD 0

end MemoryLimits

structure Discovery where
  memstart : ℕ
  memstartFound : Bool
  sizeUpToNow : ℕ
  claims : List (ℕ × ℕ)
  deriving DecidableEq, Repr

def Discovery.claim (memsize : ℕ) (s : Discovery) (addr size : ℕ) : Discovery :=
  let size := if memsize ≠ 0 ∧ memsize < add64 s.sizeUpToNow size then sub64 memsize s.sizeUpToNow
    else size
  { s with claims := s.claims ++ [(addr, size)], sizeUpToNow := add64 s.sizeUpToNow size }

def Discovery.region (memsize : ℕ) (s : Discovery) (addr size : ℕ) : Discovery :=
  if size = 0 then s
  else if add64 addr size ≤ s.memstart then s
  else if addr < s.memstart then s.claim memsize s.memstart (sub64 size (sub64 s.memstart addr))
  else if !s.memstartFound then { s with memstart := addr, memstartFound := true }.claim memsize
    addr size
  else s.claim memsize addr size

def Discovery.loop (memsize : ℕ) : List (ℕ × ℕ) → Discovery → Discovery
  | [], s => s
  | (addr, size) :: rest, s =>
    let s := s.region memsize addr size
    if memsize = 0 ∨ s.sizeUpToNow < memsize then Discovery.loop memsize rest s else s

structure Discovered where
  claims : List (ℕ × ℕ)
  memstart : ℕ
  memsize : ℕ
  deriving DecidableEq, Repr

def createAllFromMemoryNode (c : MemoryLimits) (regions : List (ℕ × ℕ)) : Discovered :=
  let s := Discovery.loop c.memsize regions ⟨c.memstart, false, 0, []⟩
  ⟨s.claims, s.memstart, if c.memsize = 0 then s.sizeUpToNow else c.memsize⟩

/-- Without one of the two properties the loader panics. -/
def createAllFromChosenNode (c : MemoryLimits) : Option Discovered :=
  if c.fwMemstart.isSome ∧ c.fwMemsize.isSome then
    some ⟨[(c.memstart, c.memsize)], c.memstart, c.memsize⟩
  else none

end Toddler
