import Toddler.Spec.Memmap
import Toddler.Spec.PallocInit

/-! The PFN database of `kernel/mem/pfn.c`: one entry for each page between the bounds of the memory
map. The memory of the database holds anything before `init_pfndb`, so an entry that was not written
is `none`. The map keeps its bounds between `reserve_pfndb` and `init_pfndb`, since claims only
split and retag entries. A panic is `none`. -/

namespace Toddler

/-- The physical addresses of a machine: the width of `paddr_t`, `MAX_NUM_PADDR_BITS` and
`PAGE_BITS`. -/
structure PaddrArch where
  bits : ℕ
  maxBits : ℕ
  pageBits : ℕ
  max_le : maxBits ≤ bits
  page_le : pageBits ≤ maxBits
  le_64 : bits ≤ 64

namespace PaddrArch

variable (A : PaddrArch)

def page : ℕ := 2 ^ A.pageBits

def alignUp (x : ℕ) : ℕ := (x + (A.page - 1)) % 2 ^ A.bits / A.page * A.page

def alignDown (x : ℕ) : ℕ := x / A.page * A.page

def castU64ToPaddr (addr : ℕ) : Option ℕ := if addr < 2 ^ A.maxBits then some addr else none

def paddrToPpfn (paddr : ℕ) : ℕ := paddr >>> A.pageBits

end PaddrArch

structure PfndbRecord extends PfndbEntry where
  mapped : Bool
  zeroed : Bool
  kernel : Bool
  swappable : Bool
  deriving DecidableEq, Repr

/-- The page of a hole, of a usable entry and of another entry. The field `tags` has ten bits. -/
def PfndbRecord.hole : PfndbRecord := ⟨⟨false, 0, true⟩, false, false, true, false⟩

def PfndbRecord.region (cur : MemmapEntry) : PfndbRecord :=
  if cur.flags = memmapUsable then ⟨⟨true, cur.tags % 2 ^ 10, false⟩, true, false, false, true⟩
  else ⟨⟨true, 0, true⟩, true, false, true, false⟩

structure Pfndb where
  offset : ℕ
  limit : ℕ
  entries : ℕ → Option PfndbRecord

variable (A : PaddrArch)

def findPaddrRange (entries : List MemmapEntry) : Option (ℕ × ℕ) := do
  let first ← entries.head?
  let last ← entries.getLast?
  let lower ← A.castU64ToPaddr first.start
  let upper ← A.castU64ToPaddr (add64 last.start last.size)
  some (A.alignDown lower, A.alignUp upper)

def Pfndb.set (db : Pfndb) (paddr : ℕ) (record : PfndbRecord) : Option Pfndb :=
  let pfn := A.paddrToPpfn paddr
  if pfn < db.offset ∨ db.limit ≤ pfn then none
  else some { db with entries := Function.update db.entries pfn (some record) }

def fillPages (record : PfndbRecord) (fin : ℕ) : ℕ → ℕ → Pfndb → Option Pfndb
  | fuel, i, db =>
    if i < fin then
      match fuel with
      | 0 => none
      | fuel + 1 => do
        let db ← db.set A i record
        fillPages record fin fuel ((i + A.page) % 2 ^ A.bits) db
    else some db

def constructEntry (db : Pfndb) (prevEnd : ℕ) (cur : MemmapEntry) : Option (Pfndb × ℕ) := do
  let start ← A.castU64ToPaddr cur.start
  let fin ← A.castU64ToPaddr (add64 cur.start cur.size)
  let alignedStart := A.alignUp start
  let alignedEnd := A.alignDown fin
  let db ← fillPages A .hole alignedStart alignedStart prevEnd db
  let db ← fillPages A (.region cur) alignedEnd alignedEnd alignedStart db
  some (db, alignedEnd)

def constructEntries : List MemmapEntry → Pfndb → ℕ → Option (Pfndb × ℕ)
  | [], db, prevEnd => some (db, prevEnd)
  | cur :: rest, db, prevEnd => do
    let (db, prevEnd) ← constructEntry A db prevEnd cur
    constructEntries rest db prevEnd

def constructPfndb (entries : List MemmapEntry) (paddrStart paddrEnd : ℕ) (db : Pfndb) :
    Option Pfndb := do
  let (db, prevEnd) ← constructEntries A entries db paddrStart
  fillPages A .hole paddrEnd paddrEnd prevEnd db

def reserveFirstPage (db : Pfndb) : Option Pfndb :=
  if db.offset = 0 then
    if db.limit = 0 then none
    else
      match db.entries 0 with
      | none => none
      | some entry =>
        if entry.usable && !entry.inuse then
          db.set A 0 { entry with usable := false, inuse := true }
        else some db
  else some db

/-- The ranges of `reserve_pfndb` and then `init_pfndb`, over memory with no entry written. -/
def initPfndb (entries : List MemmapEntry) : Option Pfndb := do
  let (paddrStart, paddrEnd) ← findPaddrRange A entries
  let db : Pfndb := ⟨A.paddrToPpfn paddrStart, A.paddrToPpfn paddrEnd, fun _ => none⟩
  let db ← constructPfndb A entries paddrStart paddrEnd db
  reserveFirstPage A db

end Toddler
