import Toddler.Lib.Summary
import Toddler.Lib.Run

/-! The ID allocator (`kernel/struct/id.c`, `libk/lib/bit.c`). `w` is `NUM_BITS_PER_MAP`, the number
of bits of an `ulong`. A panic is `none`. -/

namespace Toddler

open Summary

/-- `bitmaps 1` is `mask1`, one word, `bitmaps 2` is `mask2` and `bitmaps 3` is `mask3`. -/
structure IdObj where
  base : ℕ
  range : ℕ
  allocCount : ℕ
  numLevels : ℕ
  bitmaps : ℕ → ℕ → ℕ

def ctzLoop : ℕ → ℕ → ℕ
  | 0, _ => 0
  | i + 1, val => if val % 2 = 0 then ctzLoop i (val / 2) + 1 else 0

def ctz (w val : ℕ) : ℕ := ctzLoop w val

/-- The loops of `_create_l2` and `_create_l3`, which fill the words of `level` from `idx` on and
differ in what they `mark` above. Each round takes a word off `count`, so `count` rounds are
enough. -/
def createLoop (w level : ℕ) (mark : ℕ → (ℕ → ℕ → ℕ) → ℕ → ℕ → ℕ) :
    ℕ → ℕ → ℕ → (ℕ → ℕ → ℕ) → ℕ → ℕ → ℕ
  | 0, _, _, b => b
  | rounds + 1, idx, count, b =>
    if count = 0 then b
    else if w ≤ count then
      createLoop w level mark rounds (idx + 1) (count - w) (mark idx (put b level idx (2 ^ w - 1)))
    else createLoop w level mark rounds (idx + 1) 0 (mark idx (put b level idx (2 ^ count - 1)))

def markL1 (l1pos : ℕ) (b : ℕ → ℕ → ℕ) : ℕ → ℕ → ℕ := put b 1 0 (setBit (b 1 0) l1pos)

def markL2 (w l3idx : ℕ) (b : ℕ → ℕ → ℕ) : ℕ → ℕ → ℕ :=
  let l2idx := l3idx / w
  let l2pos := l3idx % w
  markL1 l2idx (put b 2 l2idx (setBit (b 2 l2idx) l2pos))

namespace IdObj

-- a shift by the width of the word is undefined
def createL1 (w : ℕ) (o : IdObj) : Option IdObj :=
  if o.range < w then some { o with numLevels := 1, bitmaps := put o.bitmaps 1 0 (2 ^ o.range - 1) }
    else none

def createL2 (w : ℕ) (o : IdObj) : IdObj :=
  { o with numLevels := 2, bitmaps := createLoop w 2 markL1 o.range 0 o.range o.bitmaps }

/-- `mask3` is what `palloc_ptr` returns; its words are not cleared. -/
def createL3 (w : ℕ) (mask3 : ℕ → ℕ) (o : IdObj) : IdObj :=
  { o with
    numLevels := 3
    bitmaps := createLoop w 3 (markL2 w) o.range 0 o.range (Function.update o.bitmaps 3 mask3) }

end IdObj

def idAllocCreate (w : ℕ) (mask3 : ℕ → ℕ) (first last : ℕ) : Option IdObj :=
  let obj : IdObj := ⟨first, (last + 2 ^ w - first + 1) % 2 ^ w, 0, 0, fun _ _ => 0⟩
  if obj.range ≤ w then obj.createL1 w
  else if obj.range ≤ w * w then some (obj.createL2 w)
  else if obj.range ≤ w * w * w then some (obj.createL3 w mask3)
  else none

/-- The `bitmap_idx` of the first loop of `id_alloc` after `level` rounds. -/
def descend (w : ℕ) (b : ℕ → ℕ → ℕ) : ℕ → ℕ
  | 0 => 0
  | level + 1 => descend w b level * w + ctz w (b (level + 1) (descend w b level))

def clearLoop (w : ℕ) : ℕ → ℕ → (ℕ → ℕ → ℕ) → ℕ → ℕ → ℕ
  | 0, _, b => b
  | level + 1, clearIdx, b =>
    let bitmapIdx := clearIdx / w
    let word := clearBit w (b (level + 1) bitmapIdx) (clearIdx % w)
    if word ≠ 0 then put b (level + 1) bitmapIdx word
    else clearLoop w level bitmapIdx (put b (level + 1) bitmapIdx word)

/-- The id is `none` when `id_alloc` returns `-1`. -/
def idAlloc (w : ℕ) (obj : IdObj) : IdObj × Option ℕ :=
  if obj.allocCount = obj.range then (obj, none)
  else
    -- `bitmap` is the word of the last round
    let last := descend w obj.bitmaps (obj.numLevels - 1)
    let bitmapPos := ctz w (obj.bitmaps obj.numLevels last)
    let bitmapIdx := last * w + bitmapPos
    let word := clearBit w (obj.bitmaps obj.numLevels last) bitmapPos
    let b := put obj.bitmaps obj.numLevels last word
    ({ obj with bitmaps := if word = 0 then clearLoop w (obj.numLevels - 1) (bitmapIdx / w) b
      else b }, some ((obj.base + bitmapIdx) % 2 ^ w))

def freeLoop (w numLevels : ℕ) : ℕ → ℕ → (ℕ → ℕ → ℕ) → Option (ℕ → ℕ → ℕ)
  | 0, _, b => some b
  | level + 1, idx, b =>
    let bitmapIdx := idx / w
    let bitmapPos := idx % w
    if level + 1 = numLevels ∧ (b (level + 1) bitmapIdx).testBit bitmapPos = true then none
    else
      freeLoop w numLevels level bitmapIdx
        (put b (level + 1) bitmapIdx (setBit (b (level + 1) bitmapIdx) bitmapPos))

def idFree (w : ℕ) (obj : IdObj) (id : ℕ) : Option IdObj :=
  let idx := (id + 2 ^ w - obj.base) % 2 ^ w
  if obj.range ≤ idx then none
  else
    (freeLoop w obj.numLevels obj.numLevels idx obj.bitmaps).map fun b =>
      { obj with bitmaps := b, allocCount := (obj.allocCount + 2 ^ w - 1) % 2 ^ w }

structure IdState where
  obj : IdObj
  live : List ℕ

inductive IdAction
  | alloc
  | free (id : ℕ)
  deriving DecidableEq, Repr

/-- An allocation is made while fewer than `range` ids are live, and live ids are freed. -/
def idStep (w : ℕ) (s : IdState) : IdAction → Option IdState
  | .alloc =>
    if s.live.length < s.obj.range then
      let r := idAlloc w s.obj
      some ⟨r.1, r.2.toList ++ s.live⟩
    else none
  | .free id => if id ∈ s.live then (idFree w s.obj id).map fun obj => ⟨obj, s.live.erase id⟩ else none

/-- What a state of the allocator for `first .. last` promises to the calls that meet `ok`. -/
structure IdOk (w first last : ℕ) (ok : IdState → IdAction → Prop) (s : IdState) : Prop where
  nodup : s.live.Nodup
  mem : ∀ id ∈ s.live, first ≤ id ∧ id ≤ last
  alloc : ok s .alloc → s.live.length < last - first + 1 →
    ∃ id, (idAlloc w s.obj).2 = some id ∧ IsLeast {id | first ≤ id ∧ id ≤ last ∧ id ∉ s.live} id
  free : ∀ id ∈ s.live, ok s (.free id) → ∃ obj, idFree w s.obj id = some obj
  summary : ∀ level j, 1 ≤ level → level < s.obj.numLevels →
    InUse w s.obj.numLevels s.obj.range level j →
    (bit w s.obj.bitmaps level j = true ↔ s.obj.bitmaps (level + 1) j ≠ 0)

/-- Every summary bit says whether its word is not zero, also behind the range. -/
def SummariesRight (w : ℕ) (obj : IdObj) : Prop :=
  ∀ level j, 1 ≤ level → level < obj.numLevels → j < w ^ level →
    (bit w obj.bitmaps level j = true ↔ obj.bitmaps (level + 1) j ≠ 0)

/-- An `id_alloc` finds `alloc_count` different from the range. -/
def CountBelowRange (s : IdState) : IdAction → Prop
  | .alloc => s.obj.allocCount ≠ s.obj.range
  | .free _ => True

instance CountBelowRange.decidable (s : IdState) : (a : IdAction) → Decidable (CountBelowRange s a)
  | .alloc => inferInstanceAs (Decidable (s.obj.allocCount ≠ s.obj.range))
  | .free _ => isTrue trivial

/-- The free indices of a new object, and what the bits above them say. -/
structure CreatedRight (w range : ℕ) (obj : IdObj) : Prop where
  free : ∀ i < w ^ obj.numLevels, bit w obj.bitmaps obj.numLevels i = true ↔ i < range
  upper : ∀ level j, 1 ≤ level → level < obj.numLevels → j < w ^ level →
    (bit w obj.bitmaps level j = true ↔ obj.bitmaps (level + 1) j ≠ 0)

/-- `alloc_asid` where the machine has ASIDs; `id_alloc` returns a `long`. -/
def allocAsid (w : ℕ) (obj : IdObj) : Option (IdObj × ℕ) :=
  match idAlloc w obj with
  | (_, none) => none
  | (obj', some asid) => if asid = 0 ∨ 2 ^ (w - 1) ≤ asid then none else some (obj', asid)

def countedStep (w : ℕ) (s : IdState × ℕ) (a : IdAction) : Option (IdState × ℕ) :=
  (idStep w s.1 a).map fun s' => (s', s.2 + (s'.live.length - s.1.live.length))

structure ReportsExhaustion (w : ℕ) (s : IdState) : Prop where
  count : s.obj.allocCount = s.live.length
  full : s.live.length = s.obj.range → idAlloc w s.obj = (s.obj, none) ∧ allocAsid w s.obj = none

end Toddler
