import Toddler.Lib.Slab
import Toddler.Proofs.PallocOrder
import Toddler.Spec.Salloc

/-! The structure allocator. A bucket is on the partial list exactly while some but not all of its
blocks are free. -/

namespace Toddler

open Function List Option Nat

/-- The blocks of a bucket, two at least, lie in its pages. -/
structure SallocObj.Ok (obj : SallocObj) : Prop where
  count : 2 ≤ obj.bucketBlockCount
  blockSize : 0 < obj.blockSize
  fits : obj.blockStartOffset + obj.bucketBlockCount.toNat * obj.blockSize ≤
    obj.bucketPageCount * 4096

/-- The buckets and their blocks, with the free list `fl b` of each bucket. -/
structure SallocCore (s : SallocState) (fl : ℕ → List ℕ) : Prop where
  obj : s.mem.obj.Ok
  apart : s.buckets.Pairwise fun a b =>
    a + s.mem.obj.bucketPageCount * 4096 ≤ b ∨ b + s.mem.obj.bucketPageCount * 4096 ≤ a
  entry : ∀ b ∈ s.buckets, s.mem.entryCount b = s.mem.obj.bucketBlockCount
  chain : ∀ b ∈ s.buckets, Chain s.mem.blockNext (s.mem.block b) (fl b)
  avail : ∀ b ∈ s.buckets, s.mem.availCount b = (fl b).length
  flNodup : ∀ b ∈ s.buckets, (fl b).Nodup
  flMem : ∀ b ∈ s.buckets, ∀ x, x ∈ fl b ↔ x ∈ s.mem.obj.blocks b ∧
    x + sizeofSallocMagicBlock ∉ s.live
  back : ∀ b ∈ s.buckets, ∀ x ∈ s.mem.obj.blocks b, s.mem.blockBucket x = b
  liveNodup : s.live.Nodup
  liveMem : ∀ ptr ∈ s.live, ∃ b ∈ s.buckets, ∃ x ∈ s.mem.obj.blocks b,
    ptr = x + sizeofSallocMagicBlock
  numActiveObjs : s.mem.numActiveObjs = s.live.length
  numPallocPages : s.mem.numPallocPages = s.mem.obj.bucketPageCount * s.buckets.length

def PartialBucket (avail entry : ℕ → ℤ) (buckets : List ℕ) (b : ℕ) : Prop :=
  b ∈ buckets ∧ 0 < avail b ∧ avail b < entry b

structure SallocPartials (mem : Salloc) (buckets l : List ℕ) (but : ℕ → Prop) : Prop where
  list : DListOf mem.next mem.prev mem.partialNext l (PartialBucket mem.availCount mem.entryCount
    buckets) but
  count : mem.partialCount = l.length

variable {mem : Salloc}

theorem SallocPartials.head_and_count {buckets l : List ℕ} {but : ℕ → Prop} {b : ℕ}
    (h : SallocPartials mem buckets l but) (hb : b ∈ l) :
    (if mem.prev b = none then mem.next b else mem.partialNext) =
        (if mem.partialNext = some b then mem.next b else mem.partialNext) ∧
      mem.partialCount - 1 = (l.erase b).length := by
  have hpos := length_pos_of_mem hb
  have hcount := h.count
  rw [length_erase_of_mem hb]
  refine ⟨?_, by omega⟩
  simp only [h.list.dlist.prev_eq_none_iff hb]

structure SallocInv (s : SallocState) : Prop where
  core : ∃ fl, SallocCore s fl
  partials : ∃ l, SallocPartials s.mem s.buckets l fun _ => False
  returned : ∀ b ∈ s.buckets, s.mem.availCount b < s.mem.entryCount b

section Blocks

variable {obj : SallocObj} {b x : ℕ}

theorem SallocObj.Ok.mem_pages (h : obj.Ok) (hx : x ∈ obj.blocks b) :
    b ≤ x ∧ x < b + obj.bucketPageCount * 4096 := by
  obtain ⟨i, hi, rfl⟩ := mem_map.mp hx
  have hlt : i * obj.blockSize < obj.bucketBlockCount.toNat * obj.blockSize :=
    mul_lt_mul_of_pos_right (mem_range.mp hi) h.blockSize
  have := h.fits
  omega

theorem SallocObj.Ok.pages_pos (h : obj.Ok) : 0 < obj.bucketPageCount * 4096 := by
  have hcount := h.count
  have hpos : 0 < obj.bucketBlockCount.toNat * obj.blockSize := mul_pos (by omega) h.blockSize
  have := h.fits
  omega

theorem SallocObj.Ok.blocks_nodup (h : obj.Ok) (b : ℕ) : (obj.blocks b).Nodup := by
  refine nodup_range.map fun i j hij => ?_
  exact eq_of_mul_eq_mul_right h.blockSize (add_left_cancel hij)

theorem SallocObj.Ok.length_blocks (h : obj.Ok) (b : ℕ) :
    ((obj.blocks b).length : ℤ) = obj.bucketBlockCount := by
  have := h.count
  rw [SallocObj.blocks, length_map, length_range]
  omega

end Blocks

section Core

variable {s : SallocState} {fl : ℕ → List ℕ} {b c x : ℕ}

namespace SallocCore

section

variable (h : SallocCore s fl)
include h

theorem slab : Slab s.buckets s.mem.obj.blocks fl fun x => x + sizeofSallocMagicBlock ∈ s.live := by
  refine ⟨fun b hb c hc x hx hx' => ?_, h.flNodup, h.flMem, fun x hx => ?_⟩
  · rw [← h.back b hb x hx, h.back c hc x hx']
  · obtain ⟨b, hb, y, hy, he⟩ := h.liveMem _ hx
    obtain rfl := add_right_cancel he
    exact ⟨b, hb, hy⟩

theorem buckets_nodup : s.buckets.Nodup := by
  refine h.apart.imp fun {a b} hab he => ?_
  have hpos := h.obj.pages_pos
  omega

section

variable (hb : b ∈ s.buckets)
include hb

theorem blocks_of_fl (hx : x ∈ fl b) : x ∈ s.mem.obj.blocks b := ((h.flMem b hb x).mp hx).1

theorem pop {rest : List ℕ} (hfl : fl b = x :: rest) (hmem : mem = { s.mem with
      block := update s.mem.block b (s.mem.blockNext x)
      availCount := update s.mem.availCount b (s.mem.availCount b - 1)
      blockNext := update s.mem.blockNext x none
      blockBucket := update s.mem.blockBucket x b
      numActiveObjs := s.mem.numActiveObjs + 1 }) :
    SallocCore ⟨mem, s.buckets, (x + sizeofSallocMagicBlock) :: s.live⟩ (update fl b rest) := by
  subst hmem
  obtain ⟨hxb, hxlive⟩ := h.slab.mem_blocks_of_cons hb hfl
  have hslab : Slab s.buckets s.mem.obj.blocks (update fl b rest) fun y =>
      y + sizeofSallocMagicBlock ∈ (x + sizeofSallocMagicBlock) :: s.live :=
    h.slab.take hb hfl fun y => by rw [mem_cons, add_right_cancel_iff]
  have hnd := h.flNodup b hb
  rw [hfl, nodup_cons] at hnd
  refine ⟨h.obj, h.apart, h.entry, ?_, ?_, hslab.nodup, hslab.mem_free, ?_, ?_, ?_, ?_,
    h.numPallocPages⟩
  · intro c hc
    by_cases hcb : c = b
    · subst hcb
      have hch := h.chain c hc
      rw [hfl] at hch
      simp only [update_self]
      exact hch.2.update hnd.1
    · simp only [update_of_ne hcb]
      exact (h.chain c hc).update fun hx => hcb (h.slab.unique c hc b hb x (h.blocks_of_fl hc hx) hxb)
  · intro c hc
    by_cases hcb : c = b
    · subst hcb
      simp only [update_self]
      rw [h.avail c hc, hfl, length_cons]
      omega
    · simp only [update_of_ne hcb]
      exact h.avail c hc
  · intro c hc y hy
    by_cases hyx : y = x
    · simp only [hyx, update_self]
      exact h.slab.unique b hb c hc x hxb (hyx ▸ hy)
    · simp only [update_of_ne hyx]
      exact h.back c hc y hy
  · exact nodup_cons.mpr ⟨hxlive, h.liveNodup⟩
  · exact forall_mem_cons.mpr ⟨⟨b, hb, x, hxb, rfl⟩, h.liveMem⟩
  · simp only [h.numActiveObjs]
    rfl

theorem push (hx : x ∈ s.mem.obj.blocks b) (hlive : x + sizeofSallocMagicBlock ∈ s.live)
    (hmem : mem = { s.mem with
      blockNext := update s.mem.blockNext x (s.mem.block b)
      block := update s.mem.block b (some x)
      availCount := update s.mem.availCount b (s.mem.availCount b + 1)
      numActiveObjs := s.mem.numActiveObjs - 1 }) :
    SallocCore ⟨mem, s.buckets, s.live.erase (x + sizeofSallocMagicBlock)⟩ (update fl b (x :: fl b)) := by
  subst hmem
  have hxfl : x ∉ fl b := fun hfl => ((h.flMem b hb x).mp hfl).2 hlive
  have hslab : Slab s.buckets s.mem.obj.blocks (update fl b (x :: fl b)) fun y =>
      y + sizeofSallocMagicBlock ∈ s.live.erase (x + sizeofSallocMagicBlock) :=
    h.slab.put hb hx hlive fun y => by
      rw [h.liveNodup.mem_erase_iff, and_comm, ne_eq, add_right_cancel_iff]
  refine ⟨h.obj, h.apart, h.entry, ?_, ?_, hslab.nodup, hslab.mem_free, h.back,
    h.liveNodup.erase _, ?_, ?_, h.numPallocPages⟩
  · intro c hc
    by_cases hcb : c = b
    · subst hcb
      simp only [update_self]
      exact (h.chain c hc).push hxfl
    · simp only [update_of_ne hcb]
      exact (h.chain c hc).update fun hx' => hcb (h.slab.unique c hc b hb x (h.blocks_of_fl hc hx') hx)
  · intro c hc
    by_cases hcb : c = b
    · subst hcb
      simp only [update_self, h.avail c hc]
      rfl
    · simp only [update_of_ne hcb]
      exact h.avail c hc
  · intro ptr hptr
    exact h.liveMem ptr (mem_of_mem_erase hptr)
  · have hpos := length_pos_of_mem hlive
    simp only [h.numActiveObjs, length_erase_of_mem hlive]
    omega

theorem drop (hfree : ∀ x ∈ s.mem.obj.blocks b, x + sizeofSallocMagicBlock ∉ s.live)
    (hmem : mem = { s.mem with
      numPallocPages := s.mem.numPallocPages - s.mem.obj.bucketPageCount }) :
    SallocCore ⟨mem, s.buckets.erase b, s.live⟩ fl := by
  subst hmem
  have hsub : ∀ c ∈ s.buckets.erase b, c ∈ s.buckets := fun c hc => mem_of_mem_erase hc
  refine ⟨h.obj, h.apart.sublist erase_sublist, fun c hc => h.entry c (hsub c hc),
    fun c hc => h.chain c (hsub c hc), fun c hc => h.avail c (hsub c hc),
    fun c hc => h.flNodup c (hsub c hc),
    fun c hc => h.flMem c (hsub c hc), fun c hc => h.back c (hsub c hc), h.liveNodup, ?_,
    h.numActiveObjs, ?_⟩
  · intro ptr hptr
    obtain ⟨c, hc, x, hx, rfl⟩ := h.liveMem ptr hptr
    refine ⟨c, (mem_erase_of_ne ?_).mpr hc, x, hx, rfl⟩
    rintro rfl
    exact hfree x hx hptr
  · have hpos := length_pos_of_mem hb
    simp only [h.numPallocPages, length_erase_of_mem hb]
    rw [cast_sub hpos]
    ring

theorem none_live (hlen : ((fl b).length : ℤ) = s.mem.obj.bucketBlockCount) :
    ∀ x ∈ s.mem.obj.blocks b, x + sizeofSallocMagicBlock ∉ s.live := by
  have := h.obj.length_blocks b
  exact h.slab.none_used hb (by omega)

end

end

end SallocCore

end Core

section NewBucket

variable {mem : Salloc} {p : ℕ}

def SallocObj.blocksUpTo (obj : SallocObj) (bucket n : ℕ) : List ℕ :=
  (List.range n).map fun i => bucket + obj.blockStartOffset + i * obj.blockSize

/-- What the loop of `alloc_bucket` has done after `n` rounds. -/
structure BlocksInit (mem mem' : Salloc) (p n : ℕ) : Prop where
  eq : mem' =
    { mem with block := mem'.block, blockBucket := mem'.blockBucket, blockNext := mem'.blockNext }
  chain : Chain mem'.blockNext (mem'.block p) (mem.obj.blocksUpTo p n).reverse
  back : ∀ x ∈ mem.obj.blocksUpTo p n, mem'.blockBucket x = p
  block_of_ne : ∀ c ≠ p, mem'.block c = mem.block c
  of_not_mem : ∀ x ∉ mem.obj.blocksUpTo p n, mem'.blockNext x = mem.blockNext x ∧
    mem'.blockBucket x = mem.blockBucket x

theorem blocksInit_initBlocks (mem : Salloc) (hsize : 0 < mem.obj.blockSize)
    (hnone : mem.block p = none) (n : ℕ) : BlocksInit mem (mem.initBlocks p n) p n := by
  induction n with
  | zero => exact ⟨rfl, hnone, by simp [SallocObj.blocksUpTo], fun _ _ => rfl, fun _ _ => ⟨rfl, rfl⟩⟩
  | succ n ih =>
    obtain ⟨heq, hchain, hback, hblock, hother⟩ := ih
    have hobj : (mem.initBlocks p n).obj = mem.obj := by rw [heq]
    have hup : mem.obj.blocksUpTo p (n + 1) =
        mem.obj.blocksUpTo p n ++ [p + mem.obj.blockStartOffset + n * mem.obj.blockSize] := by
      simp [SallocObj.blocksUpTo, range_succ]
    have hnew : p + mem.obj.blockStartOffset + n * mem.obj.blockSize ∉ mem.obj.blocksUpTo p n := by
      intro hmem
      obtain ⟨i, hi, hin⟩ := mem_map.mp hmem
      have := eq_of_mul_eq_mul_right hsize (add_left_cancel hin)
      have := mem_range.mp hi
      omega
    simp only [Salloc.initBlocks, hobj]
    set x := p + mem.obj.blockStartOffset + n * mem.obj.blockSize with hx
    refine ⟨?_, ?_, ?_, ?_, ?_⟩
    · rw [heq]
    · rw [hup, reverse_append, reverse_singleton]
      simp only [update_self]
      exact hchain.push (by simpa using hnew)
    · intro y hy
      rw [hup, mem_append, mem_singleton] at hy
      by_cases hyx : y = x
      · simp [hyx]
      · simp only [update_of_ne hyx]
        exact hback y (hy.resolve_right hyx)
    · intro c hc
      simp only [update_of_ne hc]
      exact hblock c hc
    · intro y hy
      rw [hup, mem_append, mem_singleton, not_or] at hy
      simp only [update_of_ne hy.2]
      exact hother y hy.1

theorem blocksInit_allocBucket (hsize : 0 < mem.obj.blockSize) :
    BlocksInit (mem.initBucket p) (mem.allocBucket p) p mem.obj.bucketBlockCount.toNat :=
  blocksInit_initBlocks (mem.initBucket p) hsize (update_self ..) _

variable {s : SallocState} {fl : ℕ → List ℕ}

section

variable (h : SallocCore s fl) (hp : FreshPages s.mem.obj s.buckets p)
include h hp

theorem SallocCore.not_mem_of_fresh : p ∉ s.buckets := by
  intro hmem
  have hpos := h.obj.pages_pos
  rcases hp p hmem with hle | hle <;> omega

theorem SallocCore.blocks_fresh {b x : ℕ}
    (hb : b ∈ s.buckets) (hx : x ∈ s.mem.obj.blocks b) : x ∉ s.mem.obj.blocks p := by
  intro hxp
  have hpages := h.obj.mem_pages hx
  have hpages' := h.obj.mem_pages hxp
  rcases hp b hb with hle | hle <;> omega

/-- Fresh pages become a bucket whose blocks are all free. -/
theorem SallocCore.allocBucket :
    SallocCore ⟨s.mem.allocBucket p, p :: s.buckets,
    s.live⟩ (update fl p (s.mem.obj.blocks p).reverse) := by
  have hpnot := h.not_mem_of_fresh hp
  have hne : ∀ b ∈ s.buckets, b ≠ p := fun b hb he => hpnot (he ▸ hb)
  have hinit := blocksInit_allocBucket (p := p) h.obj.blockSize
  set mem := s.mem.allocBucket p
  have hobj : mem.obj = s.mem.obj := (congrArg Salloc.obj hinit.eq :)
  have hentry : mem.entryCount = update s.mem.entryCount p s.mem.obj.bucketBlockCount :=
    (congrArg Salloc.entryCount hinit.eq :)
  have havail : mem.availCount = update s.mem.availCount p s.mem.obj.bucketBlockCount :=
    (congrArg Salloc.availCount hinit.eq :)
  have hblock : ∀ b ∈ s.buckets, mem.block b = s.mem.block b := fun b hb =>
    (hinit.block_of_ne b (hne b hb)).trans (update_of_ne (hne b hb) ..)
  have hslab := h.slab.grow hpnot (fun b hb x =>
    h.blocks_fresh hp hb) (nodup_reverse.mpr (h.obj.blocks_nodup p))
    fun x => mem_reverse
  refine ⟨hobj ▸ h.obj, ?_, ?_, ?_, ?_, hslab.nodup, hobj ▸ hslab.mem_free, ?_, h.liveNodup,
    ?_, ?_, ?_⟩
  · rw [hobj, pairwise_cons]
    exact ⟨fun b hb => (hp b hb).symm, h.apart⟩
  · rw [hentry, hobj]
    refine forall_mem_cons.mpr ⟨update_self .., fun b hb => ?_⟩
    rw [update_of_ne (hne b hb)]
    exact h.entry b hb
  · refine forall_mem_cons.mpr ⟨?_, fun b hb => ?_⟩
    · rw [update_self]
      exact hinit.chain
    · rw [update_of_ne (hne b hb), hblock b hb]
      refine (h.chain b hb).congr fun x hx => ?_
      exact (hinit.of_not_mem x (h.blocks_fresh hp hb (h.blocks_of_fl hb hx))).1
  · rw [havail]
    refine forall_mem_cons.mpr ⟨?_, fun b hb => ?_⟩
    · rw [update_self, update_self, length_reverse, h.obj.length_blocks]
    · rw [update_of_ne (hne b hb), update_of_ne (hne b hb)]
      exact h.avail b hb
  · rw [hobj]
    refine forall_mem_cons.mpr ⟨hinit.back, fun b hb x hx => ?_⟩
    rw [(hinit.of_not_mem x (h.blocks_fresh hp hb hx)).2]
    exact h.back b hb x hx
  · intro ptr hptr
    obtain ⟨b, hb, hx⟩ := h.liveMem ptr hptr
    exact ⟨b, mem_cons_of_mem p hb, hobj ▸ hx⟩
  · exact (congrArg Salloc.numActiveObjs hinit.eq).trans h.numActiveObjs
  · have hpages : mem.numPallocPages = s.mem.numPallocPages + s.mem.obj.bucketPageCount :=
      (congrArg Salloc.numPallocPages hinit.eq :)
    rw [hpages, hobj, h.numPallocPages, length_cons]
    push_cast
    ring

end

end NewBucket

section Calls

variable {s : SallocState} {fl : ℕ → List ℕ} {l : List ℕ} {b x : ℕ}

theorem SallocCore.relist {buckets live : List ℕ} (h : SallocCore ⟨mem, buckets, live⟩ fl)
    (next prev : ℕ → Option ℕ) (state : ℕ → SallocBucketState) (partialNext : Option ℕ)
    (partialCount : ℤ) :
    SallocCore ⟨{ mem with next, prev, state, partialNext, partialCount }, buckets, live⟩ fl :=
  ⟨h.obj, h.apart, h.entry, h.chain, h.avail, h.flNodup, h.flMem, h.back, h.liveNodup, h.liveMem,
    h.numActiveObjs, h.numPallocPages⟩

variable {but : ℕ → Prop} (h : SallocCore s fl)
  (hp : SallocPartials s.mem s.buckets l but)
include h hp

/-- A block is taken from a bucket that is partial, or completely free and on no list. -/
theorem SallocCore.takeBlock {rest : List ℕ} (hbut : ∀ c, but c → c = b) (hb : b ∈ s.buckets)
    (hfl : fl b = x :: rest) (hle : s.mem.availCount b ≤ s.mem.entryCount b)
    (hl : b ∈ l ↔ s.mem.availCount b < s.mem.entryCount b)
    (hret : ∀ c ∈ s.buckets, c ≠ b → s.mem.availCount c < s.mem.entryCount c) :
    ∃ mem, s.mem.takeBlock b = some (mem, x + sizeofSallocMagicBlock) ∧
      SallocInv ⟨mem, s.buckets, (x + sizeofSallocMagicBlock) :: s.live⟩ := by
  have hcore := h.pop hb hfl rfl
  have hblock : s.mem.block b = some x := by
    have := h.chain b hb
    rw [hfl] at this
    exact this.1
  have havail := h.avail b hb
  have hentry := h.entry b hb
  have hcount := h.obj.count
  rw [hfl, length_cons] at havail
  set avail := update s.mem.availCount b (s.mem.availCount b - 1) with havail'
  have hself : avail b = s.mem.availCount b - 1 := update_self ..
  have hother : ∀ c ≠ b, avail c = s.mem.availCount c := fun c hc => update_of_ne hc ..
  have hret' : ∀ c ∈ s.buckets, avail c < s.mem.entryCount c := by
    intro c hc
    by_cases hcb : c = b
    · rw [hcb]
      omega
    · rw [hother c hcb]
      exact hret c hc hcb
  have hp' := hp.list.except hbut fun c hc =>
    show PartialBucket avail s.mem.entryCount s.buckets c ↔ _ by
    rw [PartialBucket, hother c hc, PartialBucket]
  simp only [Salloc.takeBlock, hblock, ← havail']
  split_ifs with hzero hfull
  · have hbl : b ∈ l := hl.mpr (by omega)
    have hlist := hp'.remove hbl fun hb => hb.2.1.ne' hzero
    obtain ⟨hhead, hlen⟩ := hp.head_and_count hbl
    rw [← hhead] at hlist
    exact ⟨_, rfl, ⟨_, hcore.relist _ _ _ _ _⟩, ⟨_, hlist, hlen⟩, hret'⟩
  · have hbl : b ∉ l := mt hl.mp (by omega)
    refine ⟨_, rfl, ⟨_, hcore.relist _ _ _ _ _⟩, ⟨_, hp'.insert hbl ⟨hb, by omega, by omega⟩, ?_⟩, hret'⟩
    simp only [hp.count]
    rfl
  · have hbl : b ∈ l := hl.mpr (by omega)
    exact ⟨_, rfl, ⟨_, hcore⟩, ⟨_, hp'.keep (iff_of_true hbl ⟨hb, by omega, by omega⟩), hp.count⟩, hret'⟩

/-- A live block of a bucket is freed. -/
theorem SallocCore.sfree (hbut : ∀ c, ¬ but c) (hb : b ∈ s.buckets) (hx : x ∈ s.mem.obj.blocks b)
    (hlive : x + sizeofSallocMagicBlock ∈ s.live)
    (hret : ∀ c ∈ s.buckets, s.mem.availCount c < s.mem.entryCount c) :
    ∃ s', sallocStep s (.sfree (x + sizeofSallocMagicBlock)) = some s' ∧ SallocInv s' := by
  have hcore := h.push hb hx hlive rfl
  have hback := h.back b hb x hx
  have havail := h.avail b hb
  have hentry := h.entry b hb
  have hcount := h.obj.count
  have hretb := hret b hb
  have hbl := hp.list.mem_iff b (hbut b)
  set avail := update s.mem.availCount b (s.mem.availCount b + 1) with havail'
  have hself : avail b = s.mem.availCount b + 1 := update_self ..
  have hother : ∀ c ≠ b, avail c = s.mem.availCount c := fun c hc => update_of_ne hc ..
  have hp' := hp.list.except (fun c hc => absurd hc (hbut c)) fun c hc =>
    show PartialBucket avail s.mem.entryCount s.buckets c ↔
      _ by rw [PartialBucket, hother c hc, PartialBucket]
  have hret' : ∀ c ∈ s.buckets, (c = b → avail b < s.mem.entryCount b) →
      avail c < s.mem.entryCount c := by
    intro c hc hcb'
    by_cases hcb : c = b
    · rw [hcb]
      exact hcb' hcb
    · rw [hother c hcb]
      exact hret c hc
  simp only [sallocStep, if_pos hlive, Salloc.sfree, Nat.add_sub_cancel, hback, ← havail', hself]
  by_cases hfull : s.mem.availCount b + 1 = s.mem.entryCount b
  · -- the last live object of the bucket: the bucket is given back
    have hlen : ((update fl b (x :: fl b) b).length : ℤ) = s.mem.obj.bucketBlockCount := by
      rw [update_self, length_cons]
      omega
    have hmem : b ∈ l := hbl.mpr ⟨hb, by omega, hretb⟩
    have herase : ∀ c, c ∈ s.buckets.erase b ↔ c ≠ b ∧ c ∈ s.buckets :=
      fun c => h.buckets_nodup.mem_erase_iff
    have hlist := (hp'.except (fun _ => id) fun c hc => show PartialBucket avail s.mem.entryCount
      (s.buckets.erase b) c ↔ _ by simp [PartialBucket, hc]).remove hmem fun hb =>
      ((herase b).mp hb.1).1 rfl
    obtain ⟨hhead, hlen'⟩ := hp.head_and_count hmem
    rw [← hhead] at hlist
    simp only [if_pos hfull, mem_def, Option.some.injEq, forall_eq', if_pos hb]
    refine ⟨_, rfl, ⟨_, (hcore.drop hb (hcore.none_live hb hlen) rfl).relist _ _ _ _ _⟩,
      ⟨_, hlist, hlen'⟩, fun c hc => hret' c ((herase c).mp hc).2 fun hcb => ?_⟩
    exact absurd hcb ((herase c).mp hc).1
  · by_cases hone : s.mem.availCount b + 1 = 1
    · have hmem : b ∉ l := fun hm => by
        have := (hbl.mp hm).2
        omega
      simp only [if_neg hfull, if_pos hone]
      refine ⟨_, rfl, ⟨_, hcore.relist _ _ _ _ _⟩,
        ⟨_, hp'.insert hmem ⟨hb, by omega, by omega⟩, ?_⟩, fun c hc => hret' c hc fun _ => by omega⟩
      simp only [hp.count]
      rfl
    · have hmem : b ∈ l := hbl.mpr ⟨hb, by omega, hretb⟩
      simp only [if_neg hfull, if_neg hone]
      exact ⟨_, rfl, ⟨_, hcore⟩, ⟨_, hp'.keep (iff_of_true hmem ⟨hb, by omega, by omega⟩),
        hp.count⟩, fun c hc => hret' c hc fun _ => by omega⟩

end Calls

namespace SallocInv

variable {s : SallocState}

section

variable (h : SallocInv s)
include h

theorem sfree {ptr : ℕ} (hptr : ptr ∈ s.live) :
    ∃ s', sallocStep s (.sfree ptr) = some s' ∧ SallocInv s' := by
  obtain ⟨⟨fl, hcore⟩, ⟨l, hp⟩, hret⟩ := h
  obtain ⟨b, hb, x, hx, rfl⟩ := hcore.liveMem ptr hptr
  exact hcore.sfree hp (fun _ => id) hb hx hptr hret

theorem salloc_new (hzero : s.mem.partialCount = 0) {p : ℕ}
    (hfresh : FreshPages s.mem.obj s.buckets p) :
    ∃ mem x, s.mem.salloc (some p) = some (mem, some x) ∧ SallocInv ⟨mem, p :: s.buckets,
    x :: s.live⟩ := by
  obtain ⟨⟨fl, hcore⟩, ⟨l, hp⟩, hret⟩ := h
  obtain rfl : l = [] := eq_nil_of_length_eq_zero (by have := hp.count; omega)
  have hinit := blocksInit_allocBucket (p := p) hcore.obj.blockSize
  have hentry : (s.mem.allocBucket p).entryCount = update s.mem.entryCount p s.mem.obj.bucketBlockCount :=
    (congrArg Salloc.entryCount hinit.eq :)
  have havail : (s.mem.allocBucket p).availCount = update s.mem.availCount p s.mem.obj.bucketBlockCount :=
    (congrArg Salloc.availCount hinit.eq :)
  have hhead : (s.mem.allocBucket p).partialNext = none :=
    (congrArg Salloc.partialNext hinit.eq :).trans hp.list.dlist.fwd
  have hcount : (s.mem.allocBucket p).partialCount = 0 :=
    (congrArg Salloc.partialCount hinit.eq :).trans hzero
  obtain ⟨x, rest, hblocks⟩ : ∃ x rest, (s.mem.obj.blocks p).reverse = x :: rest := by
    refine exists_cons_of_length_pos ?_
    have := hcore.obj.length_blocks p
    have := hcore.obj.count
    rw [length_reverse]
    omega
  have hother : ∀ c ∈ p :: s.buckets, c ≠ p → c ∈ s.buckets := fun c hc hne =>
    (mem_cons.mp hc).resolve_left hne
  have hp' : SallocPartials (s.mem.allocBucket p) (p :: s.buckets) [] (· = p) := by
    refine ⟨⟨?_, fun c hc => ?_⟩, hcount⟩
    · rw [hhead]
      exact dlist_nil
    · rw [hp.list.mem_iff c id, hentry, havail, PartialBucket, PartialBucket, update_of_ne hc,
        update_of_ne hc]
      exact and_congr_left fun _ => ⟨mem_cons_of_mem p, fun hmem => hother c hmem hc⟩
  obtain ⟨mem, htake, hinv⟩ := (hcore.allocBucket hfresh).takeBlock hp' (fun _ =>
    id) (mem_cons_self ..)
    (by rw [update_self]; exact hblocks)
    (by simp [havail, hentry]) (by simp [havail, hentry])
    (fun c hc hne => by
      simp only [havail, hentry, update_of_ne hne]
      exact hret c (hother c hc hne))
  refine ⟨mem, _, ?_, hinv⟩
  simp [Salloc.salloc, Salloc.findBucket, if_pos hzero, htake]

theorem salloc_old (hne : s.mem.partialCount ≠ 0) (page : Option ℕ) :
    ∃ mem x, s.mem.salloc page = some (mem, some x) ∧ SallocInv ⟨mem, s.buckets, x :: s.live⟩ := by
  obtain ⟨⟨fl, hcore⟩, ⟨l, hp⟩, hret⟩ := h
  obtain ⟨b, l, rfl⟩ : ∃ b l', l = b :: l' := by
    refine exists_cons_of_length_pos ?_
    have := hp.count
    omega
  obtain ⟨hb, hpos, hlt⟩ := (hp.list.mem_iff b id).mp (mem_cons_self ..)
  obtain ⟨x, rest, hfl⟩ : ∃ x rest, fl b = x :: rest := by
    refine exists_cons_of_length_pos ?_
    have := hcore.avail b hb
    omega
  obtain ⟨mem, htake, hinv⟩ := hcore.takeBlock hp (fun _ => False.elim) hb hfl
    hlt.le (iff_of_true (mem_cons_self ..) hlt) fun c hc _ => hret c hc
  refine ⟨mem, _, ?_, hinv⟩
  simp [Salloc.salloc, Salloc.findBucket, if_neg hne, hp.list.dlist.fwd.1, htake]

theorem salloc {page : Option ℕ}
    (hfresh : s.mem.partialCount = 0 → ∀ p ∈ page, FreshPages s.mem.obj s.buckets p) :
    ∃ s', sallocStep s (.salloc page) = some s' ∧ SallocInv s' := by
  by_cases hzero : s.mem.partialCount = 0
  · cases page with
    | none =>
      refine ⟨s, ?_, h⟩
      simp [sallocStep, Salloc.salloc, Salloc.findBucket, hzero]
    | some p =>
      have hp := hfresh hzero p rfl
      obtain ⟨mem, x, hs, hinv⟩ := h.salloc_new hzero hp
      refine ⟨_, ?_, hinv⟩
      simp [sallocStep, hzero, hp, hs]
  · obtain ⟨mem, x, hs, hinv⟩ := h.salloc_old hzero page
    refine ⟨_, ?_, hinv⟩
    simp [sallocStep, hzero, hs]

theorem step {a : SallocAction} {s' : SallocState} (hs : sallocStep s a = some s') :
    SallocInv s' := by
  cases a with
  | salloc page =>
    have hfresh : s.mem.partialCount = 0 → ∀ p ∈ page, FreshPages s.mem.obj s.buckets p := by
      intro hzero p hp
      by_contra hnot
      have hcond : ¬ ∀ q ∈ page.toList, FreshPages s.mem.obj s.buckets q := fun hall =>
        hnot (hall p (mem_toList.mpr hp))
      simp only [sallocStep, if_pos hzero, if_neg hcond] at hs
      cases hs
    obtain ⟨t, ht, hinv⟩ := h.salloc hfresh
    obtain rfl := Option.some.inj (hs.symm.trans ht)
    exact hinv
  | sfree ptr =>
    have hptr : ptr ∈ s.live := by
      by_contra hnot
      simp [sallocStep, hnot] at hs
    obtain ⟨t, ht, hinv⟩ := h.sfree hptr
    obtain rfl := Option.some.inj (hs.symm.trans ht)
    exact hinv

theorem ok : SallocOk s := by
  obtain ⟨⟨fl, hcore⟩, ⟨l, hp⟩, hret⟩ := h
  refine ⟨hcore.liveNodup, hcore.liveMem,
    ⟨l, hp.list.dlist, hp.count, fun b => hp.list.mem_iff b id⟩, ?_, hret,
    hcore.buckets_nodup, ?_, ?_, hcore.numActiveObjs, hcore.numPallocPages⟩
  · intro b hb
    refine ⟨fl b, hcore.chain b hb, hcore.avail b hb, ?_⟩
    have hdisj : (fl b).Disjoint ((s.mem.obj.blocks b).filter fun x =>
      x + sizeofSallocMagicBlock ∈ s.live) := by
      intro x hx hx'
      exact ((hcore.flMem b hb x).mp hx).2 (of_decide_eq_true (mem_filter.mp hx').2)
    refine (perm_ext_iff_of_nodup ((hcore.flNodup b hb).append ((hcore.obj.blocks_nodup b).filter _)
      hdisj) (hcore.obj.blocks_nodup b)).mpr fun x => ?_
    rw [mem_append, hcore.flMem b hb x, mem_filter, decide_eq_true_iff, ← and_or_left]
    exact and_iff_left (Classical.em _).symm
  · intro page hfresh
    obtain ⟨s', hs, -⟩ := SallocInv.salloc ⟨⟨fl, hcore⟩, ⟨l, hp⟩, hret⟩ fun _ => hfresh
    exact ⟨s', hs⟩
  · intro ptr hptr
    obtain ⟨s', hs, -⟩ := SallocInv.sfree ⟨⟨fl, hcore⟩, ⟨l, hp⟩, hret⟩ hptr
    exact ⟨s', hs⟩

end

theorem init {obj : SallocObj} (hobj : obj.Ok) (h : SallocInit obj s) : SallocInv s := by
  have hb := h.buckets
  have hl := h.live
  refine ⟨⟨fun _ => [], ⟨h.obj ▸ hobj, ?_, ?_, ?_, ?_, ?_, ?_, ?_, ?_, ?_, ?_, ?_⟩⟩,
    ⟨[], ⟨?_, ?_⟩, ?_⟩, ?_⟩
  all_goals simp [hb, hl, h.partialNext, h.partialCount, h.numActiveObjs, h.numPallocPages,
    dlist_nil, PartialBucket]

end SallocInv

section Create

variable {w : ℕ} {beyond : ℕ → BitVec 32} {bucket magic size align A B : BitVec w}
  {count : BitVec 32} {obj : SallocObj} {n : ℕ}

theorem toNat_signExtend_of_toInt {v : BitVec 32} (hw : 32 ≤ w) (h : v.toInt = n) :
    (v.signExtend w).toNat = n := by
  have hmsb : v.msb = false := by
    rw [BitVec.msb_eq_toInt, h]
    simp
  rw [BitVec.signExtend_eq_setWidth_of_msb_false hmsb, BitVec.toNat_setWidth,
    Nat.mod_eq_of_lt (v.isLt.trans_le (Nat.pow_le_pow_right (by norm_num) hw))]
  rw [BitVec.toInt_eq_toNat_of_msb hmsb] at h
  exact_mod_cast h

theorem toNat_pageSize (hw : 32 ≤ w) : (4096 : BitVec w).toNat = 4096 :=
  Nat.mod_eq_of_lt (lt_of_lt_of_le (by norm_num) (Nat.pow_le_pow_right (by norm_num) hw))

/-- The order of the pages that hold a number of bytes, with a division that rounds up. -/
theorem calcPallocOrder_bytes (hw : 32 ≤ w) {total : BitVec w} (hpos : 0 < total.toNat)
    (hlt : total.toNat < 2 ^ 32) {k : ℕ} (hk : calcPallocOrder ((total / 4096 + if total % 4096 = 0
    then 0 else 1).setWidth 32) = some k) :
    k ≤ pallocMaxOrder ∧ total.toNat ≤ 2 ^ k * 4096 := by
  have hsize := toNat_pageSize hw
  have hzero : total % 4096 = 0 ↔ total.toNat % 4096 = 0 := by
    rw [← BitVec.toNat_inj, BitVec.toNat_umod, hsize]
    rfl
  have hpages : (total / 4096 + if total % 4096 = 0 then 0 else 1).toNat =
      (total.toNat + 4095) / 4096 := by
    rw [BitVec.toNat_add, BitVec.toNat_udiv, hsize]
    split_ifs with h
    · rw [hzero] at h
      change (_ + 0) % _ = _
      rw [Nat.mod_eq_of_lt (by omega)]
      omega
    · rw [hzero] at h
      rw [show (1 : BitVec w).toNat = 1 from Nat.mod_eq_of_lt (a := 1) (by omega),
        Nat.mod_eq_of_lt (by omega)]
      omega
  rw [← BitVec.ofNat_toNat, hpages, calcPallocOrder_eq (by omega) (by omega)] at hk
  split_ifs at hk with hmax
  cases hk
  have hle := le_pow_clog one_lt_two ((total.toNat + 4095) / 4096)
  exact ⟨hmax, by omega⟩

theorem sallocCreate_spec (hw : 32 ≤ w)
    (h : sallocCreate beyond bucket magic size align count = some obj)
    (hB : alignUpUlongAny beyond (size + magic) (sallocAlign align) = some B)
    (hA : alignUpUlongAny beyond (bucket + magic) (sallocAlign align) = some A)
    (hmagic : magic ≤ A) (hBpos : 0 < B.toNat) (hn : (sallocCount count).toInt = n) (hnpos : 0 < n)
    (hfit : A.toNat - magic.toNat + B.toNat * n < 2 ^ 32) :
    ∃ k ≤ pallocMaxOrder, ∃ q : ℕ, obj = ⟨size.toNat, B.toNat, (sallocAlign align).toNat,
      A.toNat - magic.toNat, 2 ^ k, q⟩ ∧ n ≤ q ∧ A.toNat - magic.toNat + q * B.toNat ≤ 2 ^ k * 4096 := by
  have hword : 2 ^ 32 ≤ 2 ^ w := Nat.pow_le_pow_right (by norm_num) hw
  have hcount := toNat_signExtend_of_toInt hw hn
  have hstart := BitVec.toNat_sub_of_le hmagic
  simp only [sallocCreate, hB, hA, bind_eq_bind, bind_some] at h
  generalize (sallocCount count).signExtend w = c at *
  subst hcount
  rw [← hstart] at hfit ⊢
  generalize A - magic = start at *
  have hmul := Nat.mul_pos hBpos hnpos
  have htotal : (start + B * c).toNat = start.toNat + B.toNat * c.toNat := by
    rw [BitVec.toNat_add, BitVec.toNat_mul, Nat.mod_eq_of_lt (show B.toNat * c.toNat < 2 ^ w by omega),
      Nat.mod_eq_of_lt (hfit.trans_le hword)]
  obtain ⟨k, hk, h⟩ := bind_eq_some_iff.mp h
  obtain ⟨hmax, hle⟩ := calcPallocOrder_bytes hw (by omega) (by omega) hk
  have hk15 : 2 ^ k ≤ 2 ^ 15 := Nat.pow_le_pow_right (by norm_num) hmax
  have hbytes : (BitVec.twoPow w k * 4096 - start).toNat = 2 ^ k * 4096 - start.toNat := by
    have hprod : (BitVec.twoPow w k * 4096).toNat = 2 ^ k * 4096 := by
      rw [BitVec.toNat_mul, BitVec.toNat_twoPow, Nat.mod_eq_of_lt (show 2 ^ k < 2 ^ w by omega),
        toNat_pageSize hw, Nat.mod_eq_of_lt (by omega)]
    rw [BitVec.toNat_sub_of_le (by rw [BitVec.le_def]; omega), hprod]
  have hB0 : B ≠ 0 := by
    rintro rfl
    exact hBpos.ne rfl
  obtain ⟨q, r, hdiv, -, hq⟩ := divU_spec beyond (BitVec.twoPow w k * 4096 - start) hB0
  rw [hbytes] at hq
  rw [hdiv, bind_some, Option.some.injEq] at h
  subst h
  have hlt : (2 ^ k * 4096 - start.toNat) / B.toNat < 2 ^ 31 :=
    (Nat.div_le_self ..).trans_lt (by omega)
  have hq := hq (by omega)
  have hint : (q.setWidth 32).toInt = q.toNat := by
    rw [BitVec.toInt_eq_toNat_cond, BitVec.toNat_setWidth, Nat.mod_eq_of_lt (by omega), if_pos (by omega)]
  refine ⟨k, hmax, q.toNat, by rw [hint], ?_, ?_⟩
  · rw [hq]
    exact (Nat.le_div_iff_mul_le hBpos).mpr (by rw [Nat.mul_comm]; omega)
  · have := Nat.div_mul_le_self (2 ^ k * 4096 - start.toNat) B.toNat
    rw [hq]
    omega

theorem sallocAlign_ne_zero (hw : 32 ≤ w) (align : BitVec w) : sallocAlign align ≠ 0 := by
  unfold sallocAlign
  split_ifs with h0
  · intro h8
    have := congrArg BitVec.toNat h8
    have hword : 2 ^ 32 ≤ 2 ^ w := Nat.pow_le_pow_right (by norm_num) hw
    rw [show (8 : BitVec w).toNat = 8 from Nat.mod_eq_of_lt (a := 8) (by omega)] at this
    cases this
  · exact h0

theorem sallocCreate_ok {size align : BitVec 64} (hfits : BucketFits size align)
    (h : sallocCreate beyond 48 16 size align 0 = some obj) : obj.Ok := by
  obtain ⟨hheader, hblock, hfit⟩ := hfits
  have hmax : 2 ^ pallocMaxOrder * 4096 = 2 ^ 27 := rfl
  have h0 := sallocAlign_ne_zero (by norm_num) align
  have hsize : (size + 16).toNat = size.toNat + 16 := by
    exact Nat.mod_eq_of_lt (show size.toNat + 16 < 2 ^ 64 by omega)
  obtain ⟨k, hk, q, rfl, hcount, hpages⟩ := sallocCreate_spec (n := 32) (by norm_num) h
    (alignUpUlongAny_of_dvd h0 (by rwa [hsize])) (alignUpUlongAny_of_dvd h0 hheader) (by decide)
    (by omega) rfl
    (by norm_num) (by rw [hsize]; exact lt_of_le_of_lt hfit (by norm_num [hmax]))
  refine ⟨?_, ?_, ?_⟩
  · simp only
    omega
  · simp only
    omega
  · simpa using hpages

end Create

/-- An allocator whose buckets fit the page allocator keeps its lists and counts right. -/
theorem salloc_consistent {beyond : ℕ → BitVec 32} {size align : BitVec 64} {obj : SallocObj}
    {s₀ s : SallocState} (hfits : BucketFits size align) (hcreate : sallocCreate beyond 48 16 size
    align 0 = some obj)
    (hinit : SallocInit obj s₀) (hreach : Reach sallocStep anyStep s₀ s) : SallocOk s :=
  (hreach.invariant (SallocInv.init (sallocCreate_ok hfits hcreate) hinit) fun _ _ _ hu _ hs =>
    hu.step hs).ok

def newSalloc (obj : SallocObj) : SallocState :=
  ⟨⟨obj, none, 0, 0, 0, fun _ => none, fun _ => none, fun _ => .bucketEmpty, fun _ => 0, fun _ => 0,
    fun _ => none, fun _ => 0, fun _ => none⟩, [], []⟩

theorem sallocInit_newSalloc (obj : SallocObj) : SallocInit obj (newSalloc obj) :=
  ⟨rfl, rfl, rfl, rfl, rfl, rfl, rfl⟩

theorem salloc_consistent_two_objects :
    ∃ obj s, sallocCreate (fun _ => 0) 48#64 16 24 0 0 = some obj ∧
    Reach sallocStep anyStep (newSalloc obj) s ∧ s.live.length = 1 ∧ s.buckets = [4096] ∧
    SallocOk s := by
  have hfits : BucketFits 24 0 := by decide +kernel
  have hrun : (sallocCreate (fun _ => 0) 48#64 16 24 0 0).any fun obj =>
      (execute sallocStep anyStep (newSalloc obj) [.salloc (some 4096), .salloc none,
        .sfree 8120]).any fun s =>
        s.live.length = 1 ∧ s.buckets = [4096] := by decide +kernel
  obtain ⟨obj, hobj, hs⟩ := (Option.any_eq_true ..).mp hrun
  obtain ⟨s, hs, hlive, hbuckets⟩ := exists_reach _ hs
  exact ⟨obj, s, hobj, hs, hlive, hbuckets,
    salloc_consistent hfits hobj (sallocInit_newSalloc obj) hs⟩

/-- The sizes of `salloc_create` wrap for an object of `2 ^ 59` bytes, and the bucket gets no block.
The first `salloc` reads through a null pointer. -/
theorem salloc_no_block_faults : ∃ obj, sallocCreate (fun _ => 0) 48#64 16 0x800000000000000 0 0 =
    some obj ∧ SallocInit obj (newSalloc obj) ∧ ¬ SallocOk (newSalloc obj) := by
  have hrun : (sallocCreate (fun _ => 0) 48#64 16 0x800000000000000 0 0).any fun obj =>
      (sallocStep (newSalloc obj) (.salloc (some 4096))).isNone := by decide +kernel
  obtain ⟨obj, hobj, hnone⟩ := (Option.any_eq_true ..).mp hrun
  refine ⟨obj, hobj, sallocInit_newSalloc obj, fun hok => ?_⟩
  obtain ⟨s', hs'⟩ := hok.salloc (some 4096) fun p _ b hb => absurd hb not_mem_nil
  rw [hs'] at hnone
  cases hnone

end Toddler
