import Toddler.Spec.Malloc
import Toddler.Lib.Slab
import Toddler.Lib.SpanList

/-! The user heap. The chunk lists stay right as long as no block of a full chunk is freed. -/

namespace Toddler.Malloc

open Function List Nat Heap Prod

def blocksOf (i c : ℕ) : List ℕ := (List.range (numBlocksPerChunk i)).map fun j =>
    c + sizeofChunk + j * blockSize i

/-- The chunks and their blocks, with the free blocks of each chunk. -/
structure HeapCore (s : HeapState) (free : ℕ → List ℕ) : Prop where
  bounds : ∀ c ∈ s.heap.chunks, c + chunkSize ≤ word
  apart : s.heap.chunks.Pairwise fun c d => c + chunkSize ≤ d ∨ d + chunkSize ≤ c
  bucket : ∀ c ∈ s.heap.chunks, s.heap.bucket c < buckets.length
  slab : Slab s.heap.chunks (fun c => blocksOf (s.heap.bucket c) c) free fun x =>
    x + sizeofMagic ∈ s.live.map fst
  list : ∀ c ∈ s.heap.chunks,
    SpanList s.heap.first s.heap.span (blockSize (s.heap.bucket c)) (s.heap.block c) (free c)
  avail : ∀ c ∈ s.heap.chunks, s.heap.numAvailBlocks c = (free c).length
  inuse : ∀ c ∈ s.heap.chunks, s.heap.numInuseBlocks c + (free c).length =
    numBlocksPerChunk (s.heap.bucket c)
  back : ∀ c ∈ s.heap.chunks, ∀ x ∈ blocksOf (s.heap.bucket c) c, x + sizeofMagic ∈ s.live.map fst →
    s.heap.first x = some c
  liveNodup : (s.live.map fst).Nodup
  room : ∀ p ∈ s.live, ∃ c ∈ s.heap.chunks, ∃ x ∈ blocksOf (s.heap.bucket c) c,
    p.1 = x + sizeofMagic ∧ p.2 + sizeofMagic ≤ blockSize (s.heap.bucket c)

def Active (h : Heap) (i c : ℕ) : Prop := c ∈ h.chunks ∧ h.bucket c = i ∧ 0 < h.numAvailBlocks c

/-- The chunk lists; that of the bucket `i` may be wrong about the chunks `but i`. -/
structure HeapLists (h : Heap) (l : ℕ → List ℕ) (but : ℕ → ℕ → Prop) : Prop where
  list : ∀ i < buckets.length, DListOf h.next h.prev (h.head i) (l i) (Active h i) (but i)
  count : ∀ i < buckets.length, h.numActiveChunks i = (l i).length

structure HeapInv (s : HeapState) : Prop where
  core : ∃ free, HeapCore s free
  lists : ∃ l, HeapLists s.heap l fun _ _ => False

theorem bucket_sizes : ∀ i < buckets.length, 0 < numBlocksPerChunk i ∧ sizeofMagic < blockSize i ∧
    sizeofChunk + numBlocksPerChunk i * blockSize i ≤ chunkSize ∧ numBlocksPerChunk i < word := by
  decide +kernel

theorem sizeofMagic_le_half : ∀ i < buckets.length, sizeofMagic ≤ blockSize i / 2 := by
  decide +kernel

theorem findBucket_spec {size i : ℕ} (h : findBucket size = some i) :
    i < buckets.length ∧ size ≤ blockSize i := by
  obtain ⟨hi, hle, -⟩ := findIdx?_eq_some_iff_getElem.mp h
  refine ⟨hi, ?_⟩
  rw [blockSize, getD_eq_getElem?_getD, getElem?_eq_getElem hi]
  exact of_decide_eq_true hle

section Blocks

variable {i c d x y : ℕ}

theorem mem_blocksOf (hi : i < buckets.length) (hx : x ∈ blocksOf i c) :
    c + sizeofChunk ≤ x ∧ x + blockSize i ≤ c + chunkSize := by
  obtain ⟨j, hj, rfl⟩ := mem_map.mp hx
  have hsizes := (bucket_sizes i hi).2.2.1
  have hle := mul_le_mul_right (blockSize i) (succ_le_of_lt (mem_range.mp hj))
  rw [succ_mul] at hle
  omega

theorem blocksOf_apart (hx : x ∈ blocksOf i c) (hy : y ∈ blocksOf i c) (hne : x ≠ y) :
    x + blockSize i ≤ y ∨ y + blockSize i ≤ x := by
  obtain ⟨j, hj, rfl⟩ := mem_map.mp hx
  obtain ⟨k, hk, rfl⟩ := mem_map.mp hy
  rcases lt_trichotomy j k with hlt | rfl | hlt
  · have := mul_le_mul_right (blockSize i) (succ_le_of_lt hlt)
    rw [succ_mul] at this
    omega
  · exact absurd rfl hne
  · have := mul_le_mul_right (blockSize i) (succ_le_of_lt hlt)
    rw [succ_mul] at this
    omega

theorem blocksOf_nodup (hi : i < buckets.length) (c : ℕ) : (blocksOf i c).Nodup := by
  refine nodup_range.map fun j k hjk => ?_
  have hpos := (bucket_sizes i hi).2.1
  exact eq_of_mul_eq_mul_right (by omega) (add_left_cancel hjk)

theorem length_blocksOf : (blocksOf i c).length = numBlocksPerChunk i := by
  rw [blocksOf, length_map, length_range]

end Blocks

section Core

variable {s : HeapState} {free : ℕ → List ℕ} {rest : List ℕ} {b c d x size : ℕ}

/-- The first free block leaves the list of the chunk. -/
theorem takeBlock_spec {h : Heap} {i : ℕ}
    (hlist : SpanList h.first h.span (blockSize i) (h.block c) (b :: rest))
    (hnd : (b :: rest).Nodup) (hlen : rest.length + 1 < word) :
    SpanList (update (h.takeBlock i c b).first b (some c)) (h.takeBlock i c b).span (blockSize i)
        ((h.takeBlock i c b).block c) rest ∧
      (∀ x, x ≠ b → x ∉ rest → (h.takeBlock i c b).first x = h.first x ∧
        (h.takeBlock i c b).span x = h.span x) ∧
      ∀ d ≠ c, (h.takeBlock i c b).block d = h.block d := by
  obtain ⟨-, hpos, hspan, hone, hmore⟩ := hlist.pop hnd
  have hb : ∀ x ∈ rest, x ≠ b := fun x hx he => (nodup_cons.mp hnd).1 (he ▸ hx)
  by_cases h1 : h.span b = 1
  · simp only [takeBlock, if_pos h1, update_self]
    refine ⟨(hone h1).congr fun x hx => ⟨update_of_ne (hb x hx) .., rfl⟩,
      fun _ _ _ => ⟨trivial, trivial⟩, ?_⟩
    exact fun d hd => update_of_ne hd ..
  · obtain ⟨hmem, hlist'⟩ := hmore h1
    simp only [takeBlock, if_neg h1, update_self]
    rw [sub64_of_le hpos (by omega)]
    refine ⟨hlist'.congr fun x hx => ⟨update_of_ne (hb x hx) .., rfl⟩, fun x _ hx => ?_, ?_⟩
    · have hne : x ≠ b + blockSize i := fun he => hx (he ▸ hmem)
      exact ⟨update_of_ne hne .., update_of_ne hne ..⟩
    · exact fun d hd => update_of_ne hd ..

@[simp]
theorem takeBlock_same (h : Heap) (i c b : ℕ) :
    (h.takeBlock i c b).chunks = h.chunks ∧ (h.takeBlock i c b).bucket = h.bucket ∧
      (h.takeBlock i c b).next = h.next ∧ (h.takeBlock i c b).prev = h.prev ∧
      (h.takeBlock i c b).head = h.head ∧ (h.takeBlock i c b).numActiveChunks = h.numActiveChunks ∧
      (h.takeBlock i c b).numAvailBlocks = update h.numAvailBlocks c (sub64 (h.numAvailBlocks c) 1) ∧
      (h.takeBlock i c b).numInuseBlocks = update h.numInuseBlocks c (add64 (h.numInuseBlocks c) 1) := by
  unfold takeBlock
  split_ifs <;> exact ⟨rfl, rfl, rfl, rfl, rfl, rfl, rfl, rfl⟩

/-- What `putback_block` does to the block and to the counters of its chunk. -/
def Heap.freeBlock (h : Heap) (c x : ℕ) : Heap :=
  { h with
    first := update h.first x (h.block c)
    span := update h.span x 1
    block := update h.block c (some x)
    numInuseBlocks := update h.numInuseBlocks c (sub64 (h.numInuseBlocks c) 1)
    numAvailBlocks := update h.numAvailBlocks c (add64 (h.numAvailBlocks c) 1) }

namespace HeapCore

theorem length_lt (h : HeapCore s free) (hc : c ∈ s.heap.chunks) :
    (free c).length ≤ numBlocksPerChunk (s.heap.bucket c) ∧ numBlocksPerChunk
    (s.heap.bucket c) < word := by
  have hsum := h.inuse c hc
  exact ⟨by omega, (bucket_sizes _ (h.bucket c hc)).2.2.2⟩

theorem pop (h : HeapCore s free) (hc : c ∈ s.heap.chunks) (hfree : free c = b :: rest)
    (hsize : size + sizeofMagic ≤ blockSize (s.heap.bucket c)) :
    HeapCore ⟨((s.heap.takeBlock (s.heap.bucket c) c b).setupPayload c b).1,
      (b + sizeofMagic, size) :: s.live⟩ (update free c rest) := by
  obtain ⟨hchunks, hbucket, -, -, -, -, havail, hinuse⟩ :=
    takeBlock_same s.heap (s.heap.bucket c) c b
  obtain ⟨hlen, hper⟩ := h.length_lt hc
  have hnd := h.slab.nodup c hc
  have hlist := h.list c hc
  have hsum := h.inuse c hc
  have hav := h.avail c hc
  rw [hfree] at hnd hlist hsum hlen hav
  rw [length_cons] at hsum hav
  obtain ⟨hb, hbfree⟩ := h.slab.mem_blocks_of_cons hc hfree
  obtain ⟨hlist', hframe, hblock⟩ := takeBlock_spec hlist hnd (by omega)
  have hrest : ∀ x ∈ rest, x ∈ blocksOf (s.heap.bucket c) c := fun x hx =>
    ((h.slab.mem_free c hc x).mp (hfree ▸ mem_cons_of_mem b hx)).1
  have hother : ∀ d ∈ s.heap.chunks, d ≠ c → ∀ x ∈ blocksOf (s.heap.bucket d) d, x ≠ b ∧ x ∉ rest := by
    intro d hd hdc x hx
    exact ⟨fun he => hdc (h.slab.unique d hd c hc x hx (he ▸ hb)),
      fun hxr => hdc (h.slab.unique d hd c hc x hx (hrest x hxr))⟩
  simp only [setupPayload]
  refine ⟨?_, ?_, ?_, ?_, ?_, ?_, ?_, ?_, nodup_cons.mpr ⟨hbfree, h.liveNodup⟩, ?_⟩
  all_goals simp only [hchunks, hbucket, havail, hinuse]
  · exact h.bounds
  · exact h.apart
  · exact h.bucket
  · refine h.slab.take hc hfree fun y => ?_
    rw [map_cons, mem_cons, add_right_cancel_iff]
  · intro d hd
    by_cases hdc : d = c
    · subst hdc
      rw [update_self]
      exact hlist'
    · rw [update_of_ne hdc, hblock d hdc]
      refine (h.list d hd).congr fun x hx => ?_
      obtain ⟨hxb, hxr⟩ := hother d hd hdc x ((h.slab.mem_free d hd x).mp hx).1
      rw [update_of_ne hxb]
      exact hframe x hxb hxr
  · intro d hd
    by_cases hdc : d = c
    · subst hdc
      rw [update_self, update_self, sub64_of_le (by omega) (by omega)]
      omega
    · rw [update_of_ne hdc, update_of_ne hdc]
      exact h.avail d hd
  · intro d hd
    by_cases hdc : d = c
    · subst hdc
      rw [update_self, update_self, add64_of_lt (by omega)]
      omega
    · rw [update_of_ne hdc, update_of_ne hdc]
      exact h.inuse d hd
  · intro d hd x hx hlive
    rw [map_cons, mem_cons, add_right_cancel_iff] at hlive
    by_cases hxb : x = b
    · rw [hxb, update_self, h.slab.unique d hd c hc x hx (hxb ▸ hb)]
    · have hxl := hlive.resolve_left hxb
      have hxr : x ∉ rest := fun hxr =>
        ((h.slab.mem_free c hc x).mp (hfree ▸ mem_cons_of_mem b hxr)).2 hxl
      rw [update_of_ne hxb, (hframe x hxb hxr).1]
      exact h.back d hd x hx hxl
  · exact forall_mem_cons.mpr ⟨⟨c, hc, b, hb, rfl, hsize⟩, h.room⟩

theorem mem_without {y : ℕ} : y ∈ (s.without x).map fst ↔ y ∈ s.live.map fst ∧ y ≠ x := by
  simp only [HeapState.without, mem_map, mem_filter, decide_eq_true_iff]
  constructor
  · rintro ⟨p, ⟨hp, hne⟩, rfl⟩
    exact ⟨⟨p, hp, rfl⟩, hne⟩
  · rintro ⟨⟨p, hp, rfl⟩, hne⟩
    exact ⟨p, ⟨hp, hne⟩, rfl⟩

section

variable (h : HeapCore s free) (hc : c ∈ s.heap.chunks) (hx : x ∈ blocksOf (s.heap.bucket c) c)
  (hlive : x + sizeofMagic ∈ s.live.map fst)
include h hc hx hlive

/-- A chunk with a block in use has fewer free blocks than blocks. -/
theorem length_lt_of_used : (free c).length < numBlocksPerChunk (s.heap.bucket c) := by
  by_contra hge
  exact h.slab.none_used hc (by rw [length_blocksOf]; omega) x hx hlive

theorem push : HeapCore ⟨s.heap.freeBlock c x,
    s.without (x + sizeofMagic)⟩ (update free c (x :: free c)) := by
  obtain ⟨hlen, hper⟩ := h.length_lt hc
  have hlt := h.length_lt_of_used hc hx hlive
  have hsum := h.inuse c hc
  have hav := h.avail c hc
  have hxfree : x ∉ free c := fun hxf => ((h.slab.mem_free c hc x).mp hxf).2 hlive
  refine ⟨h.bounds, h.apart, h.bucket, ?_, ?_, ?_, ?_, ?_, ?_, ?_⟩
  · refine h.slab.put hc hx hlive fun y => ?_
    rw [mem_without, ne_eq, add_right_cancel_iff]
  · intro d hd
    by_cases hdc : d = c
    · subst hdc
      simp only [freeBlock, update_self]
      exact (h.list d hd).push hxfree
    · simp only [freeBlock, update_of_ne hdc]
      refine (h.list d hd).congr fun y hy => ?_
      have hyx : y ≠ x := fun he =>
        hdc (h.slab.unique d hd c hc y ((h.slab.mem_free d hd y).mp hy).1 (he ▸ hx))
      exact ⟨update_of_ne hyx .., update_of_ne hyx ..⟩
  · intro d hd
    by_cases hdc : d = c
    · subst hdc
      simp only [freeBlock, update_self]
      rw [hav, add64_of_lt (by omega), length_cons]
    · simp only [freeBlock, update_of_ne hdc]
      exact h.avail d hd
  · intro d hd
    by_cases hdc : d = c
    · subst hdc
      simp only [freeBlock, update_self]
      rw [sub64_of_le (by omega) (by omega), length_cons]
      omega
    · simp only [freeBlock, update_of_ne hdc]
      exact h.inuse d hd
  · intro d hd y hy hyl
    obtain ⟨hyl, hne⟩ := mem_without.mp hyl
    have hyx : y ≠ x := fun he => hne (by rw [he])
    simp only [freeBlock, update_of_ne hyx]
    exact h.back d hd y hy hyl
  · exact (filter_sublist.map _).nodup h.liveNodup
  · intro p hp
    exact h.room p (mem_filter.mp hp).1

end

/-- A chunk without payloads is given back. -/
theorem drop (h : HeapCore s free) (hzero : s.heap.numInuseBlocks c = 0) (hc : c ∈ s.heap.chunks) :
    HeapCore ⟨{ s.heap with chunks := s.heap.chunks.erase c }, s.live⟩ free := by
  have hsub : ∀ d ∈ s.heap.chunks.erase c, d ∈ s.heap.chunks := fun d hd => mem_of_mem_erase hd
  have hnone := h.slab.none_used hc (by
    have := h.inuse c hc
    rw [length_blocksOf]
    omega)
  refine ⟨fun d hd => h.bounds d (hsub d hd), h.apart.sublist erase_sublist,
    fun d hd => h.bucket d (hsub d hd),
    h.slab.drop hnone, fun d hd => h.list d (hsub d hd), fun d hd => h.avail d (hsub d hd),
    fun d hd => h.inuse d (hsub d hd), fun d hd => h.back d (hsub d hd), h.liveNodup, ?_⟩
  intro p hp
  obtain ⟨d, hd, x, hx, heq, hroom⟩ := h.room p hp
  refine ⟨d, (mem_erase_of_ne ?_).mpr hd, x, hx, heq, hroom⟩
  rintro rfl
  exact hnone x hx (mem_map.mpr ⟨p, hp, heq⟩)

theorem chunks_nodup (h : HeapCore s free) : s.heap.chunks.Nodup := by
  refine h.apart.imp fun {c d} hcd he => ?_
  have hpos : 0 < chunkSize := by decide
  omega

theorem not_mem_of_fresh (hfresh : FreshChunk s.heap.chunks c) : c ∉ s.heap.chunks := by
  intro hc
  have hpos : 0 < chunkSize := by decide
  rcases hfresh.2 c hc with hle | hle <;> omega

/-- A fresh chunk, all of whose blocks are free. -/
theorem create (h : HeapCore s free) {i : ℕ} (hi : i < buckets.length)
    (hfresh : FreshChunk s.heap.chunks c) :
    HeapCore ⟨s.heap.createChunk i c, s.live⟩ (update free c (blocksOf i c)) := by
  have hne : ∀ d ∈ s.heap.chunks, d ≠ c := fun d hd he => not_mem_of_fresh hfresh (he ▸ hd)
  have hbucket : ∀ d ∈ s.heap.chunks, (s.heap.createChunk i c).bucket d = s.heap.bucket d :=
    fun d hd =>
    update_of_ne (hne d hd) ..
  have hself : (s.heap.createChunk i c).bucket c = i := update_self ..
  have hsizes := bucket_sizes i hi
  have hapart : ∀ d ∈ s.heap.chunks, ∀ x ∈ blocksOf (s.heap.bucket d) d, x < c ∨ c + chunkSize ≤ x := by
    intro d hd x hx
    have hx' := mem_blocksOf (h.bucket d hd) hx
    have hpos := (bucket_sizes _ (h.bucket d hd)).2.1
    rcases hfresh.2 d hd with hle | hle <;> omega
  have hfirst : ∀ d ∈ s.heap.chunks, ∀ x ∈ blocksOf (s.heap.bucket d) d, x ≠ c + sizeofChunk := by
    intro d hd x hx he
    have hsmall : sizeofChunk < chunkSize := by decide
    rcases hapart d hd x hx with hlt | hge <;> omega
  refine ⟨?_, ?_, ?_, ?_, ?_, ?_, ?_, ?_, h.liveNodup, ?_⟩
  · exact forall_mem_cons.mpr ⟨hfresh.1, h.bounds⟩
  · exact pairwise_cons.mpr ⟨hfresh.2, h.apart⟩
  · refine forall_mem_cons.mpr ⟨?_, fun d hd => ?_⟩
    · simp only [hself]
      exact hi
    · simp only [hbucket d hd]
      exact h.bucket d hd
  · refine (h.slab.congr fun d hd => by simp only [hbucket d hd]).grow (not_mem_of_fresh hfresh) ?_
      (blocksOf_nodup hi c) fun x => by simp only [hself]
    intro d hd x hx hxc
    simp only [hbucket d hd, hself] at hx hxc
    have hx' := mem_blocksOf hi hxc
    rcases hapart d hd x hx with hlt | hge <;> omega
  · refine forall_mem_cons.mpr ⟨?_, fun d hd => ?_⟩
    · simp only [createChunk, update_self]
      exact spanList_run hsizes.1 _
    · simp only [createChunk, update_of_ne (hne d hd)]
      refine (h.list d hd).congr fun x hx => ?_
      have hx' := hfirst d hd x ((h.slab.mem_free d hd x).mp hx).1
      exact ⟨update_of_ne hx' .., update_of_ne hx' ..⟩
  · refine forall_mem_cons.mpr ⟨?_, fun d hd => ?_⟩
    · simp [createChunk, length_blocksOf]
    · simp only [createChunk, update_of_ne (hne d hd)]
      exact h.avail d hd
  · refine forall_mem_cons.mpr ⟨?_, fun d hd => ?_⟩
    · simp [createChunk, length_blocksOf]
    · simp only [createChunk, update_of_ne (hne d hd)]
      exact h.inuse d hd
  · refine forall_mem_cons.mpr ⟨fun x hx hlive => ?_, fun d hd x hx hlive => ?_⟩
    · simp only [createChunk, update_self] at hx
      obtain ⟨d, hd, hxd⟩ := h.slab.mem_used x hlive
      have hx' := mem_blocksOf hi hx
      rcases hapart d hd x hxd with hlt | hge <;> omega
    · simp only [hbucket d hd] at hx
      simp only [createChunk, update_of_ne (hfirst d hd x hx)]
      exact h.back d hd x hx hlive
  · intro p hp
    obtain ⟨d, hd, x, hx, heq, hroom⟩ := h.room p hp
    refine ⟨d, mem_cons_of_mem c hd, x, ?_, heq, ?_⟩
    · simp only [hbucket d hd]
      exact hx
    · simp only [hbucket d hd]
      exact hroom

theorem relist {heap : Heap} {live : List (ℕ × ℕ)} (h : HeapCore ⟨heap, live⟩ free)
    (next prev : ℕ → Option ℕ) (head : ℕ → Option ℕ) (numActiveChunks numAllocatedChunks : ℕ → ℕ) :
    HeapCore ⟨{ heap with next, prev, head, numActiveChunks, numAllocatedChunks }, live⟩ free :=
  ⟨h.bounds, h.apart, h.bucket, h.slab, h.list, h.avail, h.inuse, h.back, h.liveNodup, h.room⟩

end HeapCore

end Core

section Lists

variable {h : Heap} {l : ℕ → List ℕ} {i c : ℕ}

theorem length_le_of_nodup {l : List ℕ} {n : ℕ} (hnd : l.Nodup) (hlt : ∀ x ∈ l, x < n) :
    l.length ≤ n := by
  have hsub : l ⊆ List.range n := fun x hx => mem_range.mpr (hlt x hx)
  simpa using (hnd.subperm hsub).length_le

/-- There are fewer chunks than machine words. -/
theorem HeapCore.length_lt_word {s : HeapState} {free : ℕ → List ℕ} {l : List ℕ}
    (hcore : HeapCore s free) (hnd : l.Nodup) (hsub : ∀ c ∈ l, c ∈ s.heap.chunks) :
    l.length + 1 < word := by
  have hle : l.length ≤ word - 2 := by
    refine length_le_of_nodup hnd fun c hc => ?_
    have := hcore.bounds c (hsub c hc)
    simp only [chunkSize] at *
    omega
  simp only [word] at *
  omega

namespace HeapLists

/-- Only the state of the chunk `c` in the bucket `i` changes. -/
theorem except (h' : Heap) (hl : HeapLists h l fun _ _ => False) (hnext : h'.next = h.next)
    (hprev : h'.prev = h.prev) (hhead : h'.head = h.head) (hcount : h'.numActiveChunks =
    h.numActiveChunks)
    (hself : ∀ j, Active h j c ∨ Active h' j c → j = i) (hother : ∀ j, ∀ b ≠ c, Active h' j b ↔
    Active h j b) :
    HeapLists h' l fun j b => j = i ∧ b = c := by
  refine ⟨fun j hj => ?_, fun j hj => by rw [hcount]; exact hl.count j hj⟩
  obtain ⟨hd, hmem⟩ := hl.list j hj
  rw [hnext, hprev, hhead]
  refine ⟨hd, fun b hb => (hmem b id).trans ?_⟩
  by_cases hbc : b = c
  · subst hbc
    exact iff_of_false (fun ha => hb ⟨hself j (.inl ha), rfl⟩) fun ha => hb ⟨hself j (.inr ha), rfl⟩
  · exact (hother j b hbc).symm

variable (hl : HeapLists h l fun j b => j = i ∧ b = c) (hi : i < buckets.length)
include hl hi

theorem list_self : DListOf h.next h.prev (h.head i) (l i) (Active h i) (· = c) :=
  ⟨(hl.list i hi).dlist, fun b hb => (hl.list i hi).mem_iff b fun he => hb he.2⟩

omit hi in
theorem list_other {j : ℕ} (hj : j < buckets.length) (hji : j ≠ i) :
    DListOf h.next h.prev (h.head j) (l j) (Active h j) fun _ => False :=
  ⟨(hl.list j hj).dlist, fun b _ => (hl.list j hj).mem_iff b fun he => hji he.1⟩

theorem keep (hc : c ∈ l i ↔ Active h i c) : HeapLists h l fun _ _ => False := by
  refine ⟨fun j hj => ?_, hl.count⟩
  by_cases hji : j = i
  · rw [hji]
    exact (hl.list_self hi).keep hc
  · exact hl.list_other hj hji

/-- The list of the bucket `i` is replaced, with the links of its cells and of `c` only. -/
theorem relink {h' : Heap} {li : List ℕ} (hactive : Active h' = Active h) (hbucket : h.bucket c = i)
    (hself : DListOf h'.next h'.prev (h'.head i) li (Active h i) fun _ => False)
    (hframe : ∀ b ≠ c, b ∉ l i → h'.next b = h.next b ∧ h'.prev b = h.prev b)
    (hhead : ∀ j ≠ i, h'.head j = h.head j) (hcount : h'.numActiveChunks =
      update h.numActiveChunks i li.length) :
    HeapLists h' (update l i li) fun _ _ => False := by
  refine ⟨fun j hj => ?_, fun j hj => ?_⟩
  · rw [hactive]
    by_cases hji : j = i
    · rw [hji, update_self]
      exact hself
    · rw [update_of_ne hji, hhead j hji]
      obtain ⟨hdlist, hmem⟩ := hl.list_other hj hji
      -- a chunk on the list of another bucket is not on this one
      have hsame : ∀ b ∈ l j, h'.next b = h.next b ∧ h'.prev b = h.prev b := by
        intro b hb
        have hbj := ((hmem b id).mp hb).2.1
        have hbc : b ≠ c := by
          rintro rfl
          exact hji (hbj.symm.trans hbucket)
        exact hframe b hbc fun hbi => hji (hbj.symm.trans (((hl.list_self hi).mem_iff b hbc).mp hbi).2.1)
      exact ⟨hdlist.congr (fun b hb => (hsame b hb).1) fun b hb => (hsame b hb).2, hmem⟩
  · rw [hcount]
    by_cases hji : j = i
    · rw [hji, update_self, update_self]
    · rw [update_of_ne hji, update_of_ne hji]
      exact hl.count j hj

theorem attach (hnot : c ∉ l i) (hc : Active h i c) (hlen : (l i).length + 1 < word) :
    HeapLists (h.attachChunk i c) (update l i (c :: l i)) fun _ _ => False := by
  refine hl.relink hi rfl hc.2.1 ?_ (fun b hbc hb => (hl.list_self hi).dlist.push_frame hbc hb)
    (fun j hji => update_of_ne hji ..) ?_
  · simp only [attachChunk, update_self]
    exact (hl.list_self hi).insert hnot hc
  · rw [attachChunk, hl.count i hi, add64_of_lt hlen, length_cons]

theorem detach (hmem : c ∈ l i) (hbucket : h.bucket c = i) (hc : ¬ Active h i c)
    (hlen : (l i).length < word) :
    HeapLists (h.detachChunk i c) (update l i ((l i).erase c)) fun _ _ => False := by
  refine hl.relink hi rfl hbucket ?_ (fun b _ hb => (hl.list_self hi).dlist.unlink_frame hmem hb)
    (fun j hji => update_of_ne hji ..) ?_
  · simp only [detachChunk, update_self]
    exact (hl.list_self hi).remove hmem hc
  · rw [detachChunk, hl.count i hi, sub64_of_le (length_pos_of_mem hmem) hlen, length_erase_of_mem hmem]

end HeapLists

end Lists

section Calls

variable {s : HeapState} {i c : ℕ}

theorem HeapInv.list_lt {free l} (hcore : HeapCore s free)
    (hl : HeapLists s.heap l fun _ _ => False)
    (hi : i < buckets.length) : (l i).length + 1 < word :=
  hcore.length_lt_word (hl.list i hi).dlist.nodup fun c hc =>
    (((hl.list i hi).mem_iff c id).mp hc).1

/-- What `find_chunk` and `malloc` leave of the chunks that were there. -/
structure Keeps (h h' : Heap) : Prop where
  chunks : ∀ d ∈ h.chunks, d ∈ h'.chunks
  bucket : ∀ d ∈ h.chunks, h'.bucket d = h.bucket d

variable {chunk : Option ℕ}

/-- `find_chunk` fails only without memory; otherwise it finds a chunk with a free block. -/
theorem HeapInv.findChunk (h : HeapInv s) (hi : i < buckets.length)
    (hfresh : ∀ c ∈ chunk, FreshChunk s.heap.chunks c) :
    s.heap.findChunk i chunk = none ∨ ∃ heap c, s.heap.findChunk i chunk = some (heap, c) ∧
      HeapInv ⟨heap, s.live⟩ ∧ Active heap i c ∧ Keeps s.heap heap ∧
      (∀ d ∈ s.heap.chunks, heap.numAvailBlocks d = s.heap.numAvailBlocks d) ∧
      ∀ d ∈ s.heap.chunks, s.heap.head i ≠ some d → c ≠ d := by
  obtain ⟨⟨free, hcore⟩, ⟨l, hl⟩⟩ := h
  have hlist := hl.list i hi
  cases hhead : s.heap.head i with
  | some c =>
    have hc : c ∈ l i := by
      have hh := hlist.dlist.head_eq
      rw [hhead] at hh
      exact mem_of_mem_head? hh.symm
    refine Or.inr ⟨s.heap, c, by simp only [Heap.findChunk, hhead], ⟨⟨free, hcore⟩, ⟨l, hl⟩⟩,
      (hlist.mem_iff c id).mp hc, ⟨fun _ hd => hd, fun _ _ => rfl⟩, fun _ _ => rfl, fun d _ hne he => ?_⟩
    exact hne (by rw [he])
  | none =>
    cases chunk with
    | none => exact Or.inl (by simp [findChunk, hhead])
    | some c =>
      have hc := hfresh c rfl
      have hnot := HeapCore.not_mem_of_fresh hc
      have hne : ∀ d ∈ s.heap.chunks, d ≠ c := fun d hd he => hnot (he ▸ hd)
      have hactive : Active (s.heap.createChunk i c) i c := ⟨mem_cons_self .., update_self .., by
          simp only [createChunk, update_self]
          exact (bucket_sizes i hi).1⟩
      have hlists := (hl.except (i := i) (c := c) (s.heap.createChunk i c) rfl rfl rfl rfl
        (fun j ha => ha.elim (fun ha => absurd ha.1 hnot) fun ha => ha.2.1.symm.trans (update_self ..))
        fun j b hbc => by simp [Active, createChunk, hbc]).attach hi
        (fun hc => hnot ((hlist.mem_iff c id).mp hc).1) hactive (HeapInv.list_lt hcore hl hi)
      have hfind : s.heap.findChunk i (some c) = some ({ (s.heap.createChunk i c).attachChunk i c with
          numAllocatedChunks := update s.heap.numAllocatedChunks i
            (add64 (s.heap.numAllocatedChunks i) 1) },
          c) := by
        simp only [findChunk, hhead, Option.map_some]
        rfl
      refine Or.inr ⟨_, c, hfind, ⟨⟨_, (hcore.create hi hc).relist _ _ _ _ _⟩,
        ⟨_, hlists.list, hlists.count⟩⟩, hactive,
        ⟨fun d hd => mem_cons_of_mem c hd, fun d hd => update_of_ne (hne d hd) ..⟩,
        fun d hd => update_of_ne (hne d hd) .., fun d hd _ he => hne d hd he.symm⟩

/-- `find_block` and `setup_payload` on a chunk with a free block. -/
theorem HeapInv.findBlock (h : HeapInv s) (hi : i < buckets.length) (hc : Active s.heap i c)
    {size : ℕ} (hsize : size + sizeofMagic ≤ blockSize i) :
    ∃ heap b, s.heap.findBlock i c = some (heap, b) ∧
      HeapInv ⟨(heap.setupPayload c b).1, (b + sizeofMagic, size) :: s.live⟩ ∧ Keeps s.heap heap ∧
      heap.numAvailBlocks c + 1 = s.heap.numAvailBlocks c ∧
      ∀ d ≠ c, heap.numAvailBlocks d = s.heap.numAvailBlocks d := by
  obtain ⟨⟨free, hcore⟩, ⟨l, hl⟩⟩ := h
  obtain ⟨hmem, rfl, hpos⟩ := hc
  have havail := hcore.avail c hmem
  obtain ⟨b, rest, hfree⟩ : ∃ b rest, free c = b :: rest := exists_cons_of_length_pos (by omega)
  have hblock : s.heap.block c = some b := by
    have hlist := hcore.list c hmem
    rw [hfree] at hlist
    exact (hlist.pop (hfree ▸ hcore.slab.nodup c hmem)).1
  have hpop := hcore.pop hmem hfree hsize
  obtain ⟨hchunks, hbucket, hnext, hprev, hhead, hcount, hav, -⟩ :=
    takeBlock_same s.heap (s.heap.bucket c) c b
  have hlen := HeapInv.list_lt hcore hl hi
  have hcl := ((hl.list _ hi).mem_iff c id).mpr ⟨hmem, rfl, hpos⟩
  have hword : s.heap.numAvailBlocks c < word := by
    have := hcore.length_lt hmem
    omega
  have hself : (s.heap.takeBlock (s.heap.bucket c) c b).numAvailBlocks c =
      s.heap.numAvailBlocks c - 1 := by
    rw [hav, update_self, sub64_of_le hpos hword]
  have hrest : ∀ d ≠ c, (s.heap.takeBlock (s.heap.bucket c) c b).numAvailBlocks d =
      s.heap.numAvailBlocks d := by
    intro d hd
    rw [hav, update_of_ne hd]
  have hlists := hl.except (i := s.heap.bucket c) (c := c) _ hnext hprev hhead hcount
    (fun j ha => ha.elim (fun ha => ha.2.1.symm) fun ha => by rw [← ha.2.1, hbucket])
    fun j d hdc => by rw [Active, Active, hchunks, hbucket, hrest d hdc]
  have hkeeps : Keeps s.heap (s.heap.takeBlock (s.heap.bucket c) c b) :=
    ⟨fun d hd => hchunks ▸ hd, fun d _ => by rw [hbucket]⟩
  simp only [findBlock, hblock, Option.bind_eq_bind, Option.bind_some]
  by_cases hzero : (s.heap.takeBlock (s.heap.bucket c) c b).numAvailBlocks c = 0
  · have hdetach := hlists.detach hi hcl (by rw [hbucket]) (fun ha => by have := ha.2.2; omega) (by omega)
    rw [if_pos hzero]
    exact ⟨_, b, rfl, ⟨⟨_, hpop.relist _ _ _ _ _⟩, ⟨_, hdetach.list, hdetach.count⟩⟩,
      ⟨hkeeps.chunks, hkeeps.bucket⟩, by rw [detachChunk, hself]; omega, hrest⟩
  · have hkeep := hlists.keep hi (iff_of_true hcl ⟨hchunks ▸ hmem, by rw [hbucket], by omega⟩)
    rw [if_neg hzero]
    exact ⟨_, b, rfl, ⟨⟨_, hpop⟩, ⟨_, hkeep.list, hkeep.count⟩⟩, hkeeps, by rw [hself]; omega, hrest⟩

/-- `malloc` does not fault, and takes at most one block from a chunk that was there. -/
theorem HeapInv.malloc (h : HeapInv s) (size : ℕ)
    (hfresh : ∀ c ∈ chunk, FreshChunk s.heap.chunks c) :
    ∃ heap r, s.heap.malloc size chunk = some (heap, r) ∧
      HeapInv ⟨heap, (r.map fun p => (p, size)).toList ++ s.live⟩ ∧ Keeps s.heap heap ∧
      ∀ d ∈ s.heap.chunks, s.heap.numAvailBlocks d ≤ heap.numAvailBlocks d + 1 ∧
        ((∀ i ∈ findBucket (size + sizeofMagic), s.heap.head i ≠ some d) →
          heap.numAvailBlocks d = s.heap.numAvailBlocks d) := by
  have hfail : HeapInv ⟨s.heap, (none.map fun p => (p, size)).toList ++ s.live⟩ ∧
    Keeps s.heap s.heap ∧
      ∀ d ∈ s.heap.chunks, s.heap.numAvailBlocks d ≤ s.heap.numAvailBlocks d + 1 ∧
        ((∀ i ∈ findBucket (size + sizeofMagic), s.heap.head i ≠ some d) →
          s.heap.numAvailBlocks d = s.heap.numAvailBlocks d) :=
    ⟨h, ⟨fun _ hd => hd, fun _ _ => rfl⟩, fun _ _ => ⟨le_succ _, fun _ => rfl⟩⟩
  by_cases hmax : maxBlockSize < size
  · exact ⟨s.heap, none, by rw [Heap.malloc, if_pos hmax], hfail⟩
  cases hbucket : findBucket (size + sizeofMagic) with
  | none => exact ⟨s.heap, none, by simp only [Heap.malloc, if_neg hmax, hbucket], hbucket ▸ hfail⟩
  | some i =>
    obtain ⟨hi, hsize⟩ := findBucket_spec hbucket
    rcases h.findChunk hi hfresh with hnone | ⟨heap, c, hfind, hinv, hactive, hkeeps, havail, hhead⟩
    · exact ⟨s.heap, none, by simp only [Heap.malloc, if_neg hmax, hbucket, hnone], hbucket ▸ hfail⟩
    · obtain ⟨heap', b, hblock, hinv', hkeeps', hself, hother⟩ := hinv.findBlock hi hactive hsize
      refine ⟨_, some (b + sizeofMagic), ?_, hinv', ⟨?_, ?_⟩, ?_⟩
      · simp only [Heap.malloc, if_neg hmax, hbucket, hfind, hblock]
        rfl
      · exact fun d hd => hkeeps'.chunks d (hkeeps.chunks d hd)
      · exact fun d hd => (hkeeps'.bucket d (hkeeps.chunks d hd)).trans (hkeeps.bucket d hd)
      · intro d hd
        have hd' := havail d hd
        refine ⟨?_, fun hne => ?_⟩
        · by_cases hdc : d = c
          · subst hdc
            have hd'' : heap'.numAvailBlocks d + 1 = heap.numAvailBlocks d := hself
            simp only [setupPayload]
            omega
          · simp only [setupPayload, hother d hdc]
            omega
        · have hdc := hhead d hd (hne i rfl)
          simp only [setupPayload, hother d hdc.symm]
          exact hd'

variable {ptr : ℕ}

/-- The block of a live pointer. -/
theorem HeapInv.block_of_live (h : HeapInv s) (hptr : ptr ∈ s.live.map fst) :
    ∃ c ∈ s.heap.chunks, ∃ x ∈ blocksOf (s.heap.bucket c) c, ptr = x + sizeofMagic ∧
    s.heap.first x = some c := by
  obtain ⟨⟨free, hcore⟩, -⟩ := h
  obtain ⟨p, hp, rfl⟩ := mem_map.mp hptr
  obtain ⟨c, hc, x, hx, heq, -⟩ := hcore.room p hp
  exact ⟨c, hc, x, hx, heq, hcore.back c hc x hx (heq ▸ hptr)⟩

theorem HeapInv.free (h : HeapInv s) {x : ℕ} (hc : c ∈ s.heap.chunks)
    (hx : x ∈ blocksOf (s.heap.bucket c) c)
    (hlive : x + sizeofMagic ∈ s.live.map fst) (hpos : 0 < s.heap.numAvailBlocks c) :
    ∃ heap, s.heap.free (x + sizeofMagic) = some heap ∧ HeapInv ⟨heap, s.without (x + sizeofMagic)⟩ := by
  obtain ⟨⟨free, hcore⟩, ⟨l, hl⟩⟩ := h
  have hi := hcore.bucket c hc
  have hback := hcore.back c hc x hx hlive
  have hcl := ((hl.list _ hi).mem_iff c id).mpr ⟨hc, rfl, hpos⟩
  have hlen := HeapInv.list_lt hcore hl hi
  have hcount : 0 < s.heap.numActiveChunks (s.heap.bucket c) := by
    rw [hl.count _ hi]
    exact length_pos_of_mem hcl
  have havail : add64 (s.heap.numAvailBlocks c) 1 = s.heap.numAvailBlocks c + 1 := by
    have := hcore.length_lt hc
    have := hcore.length_lt_of_used hc hx hlive
    have := hcore.avail c hc
    exact add64_of_lt (by omega)
  have hpush := hcore.push hc hx hlive
  have hfree : s.heap.free (x + sizeofMagic) = some (
      let h := s.heap.freeBlock c x
      if h.numInuseBlocks c = 0 then
        { h.detachChunk (s.heap.bucket c) c with
          chunks := h.chunks.erase c
          numAllocatedChunks := update h.numAllocatedChunks (s.heap.bucket c)
            (sub64 (h.numAllocatedChunks (s.heap.bucket c)) 1) }
      else h) := by
    simp only [Heap.free, Nat.add_sub_cancel, hback, Option.bind_eq_bind, Option.bind_some,
      Heap.putbackBlock, if_neg hpos.ne', hcount, and_true]
    rfl
  have hbucket : ∀ {h : Heap} j, h.bucket = s.heap.bucket → Active s.heap j c ∨ Active h j c →
      j = s.heap.bucket c :=
    fun j hb ha => ha.elim (fun ha => ha.2.1.symm) fun ha => by rw [← ha.2.1, hb]
  rw [hfree]
  refine ⟨_, rfl, ?_⟩
  by_cases hzero : (s.heap.freeBlock c x).numInuseBlocks c = 0
  · -- the chunk is empty and leaves the list and the heap
    have hgone : c ∉ s.heap.chunks.erase c := hcore.chunks_nodup.not_mem_erase
    have hlists :=
      (hl.except { s.heap.freeBlock c x with chunks := s.heap.chunks.erase c } rfl rfl rfl rfl
      (fun j => hbucket j rfl) fun j d hdc => by
      simp [Active, freeBlock, hdc, mem_erase_of_ne hdc]).detach
      hi hcl rfl (fun hd => hgone hd.1) (by omega)
    simp only [if_pos hzero]
    exact ⟨⟨_, (hpush.drop hzero hc).relist _ _ _ _ _⟩, ⟨_, hlists.list, hlists.count⟩⟩
  · have hself : Active (s.heap.freeBlock c x) (s.heap.bucket c) c :=
      ⟨hc, rfl, by simp [freeBlock, havail]⟩
    have hlists := hl.except (s.heap.freeBlock c x) rfl rfl rfl rfl (fun j =>
      hbucket j rfl) fun j d hdc => by
      simp [Active, freeBlock, hdc]
    simp only [if_neg hzero]
    exact ⟨⟨_, hpush⟩, ⟨l, hlists.keep hi (iff_of_true hcl hself)⟩⟩

variable {newSize : ℕ}

/-- The new size of a block that stays in place fits it. -/
theorem le_of_staysInPlace (hi : i < buckets.length) (hword : newSize < word)
    (hstays : staysInPlace i newSize) : newSize + sizeofMagic ≤ blockSize i := by
  obtain ⟨hle, hhalf⟩ := hstays
  have hmagic := sizeofMagic_le_half i hi
  by_cases hlt : newSize + sizeofMagic < word
  · rwa [add64_of_lt hlt] at hle
  · -- a sum that wraps is less than the size of the magic
    have hsmall : sizeofMagic < word := by decide
    rw [add64, mod_eq_sub_mod (by omega), mod_eq_of_lt (by omega)] at hhalf
    omega

section

variable (h : HeapInv s)
include h

/-- A payload that stays in place is given out anew with its new size. -/
theorem HeapInv.resize {x : ℕ} (hc : c ∈ s.heap.chunks)
    (hx : x ∈ blocksOf (s.heap.bucket c) c) (hlive : x + sizeofMagic ∈ s.live.map fst)
    (hsize : newSize + sizeofMagic ≤ blockSize (s.heap.bucket c)) :
    HeapInv ⟨s.heap, (x + sizeofMagic, newSize) :: s.without (x + sizeofMagic)⟩ := by
  obtain ⟨⟨free, hcore⟩, hlists⟩ := h
  have hmem : ∀ y, y ∈ ((x + sizeofMagic, newSize) :: s.without (x + sizeofMagic)).map fst ↔
      y ∈ s.live.map fst := by
    intro y
    rw [map_cons, mem_cons, HeapCore.mem_without]
    by_cases hy : y = x + sizeofMagic
    · simp [hy, hlive]
    · simp [hy]
  refine ⟨⟨free, hcore.bounds, hcore.apart, hcore.bucket, ?_, hcore.list, hcore.avail, hcore.inuse,
    ?_, ?_, ?_⟩, hlists⟩
  · simp only [hmem]
    exact hcore.slab
  · simp only [hmem]
    exact hcore.back
  · refine nodup_cons.mpr ⟨fun hx => (HeapCore.mem_without.mp hx).2 rfl, ?_⟩
    exact (filter_sublist.map _).nodup hcore.liveNodup
  · exact forall_mem_cons.mpr ⟨⟨c, hc, x, hx, rfl, hsize⟩, fun p hp => hcore.room p (mem_filter.mp hp).1⟩

theorem HeapInv.realloc_call (hptr : ptr ∈ s.live.map fst)
    (hword : newSize < word) (hfresh : ∀ c ∈ chunk, FreshChunk s.heap.chunks c)
    (hok : FreesNotFull s (.realloc ptr newSize chunk)) :
    ∃ s', heapStep s (.realloc ptr newSize chunk) = some s' ∧ HeapInv s' := by
  obtain ⟨c, hc, x, hx, rfl, hfirst⟩ := h.block_of_live hptr
  have hne : x + sizeofMagic ≠ 0 := by
    simp only [sizeofMagic]
    omega
  simp only [heapStep, hptr, hword, true_and, if_pos hfresh, realloc, if_neg hne]
  rw [FreesNotFull] at hok
  by_cases hzero : newSize = 0
  · rw [if_pos hzero] at hok
    obtain ⟨heap, hfree, hinv⟩ := h.free hc hx hptr (hok c (by rwa [Nat.add_sub_cancel]))
    simp only [if_pos hzero, hfree]
    exact ⟨_, rfl, hinv⟩
  · rw [if_neg hzero] at hok
    have hok := hok c (by rwa [Nat.add_sub_cancel])
    simp only [if_neg hzero, Nat.add_sub_cancel, hfirst, Option.bind_eq_bind, Option.bind_some]
    by_cases hstays : staysInPlace (s.heap.bucket c) newSize
    · rw [if_pos hstays]
      obtain ⟨free, hcore⟩ := h.core
      exact ⟨_, rfl, h.resize hc hx hptr (le_of_staysInPlace (hcore.bucket c hc) hword hstays)⟩
    · rw [if_neg hstays]
      obtain ⟨hpos, hhead⟩ := hok hstays
      obtain ⟨heap, r, hmalloc, hinv, hkeeps, havail⟩ := h.malloc newSize hfresh
      obtain ⟨hle, hsame⟩ := havail c hc
      rw [hmalloc, Option.bind_some]
      cases r with
      | none => exact ⟨_, rfl, hinv⟩
      | some p =>
        have hpos' : 0 < heap.numAvailBlocks c := by
          by_cases hone : s.heap.numAvailBlocks c = 1
          · rw [hsame (hhead hone), hone]
            exact one_pos
          · omega
        have hp : p ≠ x + sizeofMagic := by
          rintro rfl
          obtain ⟨free, hcore⟩ := hinv.core
          exact (nodup_cons.mp hcore.liveNodup).1 hptr
        have hx' : x ∈ blocksOf (heap.bucket c) c := by rwa [hkeeps.bucket c hc]
        obtain ⟨heap', hfree, hinv'⟩ := hinv.free (hkeeps.chunks c hc) hx' (mem_cons_of_mem _ hptr) hpos'
        simp only [hfree, Option.map_some]
        refine ⟨_, rfl, ?_⟩
        have hwithout : HeapState.without ⟨heap, (p, newSize) :: s.live⟩ (x + sizeofMagic) =
            (p, newSize) :: s.without (x + sizeofMagic) := filter_cons_of_pos (by simpa using hp)
        exact hwithout ▸ hinv'

theorem HeapInv.malloc_call (size : ℕ) (hfresh : ∀ c ∈ chunk, FreshChunk s.heap.chunks c) :
    ∃ s', heapStep s (.malloc size chunk) = some s' ∧ HeapInv s' := by
  obtain ⟨heap, r, hmalloc, hinv, -⟩ := h.malloc size hfresh
  refine ⟨_, ?_, hinv⟩
  rw [heapStep, if_pos hfresh, hmalloc, Option.map_some]

theorem HeapInv.free_call (hptr : ptr ∈ s.live.map fst)
    (hok : FreesNotFull s (.free ptr)) : ∃ s', heapStep s (.free ptr) = some s' ∧ HeapInv s' := by
  obtain ⟨c, hc, x, hx, rfl, hfirst⟩ := h.block_of_live hptr
  obtain ⟨heap, hfree, hinv⟩ := h.free hc hx hptr (hok c (by rwa [Nat.add_sub_cancel]))
  refine ⟨_, ?_, hinv⟩
  rw [heapStep, if_pos hptr, hfree, Option.map_some]

/-- Every call that meets the condition runs to its end. -/
theorem HeapInv.calls : HeapCallsOk FreesNotFull s := by
  refine ⟨fun size chunk hfresh _ => ?_, fun ptr hptr hok => ?_,
    fun ptr hptr newSize hword chunk hfresh hok => ?_⟩
  · obtain ⟨s', hs, -⟩ := h.malloc_call size hfresh
    exact ⟨s', hs⟩
  · obtain ⟨s', hs, -⟩ := h.free_call hptr hok
    exact ⟨s', hs⟩
  · obtain ⟨s', hs, -⟩ := h.realloc_call hptr hword hfresh hok
    exact ⟨s', hs⟩

theorem HeapInv.step {a : HeapAction} {s' : HeapState} (hok : FreesNotFull s a)
    (hs : heapStep s a = some s') : HeapInv s' := by
  suffices hcall : ∃ t, heapStep s a = some t ∧ HeapInv t by
    obtain ⟨t, ht, hinv⟩ := hcall
    rw [ht, Option.some.injEq] at hs
    exact hs ▸ hinv
  cases a with
  | malloc size chunk =>
    by_cases hfresh : ∀ c ∈ chunk, FreshChunk s.heap.chunks c
    · exact h.malloc_call size hfresh
    · rw [heapStep, if_neg hfresh] at hs
      cases hs
  | free ptr =>
    by_cases hptr : ptr ∈ s.live.map fst
    · exact h.free_call hptr hok
    · rw [heapStep, if_neg hptr] at hs
      cases hs
  | realloc ptr newSize chunk =>
    by_cases hguard : ptr ∈ s.live.map fst ∧ newSize < word ∧ ∀ c ∈ chunk, FreshChunk s.heap.chunks c
    · exact h.realloc_call hguard.1 hguard.2.1 hguard.2.2 hok
    · rw [heapStep, if_neg hguard] at hs
      cases hs

end

theorem HeapInv.init (h : HeapInit s) : HeapInv s := by
  have hempty : ∀ c, c ∉ s.heap.chunks := fun c => by
    rw [h.chunks]
    exact not_mem_nil
  refine ⟨⟨fun _ => [], ?_⟩, ⟨fun _ => [], fun i _ => ?_, fun i _ => h.numActiveChunks i⟩⟩
  · refine ⟨?_, ?_, ?_, ⟨?_, ?_, ?_, ?_⟩, ?_, ?_, ?_, ?_, ?_, ?_⟩
    all_goals simp [h.chunks, h.live]
  · refine ⟨?_, fun c _ => iff_of_false not_mem_nil fun hc => hempty c hc.1⟩
    rw [h.head]
    exact dlist_nil ..

/-- Payloads of different blocks do not overlap. -/
theorem HeapCore.payloads_apart {free : ℕ → List ℕ} (h : HeapCore s free) {p q : ℕ × ℕ}
    (hp : p ∈ s.live) (hq : q ∈ s.live) (hne : p.1 ≠ q.1) : p.1 + p.2 ≤ q.1 ∨ q.1 + q.2 ≤ p.1 := by
  obtain ⟨c, hc, x, hx, hpx, hpsize⟩ := h.room p hp
  obtain ⟨d, hd, y, hy, hqy, hqsize⟩ := h.room q hq
  by_cases hcd : c = d
  · subst hcd
    have hxy := blocksOf_apart hx hy fun he => hne (by rw [hpx, hqy, he])
    omega
  · have hsymm : Std.Symm fun c d => c + chunkSize ≤ d ∨ d + chunkSize ≤ c := ⟨fun _ _ => Or.symm⟩
    have hchunks := h.apart.forall hc hd hcd
    have hx' := mem_blocksOf (h.bucket c hc) hx
    have hy' := mem_blocksOf (h.bucket d hd) hy
    omega

theorem HeapInv.ok (h : HeapInv s) : HeapOk s := by
  obtain ⟨⟨free, hcore⟩, ⟨l, hl⟩⟩ := h
  refine ⟨fun p hp => ?_, ?_, fun i hi => ⟨l i, (hl.list i hi).dlist,
    fun c => (hl.list i hi).mem_iff c id, hl.count i hi⟩⟩
  · obtain ⟨c, hc, x, hx, heq, hsize⟩ := hcore.room p hp
    have hx' := mem_blocksOf (hcore.bucket c hc) hx
    exact ⟨c, hc, by omega, by omega, hsize⟩
  · have hne := pairwise_map.mp hcore.liveNodup
    exact hne.imp_of_mem fun hp hq hpq => ⟨hpq, hcore.payloads_apart hp hq hpq⟩

end Calls

/-- While no block of a full chunk is freed, no call faults and the heap is sound after each. -/
theorem heap_sound {s₀ s : HeapState} (hinit : HeapInit s₀)
    (hreach : Reach heapStep FreesNotFull s₀ s) : HeapOk s ∧ HeapCallsOk FreesNotFull s := by
  have hinv : HeapInv s := hreach.invariant (HeapInv.init hinit) fun _ _ _ hu hok hs =>
    hu.step hok hs
  exact ⟨hinv.ok, hinv.calls⟩

def newHeap : HeapState :=
  ⟨⟨fun _ => 0, fun _ => 0, fun _ => none, fun _ => 0, fun _ => 0, fun _ => 0, fun _ => none,
    fun _ => none, fun _ => none, fun _ => none, fun _ => 0, []⟩, []⟩

theorem heapInit_newHeap : HeapInit newHeap := ⟨fun _ => rfl, fun _ => rfl, rfl, rfl⟩

theorem heap_sound_moved_payload : ∃ s, Reach heapStep FreesNotFull newHeap s ∧
    s.live = [(0x800038, 5000), (0x4000b8, 100)] ∧ HeapOk s ∧ HeapCallsOk FreesNotFull s := by
  refine exists_reach_of (P := fun s => s.live = [(0x800038, 5000), (0x4000b8, 100)])
    [.malloc 100 (some 0x400000), .malloc 100 none, .realloc 0x400038 5000 (some 0x800000)]
    (by decide +kernel) fun s hs hlive => ?_
  exact ⟨hlive, heap_sound heapInit_newHeap hs⟩

/-- The chunk at `0x400000` comes back in front of the one at `0x800000`, which does not learn of
it. When the latter is given back it stays reachable from the former, and a later payload lies in
it. -/
theorem heap_payload_in_returned_chunk : ∃ s, HeapInit newHeap ∧ Reach heapStep anyStep newHeap s ∧
    s.heap.chunks = [0x400000] ∧ (0x800038, 0xffff8) ∈ s.live ∧ ¬ HeapOk s := by
  obtain ⟨s, hs, hchunks, hlive⟩ : ∃ s, Reach heapStep anyStep newHeap s ∧
    s.heap.chunks = [0x400000] ∧
      (0x800038, 0xffff8) ∈ s.live :=
    exists_reach [.malloc 0xffff8 (some 0x400000), .malloc 0xffff8 none, .malloc 0xffff8 none,
      .malloc 0xffff8 (some 0x800000), .free 0x400038, .free 0x800038, .malloc 0xffff8 none,
      .malloc 0xffff8 none]
      (by decide +kernel)
  refine ⟨s, heapInit_newHeap, hs, hchunks, hlive, ?_⟩
  intro hok
  obtain ⟨c, hc, -, hle, -⟩ := hok.payload _ hlive
  rw [hchunks, mem_singleton] at hc
  simp only [chunkSize] at hle
  omega

end Toddler.Malloc
