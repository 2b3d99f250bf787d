import Toddler.Proofs.Memmap

/-! `find_free_memmap_region` takes an aligned range out of the usable memory and leaves the rest.
Entries of size zero may lie anywhere in the map; they carry no address, and the claim of the range
may retype or merge them. -/

namespace Toddler

open List Nat MemmapEntry

/-- The working form of `MemmapDisjoint`. -/
structure Spaced (l : List MemmapEntry) : Prop where
  ordered : l.Pairwise fun a b => 0 < b.size → a.fin ≤ b.start
  u64 : ∀ e ∈ l, e.start < word ∧ e.size < word

variable {l : List MemmapEntry}

theorem MemmapDisjoint.spaced (h : MemmapDisjoint l) : Spaced l := by
  refine ⟨(h.sorted.and h.disjoint).imp fun {a b} hab hpos => ?_, h.u64⟩
  by_contra hlt
  refine hab.2 b.start ⟨⟨hab.1, by omega⟩, le_rfl, ?_⟩
  simp only [fin]
  omega

variable {e : MemmapEntry}

theorem spaced_cons :
    Spaced (e :: l) ↔ (∀ d ∈ l, 0 < d.size → e.fin ≤ d.start) ∧ (e.start < word ∧ e.size < word) ∧
    Spaced l := by
  constructor
  · intro h
    have ho := pairwise_cons.mp h.ordered
    exact ⟨ho.1, h.u64 e (by simp), ho.2, fun d hd => h.u64 d (by simp [hd])⟩
  · rintro ⟨hle, hu, h⟩
    exact ⟨pairwise_cons.mpr ⟨hle, h.ordered⟩, by simpa [hu] using h.u64⟩

theorem spaced_append {r : List MemmapEntry} :
    Spaced (l ++ r) ↔ Spaced l ∧ Spaced r ∧ ∀ a ∈ l, ∀ b ∈ r, 0 < b.size → a.fin ≤ b.start := by
  constructor
  · intro h
    obtain ⟨hl, hr, hlr⟩ := pairwise_append.mp h.ordered
    exact ⟨⟨hl, fun e he => h.u64 e (by simp [he])⟩, ⟨hr, fun e he => h.u64 e (by simp [he])⟩, hlr⟩
  · rintro ⟨hl, hr, hlr⟩
    refine ⟨pairwise_append.mpr ⟨hl.ordered, hr.ordered, hlr⟩, fun e he => ?_⟩
    exact (mem_append.mp he).elim (hl.u64 e) (hr.u64 e)

theorem usable_append (l r : List MemmapEntry) : usable (l ++ r) = usable l ∪ usable r := by
  ext x
  simp [usable, or_and_right, exists_or]

theorem usable_cons (e : MemmapEntry) (l : List MemmapEntry) :
    usable (e :: l) = usable [e] ∪ usable l :=
  usable_append [e] l

theorem mem_usable_singleton {x : ℕ} :
    x ∈ usable [e] ↔ e.flags = memmapUsable ∧ e.start ≤ x ∧ x < e.fin := by
  simp [usable]

def retyped (s : ℕ) (type : ℤ) (d : MemmapEntry) : MemmapEntry :=
  if d.start = s then { d with flags := type } else d

@[simp] theorem retyped_start (type : ℤ) (d : MemmapEntry) :
    (retyped s type d).start = d.start := by
  unfold retyped
  split_ifs <;> rfl

@[simp] theorem retyped_size (type : ℤ) (d : MemmapEntry) : (retyped s type d).size = d.size := by
  unfold retyped
  split_ifs <;> rfl

@[simp] theorem retyped_fin (type : ℤ) (d : MemmapEntry) : (retyped s type d).fin = d.fin := by
  simp [fin]

theorem usable_retyped {pre : List MemmapEntry} {s : ℕ} (type : ℤ) (h : ∀ d ∈ pre, d.fin ≤ s) :
    usable (pre.map (retyped s type)) = usable pre := by
  ext x
  simp only [usable, Set.mem_ofPred_eq, mem_map, exists_exists_and_eq_and, retyped_start,
    retyped_fin]
  refine exists_congr fun d => and_congr_right fun hd => and_congr_left fun hx => ?_
  have := h d hd
  rw [retyped, if_neg (by omega)]

variable {t : MemmapEntry}

theorem usable_carved {s e : ℕ} (ht : t.flags = memmapUsable) (hle : t.start ≤ s) (hse : s < e)
    (hfin : e ≤ t.fin) : usable (carved t s e memmapUsed) = usable [t] \ Set.Ico s e := by
  ext x
  rw [Set.mem_sdiff, mem_usable_singleton, Set.mem_Ico]
  constructor
  · rintro ⟨o, ho, hflags, hx⟩
    rcases mem_carved ho with ⟨hlt, rfl⟩ | rfl | ⟨hlt, rfl⟩
    · simp only [fin] at *
      exact ⟨⟨ht, by omega⟩, by omega⟩
    · exact absurd hflags (show memmapUsed ≠ memmapUsable by decide)
    · simp only [fin] at *
      exact ⟨⟨ht, by omega⟩, by omega⟩
  · rintro ⟨⟨-, hx⟩, hout⟩
    rcases lt_or_ge x s with h | h
    · refine ⟨{ t with size := s - t.start }, ?_, ht, hx.1, ?_⟩
      · simp [carved, show t.start < s by omega]
      · simp only [fin]
        omega
    · have he : e ≤ x := by
        by_contra hlt
        exact hout ⟨h, by omega⟩
      refine ⟨{ t with start := e, size := t.fin - e }, ?_, ht, he, ?_⟩
      · simp [carved, show e < t.fin by omega]
      · have := hx.2
        simp only [fin] at *
        omega

theorem claimLoop_skip {s e : ℕ} (hse : s < e) (he : e < word) (type : ℤ)
    (rest spare : List MemmapEntry) (fuel : ℕ)
    (pre : List MemmapEntry) : ∀ done : List MemmapEntry, (∀ d ∈ pre, d.fin ≤ s) →
      claimLoop e type (fuel + pre.length) ⟨done ++ (pre ++ rest), spare⟩ done.length s (e - s) =
        claimLoop e type fuel ⟨(done ++ pre.map (retyped s type)) ++ rest, spare⟩
          (done ++ pre.map (retyped s type)).length s (e - s) := by
  induction pre with
  | nil => intro done _; simp
  | cons d pre ih =>
    intro done hpre
    have hd := hpre d (by simp)
    have hround : claimLoop e type (fuel + pre.length + 1) ⟨done ++ d :: (pre ++ rest),
      spare⟩ done.length s (e - s) =
        claimLoop e type (fuel + pre.length) ⟨done ++ retyped s type d :: (pre ++ rest),
        spare⟩ (done.length + 1)
          s (e - s) := by
      by_cases h : d.start = s
      · have hfin : d.fin = s := by
          simp only [fin] at hd ⊢
          omega
        rw [retyped, if_pos h]
        subst h
        rw [claimLoop_whole hse (hd.trans hse.le) he, hfin]
        simp
      · have hlt : d.start < s := by
          simp only [fin] at hd
          omega
        rw [retyped, if_neg h, claimLoop_past hlt hd hse he (by omega)]
        simp
    rw [length_cons, ← add_assoc, cons_append, hround]
    have := ih (done ++ [retyped s type d]) fun a ha => hpre a (by simp [ha])
    simpa using this

structure FitsIn (t : MemmapEntry) (s e : ℕ) : Prop where
  usable : t.flags = memmapUsable
  lower : t.start ≤ s
  lt : s < e
  upper : e ≤ t.fin
  noWrap : t.fin < word

section Claim

variable {pre post : List MemmapEntry} {t : MemmapEntry} {s e : ℕ}

theorem FitsIn.before (h : FitsIn t s e) (hsp : Spaced (pre ++ t :: post)) {d : MemmapEntry}
    (hd : d ∈ pre) : d.fin ≤ t.start := by
  have hpos : 0 < t.size := by
    have := h.lower
    have := h.lt
    have := h.upper
    simp only [fin] at *
    omega
  exact (spaced_append.mp hsp).2.2 d hd t (by simp) hpos

theorem claimMemmapRegion_inside (spare : List MemmapEntry) (h : FitsIn t s e)
    (hsp : Spaced (pre ++ t :: post)) (type : ℤ) :
    claimMemmapRegion ⟨pre ++ t :: post, spare⟩ s (e - s) type = if (carved t s e type).length ≤
    spare.length + 1 then
        some (mergeConsecutiveRegions ⟨pre.map (retyped s type) ++ (carved t s e type ++ post),
          spare.drop ((carved t s e type).length - 1)⟩)
      else none := by
  have he : e < word := h.upper.trans_lt h.noWrap
  have hfuel : Memmap.numSlots ⟨pre ++ t :: post, spare⟩ + 2 =
      post.length + spare.length + 1 + 2 + pre.length := by
    simp only [Memmap.numSlots, length_append, length_cons]
    omega
  have hskip := claimLoop_skip h.lt he type (t :: post) spare (post.length + spare.length + 1 +
    2) pre [] fun d hd => (h.before hsp hd).trans h.lower
  simp only [nil_append, length_nil] at hskip
  rw [claimMemmapRegion, hfuel, add64_of_lt (show s + (e - s) < word by have := h.lt; omega),
    Nat.add_sub_cancel' h.lt.le, hskip,
    claimLoop_carve type _ post spare _ h.lower h.lt h.upper h.noWrap]
  split_ifs <;> rfl

theorem spaced_claimed (h : FitsIn t s e) (hsp : Spaced (pre ++ t :: post)) (type : ℤ) :
    Spaced (pre.map (retyped s type) ++ (carved t s e type ++ post)) := by
  obtain ⟨hpre, ht, hcross⟩ := spaced_append.mp hsp
  obtain ⟨hpost, hu, hrest⟩ := spaced_cons.mp ht
  have hc : Tidy (carved t s e type) := tidy_carved h.lower h.lt h.upper h.noWrap
  refine spaced_append.mpr ⟨⟨?_, ?_⟩, spaced_append.mpr ⟨⟨?_, ?_⟩, hrest, ?_⟩, ?_⟩
  · exact pairwise_map.mpr (hpre.ordered.imp fun {a b} hab => by simpa using hab)
  · simpa using hpre.u64
  · exact hc.ordered.imp fun {a b} hab (_ : 0 < b.size) => hab
  · intro o ho
    have := hc.noWrap o ho
    simp only [fin] at this
    omega
  · intro a ha b hb hpos
    exact (bounds_of_mem_carved h.lower h.lt h.upper ha).2.trans (hpost b hb hpos)
  · intro a ha b hb hpos
    obtain ⟨d, hd, rfl⟩ := mem_map.mp ha
    rw [retyped_fin]
    rcases mem_append.mp hb with hb | hb
    · exact (h.before hsp hd).trans (bounds_of_mem_carved h.lower h.lt h.upper hb).1
    · exact hcross d hd b (by simp [hb]) hpos

theorem usable_claimed (h : FitsIn t s e) (hsp : Spaced (pre ++ t :: post)) :
    usable (pre.map (retyped s memmapUsed) ++ (carved t s e memmapUsed ++ post)) =
      usable (pre ++ t :: post) \ Set.Ico s e := by
  have hpre : Disjoint (usable pre) (Set.Ico s e) := by
    rw [Set.disjoint_left]
    rintro x ⟨d, hd, -, hx⟩ hin
    have := (h.before hsp hd).trans h.lower
    have := hin.1
    omega
  have hpost : Disjoint (usable post) (Set.Ico s e) := by
    rw [Set.disjoint_left]
    rintro x ⟨d, hd, -, hx⟩ hin
    have hpos : 0 < d.size := by
      simp only [fin] at hx
      omega
    have := (spaced_cons.mp (spaced_append.mp hsp).2.1).1 d hd hpos
    have := h.upper
    have := hin.2
    omega
  rw [usable_append, usable_append, usable_retyped _ fun d hd => (h.before hsp hd).trans h.lower,
    usable_carved h.usable h.lower h.lt h.upper, usable_append, usable_cons t post,
    Set.union_sdiff_distrib,
    Set.union_sdiff_distrib, hpre.sdiff_eq_left, hpost.sdiff_eq_left]

theorem fin_claimed (h : FitsIn t s e) (type : ℤ) :
    ∀ o ∈ pre.map (retyped s type) ++ (carved t s e type ++ post), ∃ d ∈ pre ++ t :: post,
    o.fin ≤ d.fin := by
  intro o ho
  simp only [mem_append, mem_map] at ho
  rcases ho with ⟨d, hd, rfl⟩ | ho | ho
  · exact ⟨d, by simp [hd], by simp⟩
  · exact ⟨t, by simp, (bounds_of_mem_carved h.lower h.lt h.upper ho).2⟩
  · exact ⟨o, by simp [ho], le_rfl⟩

end Claim

/-- What the size of two merged entries can be. It wraps when the two are the whole address
space. -/
theorem merged_size {a b : MemmapEntry} (ha : a.start < word ∧ a.size < word)
    (hb : b.start < word ∧ b.size < word)
    (hfin : b.fin ≤ word) (hord : 0 < b.size →
    a.fin ≤ b.start) (hm : add64 a.start a.size = b.start) :
    (b.size = 0 ∧ add64 a.size b.size = a.size) ∨
      (0 < b.size ∧ a.fin = b.start ∧ add64 a.size b.size = a.size + b.size) ∨
      (0 < b.size ∧ a.fin = b.start ∧ a.start = 0 ∧ b.fin = word ∧ add64 a.size b.size = 0) := by
  simp only [fin] at *
  rcases Nat.eq_zero_or_pos b.size with hz | hpos
  · rw [hz] at *
    exact .inl ⟨rfl, Nat.mod_eq_of_lt ha.2⟩
  · have hle := hord hpos
    rw [add64_of_lt (by omega)] at hm
    rcases add64_cases ha.2 hb.2 with ⟨hlt, heq⟩ | ⟨hge, heq⟩
    · exact .inr (.inl ⟨hpos, hm, heq⟩)
    · exact .inr (.inr ⟨hpos, hm, by omega, by omega, by omega⟩)

/-- What merging makes of a map. -/
structure Coalesced (l out : List MemmapEntry) : Prop where
  spaced : Spaced out
  start : ∀ o ∈ out, 0 < o.size → ∃ d ∈ l, 0 < d.size ∧ d.start = o.start
  fin : ∀ o ∈ out, ∃ d ∈ l, o.fin ≤ d.fin
  usable : (∃ x < word, x ∉ usable l) → usable out = usable l

theorem Coalesced.refl (h : Spaced l) : Coalesced l l :=
  ⟨h, fun o ho hpos => ⟨o, ho, hpos, rfl⟩, fun o ho => ⟨o, ho, le_rfl⟩, fun _ => rfl⟩

theorem Coalesced.trans {l' out : List MemmapEntry} (h : Coalesced l l') (h' : Coalesced l' out) :
    Coalesced l out := by
  refine ⟨h'.spaced, fun o ho hpos => ?_, fun o ho => ?_, fun hx => ?_⟩
  · obtain ⟨d, hd, hdpos, hdo⟩ := h'.start o ho hpos
    obtain ⟨c, hc, hcpos, hcd⟩ := h.start d hd hdpos
    exact ⟨c, hc, hcpos, hcd.trans hdo⟩
  · obtain ⟨d, hd, hdo⟩ := h'.fin o ho
    obtain ⟨c, hc, hcd⟩ := h.fin d hd
    exact ⟨c, hc, hdo.trans hcd⟩
  · have := h.usable hx
    rw [h'.usable (by rwa [this]), this]

theorem Coalesced.cons {out : List MemmapEntry} (h : Coalesced l out) (hs : Spaced (e :: l)) :
    Coalesced (e :: l) (e :: out) := by
  obtain ⟨hle, hu, -⟩ := spaced_cons.mp hs
  refine ⟨spaced_cons.mpr ⟨fun o ho hpos => ?_, hu, h.spaced⟩, fun o ho hpos => ?_, fun o ho => ?_,
    fun hx => ?_⟩
  · obtain ⟨d, hd, hdpos, hdo⟩ := h.start o ho hpos
    rw [← hdo]
    exact hle d hd hdpos
  · rcases mem_cons.mp ho with rfl | ho
    · exact ⟨o, by simp, hpos, rfl⟩
    · obtain ⟨d, hd, hd'⟩ := h.start o ho hpos
      exact ⟨d, by simp [hd], hd'⟩
  · rcases mem_cons.mp ho with rfl | ho
    · exact ⟨o, by simp, le_rfl⟩
    · obtain ⟨d, hd, hdo⟩ := h.fin o ho
      exact ⟨d, by simp [hd], hdo⟩
  · obtain ⟨x, hlt, hx⟩ := hx
    rw [usable_cons] at hx
    rw [usable_cons, usable_cons e l, h.usable ⟨x, hlt, fun h => hx (.inr h)⟩]

theorem coalesced_pair {a b : MemmapEntry} (h : Spaced (a :: b :: l)) (hfin : b.fin ≤ word)
    (hm : add64 a.start a.size = b.start) (hflags : a.flags = b.flags) :
    Coalesced (a :: b :: l) ({ a with size := add64 a.size b.size } :: l) := by
  obtain ⟨hle, hu, hbl⟩ := spaced_cons.mp h
  obtain ⟨hle', hu', hl⟩ := spaced_cons.mp hbl
  have hcases := merged_size hu hu' hfin (hle b (by simp)) hm
  refine ⟨spaced_cons.mpr ⟨fun d hd hpos => ?_, ⟨hu.1, mod_lt _ (by decide)⟩, hl⟩,
    fun o ho hpos => ?_, fun o ho => ?_, fun hx => ?_⟩
  · have h1 := hle d (by simp [hd]) hpos
    have h2 := hle' d hd hpos
    simp only [fin] at *
    omega
  · rcases mem_cons.mp ho with rfl | ho
    · rcases Nat.eq_zero_or_pos a.size with hz | hz
      · refine ⟨b, by simp, ?_, ?_⟩
        · simp only [fin] at *
          omega
        · rw [← hm, hz]
          exact Nat.mod_eq_of_lt hu.1
      · exact ⟨a, by simp, hz, rfl⟩
    · exact ⟨o, by simp [ho], hpos, rfl⟩
  · rcases mem_cons.mp ho with rfl | ho
    · rcases hcases with ⟨-, hs⟩ | ⟨-, hab, hs⟩ | ⟨-, -, -, -, hs⟩
      · exact ⟨a, by simp, by simp [hs]⟩
      · exact ⟨b, by simp, by simp only [fin] at *; omega⟩
      · exact ⟨a, by simp, by simp [fin, hs]⟩
    · exact ⟨o, by simp [ho], le_rfl⟩
  · rw [usable_cons, usable_cons a, usable_cons b, ← Set.union_assoc]
    congr 1
    ext x
    simp only [Set.mem_union, mem_usable_singleton, fin]
    rcases hcases with ⟨hz, hs⟩ | ⟨-, hab, hs⟩ | ⟨-, hab, h0, hw, hs⟩
    · rw [hs]
      omega
    · simp only [fin] at hab
      omega
    · -- the two entries are the whole address space, so they are not usable
      obtain ⟨y, hy, hout⟩ := hx
      rw [usable_cons, usable_cons b, Set.mem_union, Set.mem_union, mem_usable_singleton,
        mem_usable_singleton] at hout
      omega

theorem mergeLoop_coalesced (l : List MemmapEntry) : ∀ e : MemmapEntry, Spaced (e :: l) →
    (∀ d ∈ e :: l, d.fin ≤ word) → Coalesced (e :: l) (mergeLoop e l).1 := by
  induction l with
  | nil =>
    intro e h _
    exact Coalesced.refl h
  | cons next rest ih =>
    intro e h hfin
    rw [mergeLoop]
    by_cases hm : add64 e.start e.size = next.start ∧ e.flags = next.flags
    · rw [if_pos hm]
      have hpair := coalesced_pair h (hfin next (by simp)) hm.1 hm.2
      refine hpair.trans (ih _ hpair.spaced fun d hd => ?_)
      obtain ⟨c, hc, hdc⟩ := hpair.fin d hd
      exact hdc.trans (hfin c hc)
    · rw [if_neg hm]
      exact (ih next (spaced_cons.mp h).2.2 fun d hd => hfin d (by simp [hd])).cons h

theorem mergeConsecutiveRegions_coalesced {m : Memmap} (h : Spaced m.entries)
    (hfin : ∀ d ∈ m.entries, d.fin ≤ word) :
    Coalesced m.entries (mergeConsecutiveRegions m).entries ∧
      m.spare.length ≤ (mergeConsecutiveRegions m).spare.length := by
  obtain ⟨entries, spare⟩ := m
  cases entries with
  | nil => exact ⟨Coalesced.refl h, le_rfl⟩
  | cons e rest => exact ⟨mergeLoop_coalesced rest e h hfin, by simp [mergeConsecutiveRegions]⟩

variable {a : ℕ}

theorem popcount64_le_one (h : a = 0 ∨ ∃ k < 64, a = 2 ^ k) : popcount64 a ≤ 1 := by
  rcases h with rfl | ⟨k, -, rfl⟩
  · decide
  · have : popcount64 (2 ^ k) = (List.range 64).count k := by
      refine countP_congr fun i _ => ?_
      rw [testBit_two_pow, decide_eq_true_eq, beq_iff_eq, eq_comm]
    rw [this]
    exact nodup_iff_count_le_one.mp nodup_range k

theorem alignUp64_spec {s : ℕ} (ha : ∃ k < 64, a = 2 ^ k) (hs : s + a ≤ word) :
    a ∣ alignUp64 s a ∧ s ≤ alignUp64 s a ∧ alignUp64 s a < s + a := by
  obtain ⟨k, hk, rfl⟩ := ha
  have hpos : 0 < 2 ^ k := Nat.two_pow_pos k
  have hlt : 2 ^ k < word := Nat.pow_lt_pow_right (by decide) hk
  rw [alignUp64, sub64_of_le (show 1 ≤ 2 ^ k from hpos) hlt, add64_of_lt (by omega),
    show 0xffffffffffffffff = 2 ^ 64 - 1 by
    norm_num, and_not_low (by unfold word at hs; omega) hk.le]
  have hdiv := Nat.div_add_mod (s + (2 ^ k - 1)) (2 ^ k)
  exact ⟨Nat.dvd_mul_right _ _, by omega, by omega⟩

/-- What a call that returned `addr` has made of `m`. -/
structure Taken (m m' : Memmap) (c : FindFree) (addr : ℕ) : Prop where
  spaced : Spaced m'.entries
  fin : ∀ o ∈ m'.entries, ∃ d ∈ m.entries, o.fin ≤ d.fin
  slots : m.spare.length ≤ m'.spare.length + 2
  aligned : c.align ≠ 0 → c.align ∣ addr
  inside : c.range addr ⊆ usable m.entries
  rest : usable m'.entries = usable m.entries \ c.range addr

variable {c : FindFree}

theorem alignedStart_spec (halign : c.align = 0 ∨ ∃ k < 64, c.align = 2 ^ k)
    (hbelow : e.fin + c.align ≤ word) :
    (c.align ≠ 0 → c.align ∣ c.alignedStart e) ∧ e.start ≤ c.alignedStart e := by
  unfold FindFree.alignedStart
  by_cases h0 : c.align = 0
  · simp [h0]
  · simp only [fin] at hbelow
    rw [if_pos h0]
    obtain ⟨hdvd, hle, -⟩ := alignUp64_spec (halign.resolve_left h0) (show e.start + c.align ≤
      word by omega)
    exact ⟨fun _ => hdvd, hle⟩

theorem FindFree.Proper.fits (hc : c.Proper l) (he : e ∈ l)
    (h : c.accepts e = true) : FitsIn e (c.alignedStart e) (c.alignedStart e + c.size) := by
  simp only [FindFree.accepts, decide_eq_true_eq] at h
  obtain ⟨hflags, -, hlt, hroom, -⟩ := h
  have hbelow := hc.below e he
  have hle := (alignedStart_spec hc.align hbelow).2
  have hpos := hc.pos
  have hwrap : e.fin < word := by
    by_contra hge
    have : add64 e.start e.size = 0 := by
      rw [add64, show e.start + e.size = word by simp only [fin] at *; omega, mod_self]
    omega
  have hend : add64 e.start e.size = e.fin := add64_of_lt hwrap
  rw [hend] at hlt hroom
  rw [sub64_of_le hlt.le hwrap] at hroom
  exact ⟨hflags, hle, by omega, by omega, hwrap⟩

theorem FitsIn.subset_usable {s e : ℕ} (h : FitsIn t s e) (ht : t ∈ l) :
    Set.Ico s e ⊆ Toddler.usable l := fun _ hx =>
  ⟨t, ht, h.usable, h.lower.trans hx.1, hx.2.trans_le h.upper⟩

/-- A call finds nothing, or runs out of slots, or takes its range out of the usable memory. -/
theorem findFreeMemmapRegion_outcome {m : Memmap} (hs : Spaced m.entries)
    (hc : c.Proper m.entries) : findFreeMemmapRegion m c = some (m, 0) ∨
    (findFreeMemmapRegion m c = none ∧ m.spare.length < 2) ∨
      ∃ m' addr, findFreeMemmapRegion m c = some (m', addr) ∧ Taken m m' c addr := by
  rw [findFreeMemmapRegion, if_neg (not_lt.mpr (popcount64_le_one hc.align))]
  cases hfind : m.entries.find? c.accepts with
  | none => exact .inl rfl
  | some t =>
    right
    obtain ⟨haccepts, pre, post, hentries, -⟩ := find?_eq_some_iff_append.mp hfind
    obtain ⟨entries, spare⟩ := m
    subst hentries
    have hfits := hc.fits (by simp) haccepts
    have hclaim := claimMemmapRegion_inside spare hfits hs memmapUsed
    rw [Nat.add_sub_cancel_left] at hclaim
    simp only [hclaim]
    have hlen := @length_carved_le t (c.alignedStart t) (c.alignedStart t + c.size) memmapUsed
    split_ifs with hroom
    · right
      refine ⟨_, _, rfl, ?_⟩
      have hspaced := spaced_claimed hfits hs memmapUsed
      have hfin := @fin_claimed pre post t _ _ hfits memmapUsed
      have husable := usable_claimed hfits hs
      obtain ⟨hmerged, hslots⟩ := mergeConsecutiveRegions_coalesced (m := ⟨_, spare.drop
        ((carved t (c.alignedStart t) (c.alignedStart t + c.size) memmapUsed).length - 1)⟩) hspaced
        fun d hd => by
          obtain ⟨b, hb, hdb⟩ := hfin d hd
          have := hc.below b hb
          omega
      refine ⟨hmerged.spaced, fun o ho => ?_, ?_,
        (alignedStart_spec hc.align (hc.below t (by simp))).1, hfits.subset_usable (by simp), ?_⟩
      · obtain ⟨b, hb, hob⟩ := hmerged.fin o ho
        obtain ⟨d, hd, hbd⟩ := hfin b hb
        exact ⟨d, hd, hob.trans hbd⟩
      · simp only [length_drop] at hslots ⊢
        omega
      · -- the address at which the range starts is not usable any more
        refine (hmerged.usable ⟨c.alignedStart t, ?_, ?_⟩).trans husable
        · have := hfits.upper
          have := hfits.noWrap
          omega
        · rw [husable]
          exact fun hx => hx.2 ⟨le_rfl, hfits.lt⟩
    · exact .inl ⟨rfl, show spare.length < 2 by omega⟩

theorem FindFree.Proper.of_fin {l' : List MemmapEntry} (h : c.Proper l)
    (hfin : ∀ o ∈ l', ∃ d ∈ l, o.fin ≤ d.fin) : c.Proper l' := by
  refine ⟨h.pos, h.align, fun o ho => ?_⟩
  obtain ⟨d, hd, hod⟩ := hfin o ho
  exact (Nat.add_le_add_right hod _).trans (h.below d hd)

theorem Allocated.nil (m : Memmap) : Allocated m m [] [] := ⟨by simp, by simp, by simp, by simp⟩

theorem Allocated.cons {m m1 m' : Memmap} {addr : ℕ} {calls : List FindFree} {addrs : List ℕ}
    (ht : Taken m m1 c addr) (h : Allocated m1 m' calls addrs) :
    Allocated m m' (c :: calls) (addr :: addrs) := by
  have hsub p (hp : p ∈ calls.zip addrs) : p.1.range p.2 ⊆ usable m.entries \ c.range addr := by
    rw [← ht.rest]
    exact h.inside p hp
  refine ⟨?_, ?_, ?_, ?_⟩
  · simp only [zip_cons_cons, forall_mem_cons]
    exact ⟨ht.aligned, h.aligned⟩
  · simp only [zip_cons_cons, forall_mem_cons]
    exact ⟨ht.inside, fun p hp => (hsub p hp).trans Set.sdiff_subset⟩
  · rw [zip_cons_cons, pairwise_cons]
    exact ⟨fun p hp => Set.disjoint_right.mpr fun x hx => (hsub p hp hx).2, h.disjoint⟩
  · rw [h.rest, ht.rest, Set.sdiff_sdiff]
    simp

theorem findFreeMemmapRegions_run (calls : List FindFree) : ∀ m : Memmap, Spaced m.entries →
    (∀ c ∈ calls, c.Proper m.entries) →
    (2 * calls.length ≤ m.spare.length → (findFreeMemmapRegions m calls).isSome) ∧
        ∀ m' addrs, findFreeMemmapRegions m calls = some (m', addrs) → (∀ a ∈ addrs, a ≠ 0) →
          Allocated m m' calls addrs := by
  induction calls with
  | nil =>
    intro m _ _
    refine ⟨fun _ => rfl, fun m' addrs h _ => ?_⟩
    obtain ⟨rfl, rfl⟩ := Prod.mk.inj (Option.some.inj h)
    exact Allocated.nil m
  | cons c calls ih =>
    intro m hs hc
    have htail d (hd : d ∈ calls) := hc d (by simp [hd])
    rw [findFreeMemmapRegions]
    rcases findFreeMemmapRegion_outcome hs (hc c (by simp)) with h | ⟨h, hslots⟩ | ⟨m1, addr, h, ht⟩
    · obtain ⟨hsome, -⟩ := ih m hs htail
      simp only [h, Option.bind_some, Option.isSome_map, length_cons]
      refine ⟨fun hroom => hsome (by omega), fun m' addrs hrun hne => ?_⟩
      obtain ⟨r, -, hr⟩ := Option.map_eq_some_iff.mp hrun
      obtain ⟨-, rfl⟩ := Prod.mk.inj hr
      exact absurd rfl (hne 0 (by simp))
    · simp only [h, length_cons]
      exact ⟨fun hroom => by omega, by simp⟩
    · obtain ⟨hsome, hprops⟩ := ih m1 ht.spaced fun d hd => (htail d hd).of_fin ht.fin
      have hleft := ht.slots
      simp only [h, Option.bind_some, Option.isSome_map, length_cons]
      refine ⟨fun hroom => hsome (by omega), fun m' addrs hrun hne => ?_⟩
      obtain ⟨r, hr, hr'⟩ := Option.map_eq_some_iff.mp hrun
      obtain ⟨rfl, rfl⟩ := Prod.mk.inj hr'
      exact Allocated.cons ht (hprops r.1 r.2 hr fun a ha => hne a (by simp [ha]))

/-- Two slots for each call are enough, and calls that return non-zero addresses take aligned,
disjoint ranges out of the usable memory and nothing else. A part of the calls is a sequence of
calls too, so this holds after each of them. -/
theorem find_free_takes_usable (m : Memmap) (calls : List FindFree) (hm : MemmapDisjoint m.entries)
    (hcalls : ∀ c ∈ calls, c.Proper m.entries) :
    (2 * calls.length ≤ m.spare.length → (findFreeMemmapRegions m calls).isSome) ∧
      ∀ m' addrs, findFreeMemmapRegions m calls = some (m', addrs) → (∀ a ∈ addrs, a ≠ 0) →
        Allocated m m' calls addrs :=
  findFreeMemmapRegions_run calls m hm.spaced hcalls

theorem find_free_takes_usable_twice :
    ∃ m', findFreeMemmapRegions ⟨[⟨0x1000, 0x4000, 1, 0⟩, ⟨0x5000, 0, 4, 0⟩,
    ⟨0x5000, 0x1000, 2, 0⟩],
        List.replicate 4 ⟨0, 0, 0, 0⟩⟩ [⟨0x100, 0x2000, 0, .ignore⟩, ⟨0x800, 0, 3, .unsetAll⟩] =
          some (m', [0x2000, 0x1000]) ∧
      Allocated ⟨[⟨0x1000, 0x4000, 1, 0⟩, ⟨0x5000, 0, 4, 0⟩, ⟨0x5000, 0x1000, 2, 0⟩],
        List.replicate 4 ⟨0, 0, 0, 0⟩⟩ m' [⟨0x100, 0x2000, 0, .ignore⟩,
        ⟨0x800, 0, 3, .unsetAll⟩] [0x2000, 0x1000] := by
  refine ⟨_, rfl, (find_free_takes_usable _ _ ⟨?_, ?_, ?_⟩ ?_).2 _ _ rfl (by decide)⟩
  · decide
  · simp only [pairwise_cons, mem_cons, not_mem_nil, or_false, fin]
    refine ⟨?_, ?_, by simp, List.Pairwise.nil⟩
    · rintro b (rfl | rfl) x
      · simp
      · simp
        omega
    · rintro b rfl x
      simp
  · decide
  · simp only [forall_mem_cons]
    exact ⟨⟨by decide, .inr ⟨13, by decide⟩, by decide⟩, ⟨by decide, .inl rfl, by decide⟩, by simp⟩

theorem align_of_popcount64 (ha : a < word) (h : popcount64 a ≤ 1) :
    a = 0 ∨ ∃ k < 64, a = 2 ^ k := by
  by_cases h0 : a = 0
  · exact .inl h0
  right
  obtain ⟨k, hk⟩ := Nat.exists_testBit_of_ne_zero h0
  have hlt i (hi : a.testBit i = true) : i < 64 := by
    by_contra hge
    have hsmall : a < 2 ^ i := ha.trans_le (Nat.pow_le_pow_right (by decide) (Nat.not_lt.mp hge))
    rw [Nat.testBit_lt_two_pow hsmall] at hi
    cases hi
  refine ⟨k, hlt k hk, Nat.eq_of_testBit_eq fun i => ?_⟩
  rw [Nat.testBit_two_pow, Bool.eq_iff_iff, decide_eq_true_eq]
  refine ⟨fun hi => ?_, fun hi => hi ▸ hk⟩
  -- two different bits would be counted twice
  by_contra hne
  have hsub : [k, i].Subperm ((List.range 64).filter fun j => a.testBit j) := by
    refine List.Nodup.subperm (by simpa using hne) fun j hj => ?_
    rcases mem_pair.mp hj with rfl | rfl
    · exact mem_filter.mpr ⟨mem_range.mpr (hlt _ hk), hk⟩
    · exact mem_filter.mpr ⟨mem_range.mpr (hlt _ hi), hi⟩
  have hlen := hsub.length_le
  rw [← countP_eq_length_filter] at hlen
  have htwo : 2 ≤ popcount64 a := hlen
  omega

/-- The aligned start is 0 for an entry at address 0, and where rounding up wraps. -/
theorem alignedStart_eq_zero_iff (halign : c.align < word) (hpop : popcount64 c.align ≤ 1)
    (he : e.start < word) : c.alignedStart e = 0 ↔ e.start = 0 ∨ word < e.start + c.align := by
  unfold FindFree.alignedStart
  rcases align_of_popcount64 halign hpop with h0 | ⟨k, hk, hpow⟩
  · simp only [h0, ne_eq, not_true_eq_false, if_false]
    omega
  have hpos : 0 < 2 ^ k := Nat.two_pow_pos k
  have hword : 0xffffffffffffffff = 2 ^ 64 - 1 := by norm_num
  rw [hpow] at halign ⊢
  have hsum : add64 e.start (2 ^ k - 1) < 2 ^ 64 := Nat.mod_lt _ (by decide)
  rw [if_pos hpos.ne', alignUp64, sub64_of_le (show 1 ≤ 2 ^ k from hpos) halign, hword,
    and_not_low hsum hk.le, Nat.mul_eq_zero, Nat.div_eq_zero_iff_lt hpos]
  rcases add64_cases he (show 2 ^ k - 1 < word by omega) with ⟨hlt, heq⟩ | ⟨hge, heq⟩ <;> omega

variable {m m' : Memmap} {size align : ℕ}

/-- A call that returns has found nothing, or has claimed its range in the first entry that suits
it. -/
theorem findFreeMemmapRegion_cases {addr : ℕ} (h : findFreeMemmapRegion m c = some (m', addr)) :
    popcount64 c.align ≤ 1 ∧ ((m.entries.find? c.accepts = none ∧ m' = m ∧ addr = 0 ∧
    c.claims m = []) ∨
      ∃ e, m.entries.find? c.accepts = some e ∧ addr = c.alignedStart e ∧
      c.claims m = [(addr, c.size)]) := by
  unfold findFreeMemmapRegion at h
  split_ifs at h with hpop
  refine ⟨not_lt.mp hpop, ?_⟩
  cases hfind : m.entries.find? c.accepts with
  | none =>
    rw [hfind] at h
    obtain ⟨rfl, rfl⟩ := Prod.mk.inj (Option.some.inj h)
    exact .inl ⟨rfl, rfl, rfl, by rw [FindFree.claims, hfind]⟩
  | some e =>
    rw [hfind] at h
    obtain ⟨m1, -, hr⟩ := Option.map_eq_some_iff.mp h
    obtain ⟨-, rfl⟩ := Prod.mk.inj hr
    exact .inr ⟨e, rfl, rfl, by rw [FindFree.claims, hfind]⟩

section Claimable

variable {fin pos : ℕ} {d : MemmapEntry} {l spare : List MemmapEntry}

theorem claimable_iff_of_after (h : ∀ d ∈ l, fin ≤ d.start) : Claimable l spare pos fin ↔
    spare ≠ [] := by
  refine ⟨fun hc => hc.slot.resolve_right ?_,
    fun hs => ⟨fun d hd hlt => absurd (h d hd) (not_le.mpr hlt), .inl hs⟩⟩
  rintro ⟨p, hp, hpos, hfin⟩
  have := h p hp
  simp only [MemmapEntry.fin] at hfin
  omega

theorem claimable_cons_iff (hd : d.fin ≤ pos ∨ d.start = pos) (hfin : d.fin < fin) :
    Claimable (d :: l) spare pos fin ↔ Claimable l spare (max pos d.fin) fin := by
  constructor
  · rintro ⟨hgap, hslot⟩
    refine ⟨fun e he hlt x hx hxe => ?_, hslot.imp_right ?_⟩
    · obtain ⟨p, hp, hpx⟩ := hgap e (mem_cons_of_mem _ he) hlt x (by omega) hxe
      rcases mem_cons.mp hp with rfl | hp
      · omega
      · exact ⟨p, hp, hpx⟩
    · rintro ⟨p, hp, hsize, hpfin⟩
      rcases mem_cons.mp hp with rfl | hp
      · omega
      · exact ⟨p, hp, hsize, hpfin⟩
  · rintro ⟨hgap, hslot⟩
    refine ⟨fun e he hlt x hx hxe => ?_, hslot.imp_right ?_⟩
    · by_cases hxd : x < d.fin
      · exact ⟨d, by simp, by omega, hxd⟩
      · rcases mem_cons.mp he with rfl | he
        · simp only [MemmapEntry.fin] at hxd
          omega
        · obtain ⟨p, hp, hpx⟩ := hgap e he hlt x (by omega) hxe
          exact ⟨p, by simp [hp], hpx⟩
    · rintro ⟨p, hp, hpfin⟩
      exact ⟨p, by simp [hp], hpfin⟩

theorem claimable_cons_iff_of_lt (hfin : d.start ≤ fin ∧ fin < d.fin)
    (hord : ∀ p ∈ l, 0 < p.size → d.fin ≤ p.start) : Claimable (d :: l) spare d.start fin ↔
    spare ≠ [] := by
  constructor
  · intro h
    refine h.slot.resolve_right ?_
    rintro ⟨p, hp, hsize, hpfin⟩
    rcases mem_cons.mp hp with rfl | hp
    · omega
    · have := hord p hp hsize
      simp only [MemmapEntry.fin] at *
      omega
  · exact fun hs => ⟨fun e _ hlt x hx hxe => ⟨d, by simp, hx, by omega⟩, .inl hs⟩

theorem isSome_splitEntry_cut {offset : ℕ} (pre l : List MemmapEntry) (sp : MemmapEntry)
    (spare : List MemmapEntry) (h : offset < d.size) : ∃ m, splitEntry ⟨pre ++ d :: l,
    sp :: spare⟩ pre.length offset = some m := by
  simp [splitEntry, if_neg (Nat.not_le.mpr h), insertEntry_cut_succ]

theorem claimLoop_isSome_iff (hfin : fin < word) (type : ℤ) (rest : List MemmapEntry) :
    ∀ (pre spare : List MemmapEntry) (pos fuel : ℕ), MemmapDisjoint rest →
    (∀ d ∈ rest, 0 < d.size → pos ≤ d.start) →
      pos < fin → rest.length + 2 ≤ fuel →
      (((claimLoop fin type fuel ⟨pre ++ rest, spare⟩ pre.length pos (fin - pos)).bind
        (claimAppend type)).isSome ↔ Claimable rest spare pos fin) := by
  induction rest with
  | nil =>
    intro pre spare pos fuel _ _ hlt hfuel
    obtain ⟨fuel, rfl⟩ := Nat.exists_eq_add_of_le' (show 2 ≤ fuel by simpa using hfuel)
    rw [claimable_iff_of_after (by simp), claimLoop_insert (by simp) (by omega)]
    cases spare <;> simp
  | cons d rest ih =>
    intro pre spare pos fuel hm hpos hlt hfuel
    obtain ⟨fuel, rfl⟩ := Nat.exists_eq_add_of_le' (show 2 ≤ fuel by simp at hfuel; omega)
    have hsp := spaced_cons.mp hm.spaced
    have hrest : MemmapDisjoint rest :=
      ⟨hm.sorted.tail, hm.disjoint.tail, fun e he => hm.u64 e (by simp [he])⟩
    have hsort := (pairwise_cons.mp hm.sorted).1
    have hdfin : d.fin = d.start + d.size := rfl
    have hne : fin - pos ≠ 0 := by omega
    simp only [length_cons] at hfuel
    by_cases hafter : fin ≤ d.start
    · rw [claimable_iff_of_after (by simpa [hafter] using fun e he => hafter.trans (hsort e he)),
        claimLoop_insert (by simpa using hafter) hne]
      cases spare <;> simp
    by_cases hgap : pos < d.start
    · rw [claimLoop_gap fin type _ pre rest spare d pos _ hgap (by omega) (by omega) (by omega) hne]
      refine iff_of_false (by simp) fun h => ?_
      obtain ⟨p, hp, hpx⟩ := h.noGap d (by simp) (by omega) pos le_rfl hgap
      rcases mem_cons.mp hp with rfl | hp
      · omega
      · have := hsort p hp
        omega
    by_cases hstart : pos = d.start
    · subst hstart
      by_cases hwhole : d.fin ≤ fin
      · rw [claimLoop_whole hlt hwhole hfin]
        rcases hwhole.lt_or_eq with hend | hend
        · rw [claimable_cons_iff (.inr rfl) hend, max_eq_right (by omega)]
          exact ih _ spare d.fin _ hrest hsp.1 hend (by omega)
        · rw [hend, Nat.sub_self, claimLoop_zero]
          refine iff_of_true (by simp [claimAppend]) ⟨fun e he hlt x hx hxe => ?_,
            .inr ⟨d, by simp, by omega, hend⟩⟩
          exact ⟨d, by simp, hx, by omega⟩
      · rw [claimLoop, claimable_cons_iff_of_lt (by omega) hsp.1]
        simp only [getElem?_cut, hne, if_false, if_neg hafter, if_neg hgap, if_true,
          if_neg (show ¬ d.size ≤ fin - d.start by omega)]
        cases spare with
        | nil => simp [splitEntry_full]
        | cons sp spare =>
          obtain ⟨m, hsplit⟩ :=
            isSome_splitEntry_cut pre rest sp spare (by omega : fin - d.start < d.size)
          simp [hsplit, claimLoop_zero, claimAppend]
    · have hzero : d.size = 0 := by
        by_contra hsize
        have := hpos d (by simp) (by omega)
        omega
      rw [claimLoop_past (by omega) (by omega) hlt hfin hne,
        claimable_cons_iff (.inl (by omega)) (by omega), max_eq_left (by omega)]
      exact ih _ spare pos _ hrest (fun e he => hpos e (by simp [he])) hlt (by omega)

end Claimable

theorem claimMemmapRegion_isSome_iff (hm : MemmapDisjoint m.entries) (hsize : 0 < size)
    (hlt : size < word) (type : ℤ) : (claimMemmapRegion m 0 size type).isSome ↔
    Claimable m.entries m.spare 0 size := by
  have h := claimLoop_isSome_iff hlt type m.entries [] m.spare 0 (m.numSlots + 2) hm (by simp) hsize
    (by simp [Memmap.numSlots])
  rw [claimMemmapRegion, Option.isSome_map, add64_of_lt (by omega), Nat.zero_add]
  simpa using h

theorem zeroTaken_iff (hm : MemmapDisjoint m.entries) (hsize : 0 < c.size)
    (halign : c.align < word) : ZeroTaken m c ↔ ∃ m', findFreeMemmapRegion m c = some (m',
    0) ∧ c.claims m = [(0, c.size)] := by
  constructor
  · rintro ⟨hpow, e, hfind, hzero, hclaim⟩
    have hpop := popcount64_le_one hpow
    have hu := hm.u64 e (mem_of_find?_eq_some hfind)
    have hstart := (alignedStart_eq_zero_iff halign hpop hu.1).mpr hzero
    have haccepts := find?_some hfind
    simp only [FindFree.accepts, decide_eq_true_eq] at haccepts
    obtain ⟨m', hm'⟩ := Option.isSome_iff_exists.mp
      ((claimMemmapRegion_isSome_iff hm hsize (haccepts.2.1.trans_lt hu.2) memmapUsed).mpr hclaim)
    refine ⟨m', ?_, ?_⟩
    · rw [findFreeMemmapRegion, if_neg (not_lt.mpr hpop)]
      simp [hfind, hstart, hm']
    · simp [FindFree.claims, hfind, hstart]
  · rintro ⟨m', hr, hclaims⟩
    obtain ⟨hpop, ⟨-, -, -, hnone⟩ | ⟨e, hfind, haddr, -⟩⟩ := findFreeMemmapRegion_cases hr
    · rw [hnone] at hclaims
      cases hclaims
    have hu := hm.u64 e (mem_of_find?_eq_some hfind)
    have haccepts := find?_some hfind
    simp only [FindFree.accepts, decide_eq_true_eq] at haccepts
    refine ⟨align_of_popcount64 halign hpop, e, hfind,
      (alignedStart_eq_zero_iff halign hpop hu.1).mp haddr.symm, ?_⟩
    rw [← claimMemmapRegion_isSome_iff hm hsize (haccepts.2.1.trans_lt hu.2) memmapUsed]
    rw [findFreeMemmapRegion, if_neg (not_lt.mpr hpop)] at hr
    simp only [hfind, ← haddr, Option.map_eq_some_iff] at hr
    obtain ⟨m1, hm1, -⟩ := hr
    exact Option.isSome_iff_exists.mpr ⟨m1, hm1⟩

theorem failureKeepsMap_iff (hm : MemmapDisjoint m.entries) (hsize : 0 < c.size)
    (halign : c.align < word) : FailureKeepsMap m c ↔ ¬ ZeroTaken m c := by
  rw [zeroTaken_iff hm hsize halign]
  constructor
  · rintro hkeep ⟨m', hr, hclaims⟩
    rw [(hkeep m' hr).2] at hclaims
    cases hclaims
  · intro hzero m' hr
    obtain ⟨-, ⟨-, hm', -, hclaims⟩ | ⟨e, -, -, hclaims⟩⟩ := findFreeMemmapRegion_cases hr
    · exact ⟨hm', hclaims⟩
    · exact absurd ⟨m', hr, hclaims⟩ hzero

theorem findFreeByTags_ne_zero (tags : List (AllocMatch × ℕ)) :
    ∀ {m m' : Memmap} {addr : ℕ}, (findFreeByTags size align tags m).1 = some (m', addr) →
    addr ≠ 0 := by
  induction tags with
  | nil =>
    intro m m' addr h
    cases h
  | cons tag tags ih =>
    intro m m' addr h
    rw [findFreeByTags] at h
    rcases hcall : findFreeMemmapRegion m ⟨size, align, tag.2, tag.1⟩ with _ | ⟨m1, paddr⟩
    · simp [hcall] at h
    · by_cases hpaddr : paddr = 0
      · simp only [hcall, hpaddr, ne_eq, not_true_eq_false, if_false] at h
        exact ih h
      · simp only [hcall, ne_eq, hpaddr, not_false_eq_true, if_true, Option.some.injEq,
          Prod.mk.injEq] at h
        exact h.2 ▸ hpaddr

/-- The tries that find no entry leave the map as it was. The first one that finds one ends the loop
with its claim, unless it claims the range at address 0. -/
theorem claimsOne_iff (hm : MemmapDisjoint m.entries) (hsize : 0 < size) (halign : align < word)
    (tags : List (AllocMatch × ℕ)) :
    ClaimsOne size (findFreeByTags size align tags m) ↔ FirstAboveZero m size align tags := by
  induction tags with
  | nil => simp [ClaimsOne, findFreeByTags, FirstAboveZero]
  | cons tag tags ih =>
    have htaken := @zeroTaken_iff ⟨size, align, tag.2, tag.1⟩ m hm hsize halign
    by_cases hfound : m.entries.any (FindFree.accepts ⟨size, align, tag.2, tag.1⟩)
    · have hfirst : FirstAboveZero m size align (tag :: tags) ↔ ¬ ZeroTaken m ⟨size, align, tag.2,
          tag.1⟩ := by
        simp [FirstAboveZero, hfound]
      rw [hfirst, htaken, findFreeByTags]
      rcases hcall : findFreeMemmapRegion m ⟨size, align, tag.2, tag.1⟩ with _ | ⟨m1, paddr⟩
      · simp [ClaimsOne]
      obtain ⟨-, ⟨hnone, -⟩ | ⟨e, -, -, hclaims⟩⟩ := findFreeMemmapRegion_cases hcall
      · rw [any_eq_true] at hfound
        obtain ⟨e, he, haccepts⟩ := hfound
        exact absurd haccepts (find?_eq_none.mp hnone e he)
      by_cases hpaddr : paddr = 0
      · subst hpaddr
        simp only [ne_eq, not_true_eq_false, if_false, hclaims]
        refine iff_of_false (fun h => ?_) (by simp)
        rcases hrest : (findFreeByTags size align tags m1).1 with _ | ⟨m2, addr⟩
        · simp [ClaimsOne, hrest] at h
        · rw [ClaimsOne, hrest] at h
          exact findFreeByTags_ne_zero tags hrest (Prod.mk.inj (cons.inj h).1).1.symm
      · simp [ClaimsOne, hpaddr, hclaims]
    · have hfirst : FirstAboveZero m size align (tag :: tags) ↔ FirstAboveZero m size align tags := by
        simp [FirstAboveZero, hfound]
      have hnone : m.entries.find? (FindFree.accepts ⟨size, align, tag.2, tag.1⟩) = none := by
        simpa [find?_eq_none] using hfound
      rw [hfirst, findFreeByTags, findFreeMemmapRegion]
      by_cases hpop : 1 < popcount64 align
      · refine iff_of_true (by simp [ClaimsOne, hpop]) fun t _ h => ?_
        exact absurd (popcount64_le_one h.1) (not_le.mpr hpop)
      · simpa [hpop, hnone, FindFree.claims] using ih

/-- A call leaves the map alone when it returns 0, and a fallback allocator claims one range,
exactly when the entry that they find first does not give them the range at address 0. -/
theorem find_free_failure_iff (m : Memmap) (size align : ℕ) (hm : MemmapDisjoint m.entries)
    (hsize : 0 < size) (halign : align < word) :
    (∀ mask kind, FailureKeepsMap m ⟨size, align, mask, kind⟩ ↔ ¬ ZeroTaken m ⟨size, align, mask,
    kind⟩) ∧
      (ClaimsOne size (findFreeMemmapRegionForPalloc m size align) ↔
      FirstAboveZero m size align pallocTags) ∧
      (ClaimsOne size (findFreeMemmapDirectMappedRegion m size align) ↔
        FirstAboveZero m size align directMappedTags) :=
  ⟨fun _ _ => failureKeepsMap_iff hm hsize halign, claimsOne_iff hm hsize halign pallocTags,
    claimsOne_iff hm hsize halign directMappedTags⟩

/-- The entry at address 0 has no tags, so only the filter that ignores them takes it. -/
theorem find_free_failure_iff_of_untagged_zero :
    let m : Memmap := ⟨[⟨0, 0x1000, 1, 0⟩, ⟨0x1000, 0x4000, 1, 3⟩], replicate 4 ⟨0, 0, 0, 0⟩⟩
    ClaimsOne 0x1000 (findFreeMemmapDirectMappedRegion m 0x1000 0x1000) ∧
      ¬ FailureKeepsMap m ⟨0x1000, 0x1000, 0, .ignore⟩ := by
  intro m
  have hm : Tidy m.entries := ⟨by decide, by decide, by decide⟩
  obtain ⟨hkeep, -, hone⟩ := find_free_failure_iff m 0x1000 0x1000 hm.memmapDisjoint (by decide)
    (by decide)
  refine ⟨hone.mpr ?_, (hkeep 0 .ignore).not_left.mpr ?_⟩
  · intro tag htag
    obtain rfl : (.exact, 3) = tag := Option.some.inj ((by decide : _ = _).trans htag)
    rintro ⟨-, e, hfind, hzero, -⟩
    obtain rfl : ⟨0x1000, 0x4000, 1, 3⟩ = e := Option.some.inj ((by decide : _ = _).trans hfind)
    exact absurd hzero (by decide)
  · refine ⟨.inr ⟨12, by decide⟩, ⟨0, 0x1000, 1, 0⟩, by decide, .inl rfl, ?_, .inl (by simp [m])⟩
    simp [m]

/-- Usable memory at address 0: the first try takes `[0, 0x1000)`, returns 0, and a second try takes
another range. -/
theorem find_free_claims_twice_at_zero :
    ¬ ∀ (m : Memmap) (size align : ℕ), MemmapDisjoint m.entries → 0 < size → align < word →
      (∀ mask kind, FailureKeepsMap m ⟨size, align, mask, kind⟩) ∧
        ClaimsOne size (findFreeMemmapRegionForPalloc m size align) ∧
        ClaimsOne size (findFreeMemmapDirectMappedRegion m size align) := by
  intro hall
  let m : Memmap := ⟨[⟨0, 0x4000, 1, 7⟩], replicate 4 ⟨0, 0, 0, 0⟩⟩
  have hm : Tidy m.entries := ⟨by decide, by decide, by decide⟩
  have hrun : (findFreeMemmapDirectMappedRegion m 0x1000 0x1000).2 = [(0, 0x1000), (0x1000, 0x1000)] := by
    decide
  have hone := (hall m 0x1000 0x1000 hm.memmapDisjoint (by decide) (by decide)).2.2
  rw [ClaimsOne, hrun] at hone
  revert hone
  decide

end Toddler
