import Toddler.Proofs.PageTable
import Toddler.Proofs.UserPages

/-! Ranges of pages: `generic_map_range` and `generic_unmap_range` keep the tree of tables, and a
range that was free translates as it was mapped. -/

namespace Toddler.PageTable

open Radix Nat Option

variable {A : FrameAllocator} {s s' : PageMem A} {root v p a : ℕ}

theorem pteIndex_val (level v : ℕ) :
    (pteIndex level v).val = v / pageSize / 512 ^ (4 - level) % 512 := by
  change v >>> 12 >>> ((4 - level) * 9) &&& (2 ^ 9 - 1) = _
  rw [and_two_pow_sub_one_eq_mod, shiftRight_eq_div_pow, shiftRight_eq_div_pow, mul_comm, pow_mul]
  rfl

theorem samePath_iff {k : ℕ} (hk : k ≤ 4) (a b : ℕ) : SamePath k (path a) (path b) ↔
    a / pageSize / 512 ^ (4 - k) % 512 ^ k = b / pageSize / 512 ^ (4 - k) % 512 ^ k := by
  rw [← digits_eq_iff]
  have hindex : ∀ j < k, ∀ x : ℕ, (path x j).val =
      x / pageSize / 512 ^ (4 - k) / 512 ^ (k - 1 - j) % 512 := by
    intro j hj x
    rw [path, pteIndex_val, Nat.div_div_eq_div_mul (x / pageSize), ← pow_add]
    congr 3
    omega
  constructor
  · intro h i hi
    have hj := congrArg Fin.val (h (k - 1 - i) (by omega))
    rwa [hindex _ (by omega), hindex _ (by omega), show k - 1 - (k - 1 - i) = i by omega] at hj
  · intro h j hj
    apply Fin.ext
    rw [hindex j hj, hindex j hj]
    exact h (k - 1 - j) (by omega)

def blockSize (block : ℕ) : ℕ := pageSize * 512 ^ (4 - block)

theorem blockSize_three : blockSize 3 = 2 ^ 21 := rfl

theorem blockSize_four : blockSize 4 = 2 ^ 12 := rfl

variable {block : ℕ}

/-- Below `2 ^ 48` the addresses of a block are those with its indices. -/
theorem samePath_block (hb : block = 3 ∨ block = 4) (hv : blockSize block ∣ v) (hlt : v < 2 ^ 48)
    (ha : a < 2 ^ 48) : SamePath block (path v) (path a) ↔ v ≤ a ∧ a < v + blockSize block := by
  obtain ⟨c, rfl⟩ := hv
  rcases hb with rfl | rfl
  · rw [samePath_iff (by norm_num)]
    rw [blockSize_three] at hlt ⊢
    simp only [pageSize]
    omega
  · rw [samePath_iff le_rfl]
    rw [blockSize_four] at hlt ⊢
    simp only [pageSize]
    omega

theorem pageGetBlockLevel_eq (v p size : ℕ) : pageGetBlockLevel v p size =
    if 2 ^ 21 ∣ v ∧ 2 ^ 21 ∣ p ∧ 2 ^ 21 ≤ size then (3, 512) else (4, 1) := by
  have hsmall : ∀ level < 3, pageGetBlockPageCount level = 0 := fun level h => if_pos h
  have h3 : pageGetBlockPageCount 3 = 512 := rfl
  have h4 : pageGetBlockPageCount 4 = 1 := rfl
  have hrange : List.range' 1 pageLevels = [1, 2, 3, 4] := rfl
  have hshift : 512 <<< pageBits = 2 ^ 21 := rfl
  simp only [pageGetBlockLevel, hrange, List.find?_cons, hsmall 1 (by norm_num),
    hsmall 2 (by norm_num),
    h3, h4, hshift, ne_eq, not_true_eq_false, false_and, decide_false, ← dvd_iff_mod_eq_zero,
    OfNat.ofNat_ne_zero,
    not_false_eq_true, true_and]
  by_cases hfit : 2 ^ 21 ∣ v ∧ 2 ^ 21 ∣ p ∧ 2 ^ 21 ≤ size
  · simp only [hfit, decide_true, h3, if_true, and_self]
  · rw [if_neg hfit, decide_eq_false hfit]
    cases decide (¬1 = 0 ∧ 1 <<< pageBits ∣ v ∧ 1 <<< pageBits ∣ p ∧ 1 <<< pageBits ≤ size) <;> rfl

/-- The block at the start of a range: its level and its number of pages. -/
structure BlockAt (v p size block count : ℕ) : Prop where
  level : block = 3 ∨ block = 4
  bytes : count * pageSize = blockSize block
  vdvd : blockSize block ∣ v
  pdvd : blockSize block ∣ p
  fits : blockSize block ≤ size
  single : block = 4 → ¬ (2 ^ 21 ∣ v ∧ 2 ^ 21 ∣ p ∧ 2 ^ 21 ≤ size)

variable {size : ℕ}

theorem blockAt_pageGetBlockLevel (hv : pageSize ∣ v) (hp : pageSize ∣ p)
    (hsize : pageSize ≤ size) : BlockAt v p size (pageGetBlockLevel v p size).1
    (pageGetBlockLevel v p size).2 := by
  rw [pageGetBlockLevel_eq]
  split_ifs with hfit
  · exact ⟨.inl rfl, rfl, hfit.1, hfit.2.1, hfit.2.2, fun h => absurd h (by decide)⟩
  · exact ⟨.inr rfl, rfl, hv, hp, hsize, fun _ => hfit⟩

variable {count : ℕ}

theorem BlockAt.leafBlock (h : BlockAt v p size block count) : LeafBlock block p := by
  refine ⟨h.level, ?_⟩
  rintro rfl
  exact h.pdvd

theorem pageSize_le_blockSize (block : ℕ) :
    pageSize ∣ blockSize block ∧ pageSize ≤ blockSize block := by
  refine ⟨Nat.dvd_mul_right _ _, ?_⟩
  exact Nat.le_mul_of_pos_right _ (Nat.pow_pos (by norm_num))

section Loop

variable {vaddrEnd : ℕ} {page : ℕ → ℕ → ℕ → PageMem A → Option (PageMem A)}
  (hend : pageSize ∣ vaddrEnd) (hword : vaddrEnd < word)

include hend hword

theorem rangeLoop_round (page : ℕ → ℕ → ℕ → PageMem A → Option (PageMem A)) (hv : pageSize ∣ v)
    (hp : pageSize ∣ p) (hlt : v < vaddrEnd) :
    ∃ block count, BlockAt v p (vaddrEnd - v) block count ∧
      ∀ fuel m s, rangeLoop vaddrEnd page (fuel + 1) v p m s = (page v p block s).bind fun s =>
        rangeLoop vaddrEnd page fuel (v + blockSize block) (add64 p (blockSize block))
          (addCount m count) s := by
  have hsize : pageSize ≤ vaddrEnd - v := le_of_dvd (by omega) (dvd_sub hend hv)
  have hat := blockAt_pageGetBlockLevel hv hp hsize
  rcases hlevel : pageGetBlockLevel v p (vaddrEnd - v) with ⟨block, count⟩
  rw [hlevel] at hat
  refine ⟨block, count, hat, fun fuel m s => ?_⟩
  have hfits := hat.fits
  simp only [rangeLoop, if_pos hlt, hlevel]
  rw [hat.bytes, add64_of_lt (by omega)]
  rfl

/-- What a round keeps, with the rest of the range as a parameter, the loop keeps. -/
theorem rangeLoop_keeps {I : ℕ → ℕ → PageMem A → Prop}
    (hround : ∀ v p block count s s', pageSize ∣ v → v < vaddrEnd →
    BlockAt v p (vaddrEnd - v) block count → I v p s →
      page v p block s = some s' → I (v + blockSize block) (add64 p (blockSize block)) s')
    (fuel : ℕ) : ∀ {v p : ℕ} {m m' : ℤ} {s : PageMem A}, pageSize ∣ v → pageSize ∣ p → I v p s →
      rangeLoop vaddrEnd page fuel v p m s = some (s', m') → ∃ v' p', I v' p' s' := by
  induction fuel with
  | zero =>
    intro v p m m' s _ _ hI h
    cases h
    exact ⟨v, p, hI⟩
  | succ fuel ih =>
    intro v p m m' s hv hp hI h
    by_cases hlt : v < vaddrEnd
    · obtain ⟨block, count, hat, heq⟩ := rangeLoop_round hend hword page hv hp hlt
      obtain ⟨hdvd, -⟩ := pageSize_le_blockSize block
      rw [heq] at h
      obtain ⟨s₁, hpage, h⟩ := bind_eq_some_iff.mp h
      exact ih (dvd_add hv hdvd) (dvd_add64 pageSize_dvd_word hp hdvd)
        (hround v p block count s s₁ hv hlt hat hI hpage) h
    · rw [rangeLoop, if_neg hlt] at h
      cases h
      exact ⟨v, p, hI⟩

end Loop

variable {x y : ℕ}

theorem leafEntry_congr (h : ∀ j e, Leaf s' root (path x) j e ↔ Leaf s root (path y) j e) :
    leafEntry s' root x = leafEntry s root y := by
  apply ext
  rintro ⟨l, e⟩
  simp only [leafEntry_iff, h]

variable {attri : MapAttri}

/-- The leaf entries after a block has been mapped. -/
theorem LeavesMapped.leafEntry (hb : LeafBlock block p) (h : LeavesMapped root v block p attri s s')
    (x : ℕ) : (SamePath block (path v) (path x) → leafEntry s' root x = some (block,
    newEntry block p attri)) ∧
      (¬ SamePath block (path v) (path x) → leafEntry s' root x = leafEntry s root x) := by
  refine ⟨fun hx => ?_, fun hx => leafEntry_congr fun j e => ?_⟩
  · rw [leafEntry_iff]
    exact ⟨block - 1, hb.depth.1.symm, (h _ _ _).mpr (.inl ⟨hx, rfl, rfl⟩)⟩
  · rw [h]
    simp [hx]

theorem dvd_add64_iff {b c : ℕ} : 2 ^ 21 ∣ add64 b c ↔ 2 ^ 21 ∣ b + c :=
  dvd_mod_iff (show 2 ^ 21 ∣ word by decide)

variable {vaddrEnd : ℕ}

theorem mapsSinglePage_iff : MapsSinglePage v p vaddrEnd x ↔ (v ≤ x / 2 ^ 21 * 2 ^ 21 →
      ¬ (2 ^ 21 ∣ p + (x / 2 ^ 21 * 2 ^ 21 - v) ∧ 2 ^ 21 ≤ vaddrEnd - x / 2 ^ 21 * 2 ^ 21)) := by
  change (v ≤ x / 2 ^ 21 * 2 ^ 21 → (pageGetBlockLevel (x / 2 ^ 21 * 2 ^ 21)
    (add64 p (x / 2 ^ 21 * 2 ^ 21 - v)) (vaddrEnd - x / 2 ^ 21 * 2 ^ 21)).1 = 4) ↔ _
  rw [pageGetBlockLevel_eq, ← dvd_add64_iff]
  refine imp_congr_right fun _ => ?_
  have hbase : 2 ^ 21 ∣ x / 2 ^ 21 * 2 ^ 21 := dvd_mul_left _ _
  split_ifs with hfit
  · exact iff_of_false (by decide) (not_not.mpr hfit.2)
  · exact iff_of_true rfl fun h => hfit ⟨hbase, h⟩

/-- A single page of what is left of a range is a single page of the range. -/
theorem MapsSinglePage.of_rest (hv : pageSize ∣ v)
    (hat : BlockAt v p (vaddrEnd - v) block count) (hx : v + blockSize block ≤ x)
    (h : MapsSinglePage (v + blockSize block) (add64 p (blockSize block)) vaddrEnd x) :
    MapsSinglePage v p vaddrEnd x := by
  rw [mapsSinglePage_iff] at h ⊢
  intro hle
  by_cases hrest : v + blockSize block ≤ x / 2 ^ 21 * 2 ^ 21
  · refine fun hfit => h hrest ⟨?_, hfit.2⟩
    have hsum : p + blockSize block + (x / 2 ^ 21 * 2 ^ 21 - (v + blockSize block)) =
        p + (x / 2 ^ 21 * 2 ^ 21 - v) := by
      omega
    have hmod : add64 p (blockSize block) + (x / 2 ^ 21 * 2 ^ 21 - (v + blockSize block)) ≡
        p + (x / 2 ^ 21 * 2 ^ 21 - v) [MOD 2 ^ 21] := by
      rw [← hsum]
      apply Nat.ModEq.add_right
      exact (mod_modEq _ word).of_dvd (by decide)
    exact (Nat.ModEq.dvd_iff hmod dvd_rfl).mpr hfit.1
  · -- the block around the page begins where the loop stands
    have hbase : x / 2 ^ 21 * 2 ^ 21 = v := by
      obtain ⟨c, rfl⟩ := hv
      rcases hat.level with rfl | rfl
      · obtain ⟨d, hd⟩ := hat.vdvd
        rw [blockSize_three] at hd hrest
        omega
      · rw [blockSize_four] at hrest
        simp only [pageSize] at hle hrest ⊢
        omega
    rcases hat.level with rfl | rfl
    · rw [blockSize_three] at hx
      omega
    · rw [hbase, Nat.sub_self]
      have hdvd : 2 ^ 21 ∣ v := hbase ▸ Nat.dvd_mul_left _ _
      exact fun hfit => hat.single rfl ⟨hdvd, hfit⟩

/-- No page that is mapped by itself from `v` on is part of a large page. -/
def NoLargePage (root vaddrEnd v p : ℕ) (s : PageMem A) : Prop :=
  ∀ x, pageSize ∣ x → v ≤ x → x < vaddrEnd → MapsSinglePage v p vaddrEnd x →
    (leafEntry s root x).map Prod.fst ≠ some 3

theorem NoLargePage.no_leaf_above (h : NoLargePage root vaddrEnd v p s) (hv : pageSize ∣ v)
    (hlt : v < vaddrEnd) (hat : BlockAt v p (vaddrEnd - v) block count) :
    ∀ j e, j < block - 1 → ¬ Leaf s root (path v) j e := by
  intro j e hj hleaf
  by_cases hj2 : j < 2
  · exact not_validLeaf_top hj2 hleaf.2
  have hblock : block = 4 := by
    have := hat.level
    omega
  obtain rfl : j = 2 := by omega
  have hsingle : MapsSinglePage v p vaddrEnd v := by
    rw [mapsSinglePage_iff]
    intro hle
    have hbase : v / 2 ^ 21 * 2 ^ 21 = v := le_antisymm (Nat.div_mul_le_self _ _) hle
    have hdvd : 2 ^ 21 ∣ v := hbase ▸ Nat.dvd_mul_left _ _
    rw [hbase, Nat.sub_self]
    exact fun hfit => hat.single hblock ⟨hdvd, hfit⟩
  have hentry := leafEntry_iff.mpr ⟨2, rfl, hleaf⟩
  exact h v hv le_rfl hlt hsingle (by rw [hentry]; rfl)

theorem mapPage_round (hlen : vaddrEnd - v ≤ 2 ^ 48) (hv : pageSize ∣ v)
    (hlt : v < vaddrEnd) (hat : BlockAt v p (vaddrEnd - v) block count) (hs : Shape root s)
    (hfull : Full root s)
    (hno : NoLargePage root vaddrEnd v p s) (h : mapPage root v p block attri s = some s') :
    Shape root s' ∧ Full root s' ∧
      NoLargePage root vaddrEnd (v + blockSize block) (add64 p (blockSize block)) s' := by
  obtain ⟨hs', hfull', hleaves⟩ :=
    mapPage_keeps hat.leafBlock attri hs hfull (hno.no_leaf_above hv hlt hat) h
  refine ⟨hs', hfull', fun x hxdvd hx hxlt hsingle => ?_⟩
  have hbefore := hno x hxdvd (by omega) hxlt (hsingle.of_rest hv hat hx)
  rcases hleaves with hsame | hmapped
  · rwa [leafEntry_congr (hsame (path x))]
  obtain ⟨hon, hoff⟩ := hmapped.leafEntry hat.leafBlock x
  by_cases hpath : SamePath block (path v) (path x)
  · rcases hat.level with rfl | rfl
    · -- `x` is a later address, no further away than the tables reach
      obtain ⟨c, rfl⟩ := hat.vdvd
      rw [samePath_iff (by norm_num)] at hpath
      simp only [blockSize_three, pageSize] at hx hpath hlen
      omega
    · rw [hon hpath]
      exact fun h => absurd (some.inj h) (show 4 ≠ 3 by decide)
  · rwa [hoff hpath]

theorem rangeEnd_lt (vaddr size : ℕ) :
    pageSize ∣ rangeEnd vaddr size ∧ rangeEnd vaddr size < word :=
  ⟨dvd_alignUpPage _, alignUpPage_lt _⟩

variable {m : ℤ}

theorem genericMapRange_keeps {vaddr paddr : ℕ} (hs : Shape root s)
    (hfull : Full root s) (hok : SplitsNoLargePage root s (.map vaddr paddr size attri))
    (h : genericMapRange root vaddr paddr size attri s = some (s', m)) : Shape root s' ∧
      Full root s' := by
  obtain ⟨hlen, hpages⟩ := hok
  obtain ⟨hend, hword⟩ := rangeEnd_lt vaddr size
  have hstart : NoLargePage root (rangeEnd vaddr size) (alignDownPage vaddr) (alignDownPage paddr) s := by
    intro x hx hle hlt hsingle
    obtain ⟨k, hk⟩ := dvd_sub hx (dvd_alignDownPage vaddr)
    have hxk : x = alignDownPage vaddr + k * pageSize := by
      rw [mul_comm]
      omega
    have hkpages : k < rangePages vaddr size := by
      obtain ⟨c, hc⟩ := Nat.dvd_sub hend (dvd_alignDownPage vaddr)
      rw [rangePages, hc, Nat.mul_div_cancel_left _ (by decide)]
      apply Nat.lt_of_mul_lt_mul_left (a := pageSize)
      omega
    rw [hxk] at hsingle ⊢
    exact hpages k hkpages hsingle
  have hround : ∀ v p block count s s', pageSize ∣ v → v < rangeEnd vaddr size →
      BlockAt v p (rangeEnd vaddr size - v) block count →
      (rangeEnd vaddr size - v ≤ 2 ^ 48 ∧ Shape root s ∧ Full root s ∧
        NoLargePage root (rangeEnd vaddr size) v p s) →
      mapPage root v p block attri s = some s' →
      rangeEnd vaddr size - (v + blockSize block) ≤ 2 ^ 48 ∧ Shape root s' ∧ Full root s' ∧
        NoLargePage (A := A) root (rangeEnd vaddr size) (v + blockSize block)
        (add64 p (blockSize block)) s' := by
    rintro v p block count s s' hv hlt hat ⟨hlen, hs, hfull, hno⟩ hpage
    exact ⟨by omega, mapPage_round hlen hv hlt hat hs hfull hno hpage⟩
  obtain ⟨v', p', -, hs', hfull', -⟩ :=
    rangeLoop_keeps hend hword hround _ (dvd_alignDownPage vaddr)
    (dvd_alignDownPage paddr) ⟨hlen, hs, hfull, hstart⟩ h
  exact ⟨hs', hfull'⟩

theorem genericUnmapRange_keeps {vaddr paddr : ℕ} (hs : Shape root s) (hfull : Full root s)
    (h : genericUnmapRange root vaddr paddr size s = some (s', m)) :
    Shape root s' ∧ Full root s' := by
  obtain ⟨hend, hword⟩ := rangeEnd_lt vaddr size
  have hround : ∀ v p block count s s', pageSize ∣ v → v < rangeEnd vaddr size →
      BlockAt v p (rangeEnd vaddr size - v) block count → (Shape root s ∧ Full root s) →
      unmapPage root v p block s = some s' → Shape root s' ∧ Full (A := A) root s' := by
    rintro v p block count s s' - - hat ⟨hs, hfull⟩ hpage
    refine unmapPage_keeps ?_ hs hfull hpage
    have := hat.level
    omega
  obtain ⟨v', p', hkept⟩ := rangeLoop_keeps hend hword hround _
    (dvd_alignDownPage vaddr) (dvd_alignDownPage paddr) ⟨hs, hfull⟩ h
  exact hkept

theorem shape_of_reach {s₀ : PageMem A} (h₀ : EmptyTable root s₀)
    (h : Reach (rangeStep root) (SplitsNoLargePage root) s₀ s) : Shape root s ∧ Full root s := by
  refine Reach.invariant (I := fun s => Shape root s ∧ Full root s) h h₀.shape ?_
  rintro u act w ⟨hs, hfull⟩ hok hstep
  cases act with
  | map vaddr paddr size attri =>
    obtain ⟨⟨s', m⟩, hmap, rfl⟩ := map_eq_some_iff.mp hstep
    exact genericMapRange_keeps hs hfull hok hmap
  | unmap vaddr paddr size =>
    obtain ⟨⟨s', m⟩, hunmap, rfl⟩ := map_eq_some_iff.mp hstep
    exact genericUnmapRange_keeps hs hfull hunmap

/-- The page or the offset in the large page is added to the frame's address. -/
theorem destPaddr_newEntry (hb : block = 3 ∨ block = 4) (hv : blockSize block ∣ v)
    (hp : blockSize block ∣ p) (hplt : p < 2 ^ 63) (hx : v ≤ x) (hxlt : x < v + blockSize block) :
    pageGetPteDestPaddr (newEntry block p attri) block x = some (p + (x - v)) := by
  obtain ⟨n, hn, hn12, hmask⟩ : ∃ n, blockSize block = 2 ^ n ∧ 12 ≤ n ∧
      pageGetBlockVmask block = some (2 ^ n - 1) := by
    rcases hb with rfl | rfl
    · exact ⟨21, rfl, by norm_num, rfl⟩
    · exact ⟨12, rfl, le_rfl, rfl⟩
  rw [hn] at hv hp
  have hpfn : (newEntry block p attri).pfn.toNat <<< pageBits = p := by
    have hpage : pageSize ∣ p := (pow_dvd_pow 2 hn12).trans hp
    have hlt : p / pageSize < 2 ^ 51 := by
      rw [Nat.div_lt_iff_lt_mul (by decide)]
      exact hplt
    rw [newEntry_pfn, Nat.mod_eq_of_lt hlt, Nat.shiftLeft_eq]
    exact Nat.div_mul_cancel hpage
  have hoff : x % 2 ^ n = x - v := by
    obtain ⟨c, rfl⟩ := hv
    rw [show x = x - 2 ^ n * c + 2 ^ n * c by omega, Nat.add_mul_mod_self_left,
      Nat.mod_eq_of_lt (by omega)]
    omega
  rw [pageGetPteDestPaddr, hmask]
  change some (_ ||| x &&& (2 ^ n - 1)) = _
  rw [hpfn, and_two_pow_sub_one_eq_mod, hoff]
  obtain ⟨c, rfl⟩ := hp
  rw [mul_comm, ← shiftLeft_eq, shiftLeft_add_eq_or_of_lt (by omega)]

/-- The paths through a free block have no leaves. -/
theorem free_block (hb : block = 3 ∨ block = 4) (hv : blockSize block ∣ v)
    (hend : v + blockSize block ≤ 2 ^ 48)
    (hfree : ∀ x, v ≤ x → x < v + blockSize block → leafEntry s root x = none) :
    ∀ q j e, SamePath block (path v) q → ¬ Leaf s root q j e := by
  intro q j e hq hleaf
  -- an address of the block with the indices of `q`
  obtain ⟨x, hx, hxlt, hxq⟩ : ∃ x, v ≤ x ∧ x < v + blockSize block ∧ SamePath 4 (path x) q := by
    rcases hb with rfl | rfl
    · rw [blockSize_three] at hv hend ⊢
      have hq3 : (q 3).val < 512 := (q 3).isLt
      refine ⟨v + (q 3).val * 2 ^ 12, by omega, by omega, samePath_succ.mpr ⟨?_, Fin.ext ?_⟩⟩
      · refine SamePath.trans (SamePath.symm ?_) hq
        rw [samePath_block (.inl rfl) hv (by omega) (by omega), blockSize_three]
        omega
      · rw [path, pteIndex_val]
        simp only [pageSize]
        omega
    · exact ⟨v, le_rfl, by rw [blockSize_four]; omega, hq⟩
  have hdepth := leaf_depth hleaf
  have hnone := leafEntry_eq_none.mp (hfree x hx hxlt) j e
  exact hnone ((leaf_congr (hxq.mono (by omega))).mpr hleaf)

theorem addCount_of_lt (h0 : 0 ≤ m) (hlt : m + count < 2 ^ 31) : addCount m count = m + count := by
  have hmod : (m + count) % ((2 ^ 32 : ℕ) : ℤ) = m + count :=
    Int.emod_eq_of_lt (by omega) (by norm_num; omega)
  rw [addCount, Int.bmod_eq_emod_of_lt]
  rw [hmod]
  omega

theorem mapLoop_maps (root : ℕ) (attri : MapAttri) (hend : pageSize ∣ vaddrEnd)
    (hlt : vaddrEnd ≤ 2 ^ 48) (fuel : ℕ) :
    ∀ {v p : ℕ} {m : ℤ} {s : PageMem A}, pageSize ∣ v → 0 < v → v ≤ vaddrEnd →
    vaddrEnd - v ≤ fuel * pageSize →
    pageSize ∣ p → p + (vaddrEnd - v) ≤ 2 ^ 52 → 0 ≤ m →
    m + ((vaddrEnd - v) / pageSize : ℕ) < 2 ^ 31 →
    Shape root s → Full root s → A.Supplies (3 * fuel) s.frames →
    (∀ x, v ≤ x → x < vaddrEnd → leafEntry s root x = none) →
    ∃ s', rangeLoop vaddrEnd (fun v p block => mapPage root v p block attri) fuel v p m s =
        some (s', m + ((vaddrEnd - v) / pageSize : ℕ)) ∧
      (∀ x, v ≤ x → x < vaddrEnd → genericTranslate s' root x = some (p + (x - v))) ∧
      ∀ x < 2 ^ 48, x < v ∨ vaddrEnd ≤ x → leafEntry s' root x = leafEntry s root x := by
  have hword : vaddrEnd < word := lt_of_le_of_lt hlt (by decide)
  induction fuel with
  | zero =>
    intro v p m s hv hpos hle hfuel _ _ _ _ _ _ _ _
    obtain rfl : v = vaddrEnd := by omega
    refine ⟨s, by simp [rangeLoop], fun x hx hxlt => absurd hxlt (by omega), fun _ _ _ => rfl⟩
  | succ fuel ih =>
    intro v p m s hv hpos hle hfuel hp hpend hm0 hm hs hfull hsup hfree
    rcases eq_or_lt_of_le hle with rfl | hvlt
    · refine ⟨s, ?_, fun x hx hxlt => absurd hxlt (by omega), fun _ _ _ => rfl⟩
      rw [rangeLoop]
      simp
    obtain ⟨block, count, hat, heq⟩ := rangeLoop_round hend hword
      (fun v p block => mapPage root v p block attri) hv hp hvlt
    obtain ⟨hdvd, hbig⟩ := pageSize_le_blockSize block
    have hfits := hat.fits
    have hbytes := hat.bytes
    have hblockEnd : v + blockSize block ≤ vaddrEnd := by omega
    have hfreeBlock := free_block hat.level hat.vdvd (hblockEnd.trans hlt) fun x hx hxlt =>
      hfree x hx (by omega)
    obtain ⟨s₁, hpage, hs₁, hfull₁, hleaves, hsup₁⟩ :=
      mapPage_maps hat.leafBlock attri hs hfull (by omega)
      (hsup.mono (show 3 + 3 * fuel ≤ 3 * (fuel + 1) by omega)) hfreeBlock
    have hnew := hleaves.leafEntry hat.leafBlock
    have hblock : ∀ x < 2 ^ 48, SamePath block (path v) (path x) ↔ v ≤ x ∧ x < v + blockSize block :=
      fun x hx => samePath_block hat.level hat.vdvd (by omega) hx
    have hpages : (vaddrEnd - v) / pageSize = (vaddrEnd - (v + blockSize block)) / pageSize + count := by
      rw [← add_mul_div_right _ _ (show 0 < pageSize by decide)]
      congr 1
      omega
    rw [hpages, cast_add] at hm
    have hcount : addCount m count = m + count := addCount_of_lt hm0 (by linarith)
    have hp₁ : add64 p (blockSize block) = p + blockSize block :=
      add64_of_lt (lt_of_le_of_lt (show p + blockSize block ≤ 2 ^ 52 by omega) (by decide))
    obtain ⟨s', hloop, htrans, hother⟩ := ih (m := m + count) (dvd_add hv hdvd) (by omega) hblockEnd
      (by rw [succ_mul] at hfuel; omega) (dvd_add hp hdvd) (by omega) (by omega) (by linarith) hs₁
      hfull₁ hsup₁
      fun x hx hxlt => by
        rw [(hnew x).2 fun hpath => absurd ((hblock x (by omega)).mp hpath).2 (by omega)]
        exact hfree x (by omega) hxlt
    refine ⟨s', ?_, fun x hx hxlt => ?_, fun x hxlt hout => ?_⟩
    · rw [heq, hpage, bind_some, hp₁, hcount, hloop, hpages, cast_add, add_assoc, add_comm (count : ℤ)]
    · by_cases hin : x < v + blockSize block
      · have hentry : leafEntry s' root x = some (block, newEntry block p attri) := by
          rw [hother x (by omega) (.inl hin)]
          exact (hnew x).1 ((hblock x (by omega)).mpr ⟨hx, hin⟩)
        rw [genericTranslate_eq, hentry]
        exact destPaddr_newEntry hat.level hat.vdvd hat.pdvd (by omega) hx hin
      · rw [htrans x (by omega) hxlt]
        congr 1
        omega
    · rw [hother x hxlt (by omega)]
      exact (hnew x).2 fun hpath => absurd ((hblock x hxlt).mp hpath) (by omega)

def framesAbove : FrameAllocator where
  State := List ℕ
  used l := {f | f ∈ l}
  palloc l := if l.foldr max 0 + 1 < 2 ^ 51 then (l.foldr max 0 + 1, (l.foldr max 0 + 1) :: l)
    else (0, l)
  pfree l f := (1, l.filter fun g => g ≠ f)
  palloc_lt l := by
    split_ifs with h
    · exact h
    · norm_num
  palloc_fresh l h := by
    have hmax : ∀ g ∈ l, g ≤ l.foldr max 0 := fun g hg => List.le_max_of_le' 0 hg le_rfl
    split_ifs at h ⊢ with hlt
    · intro hmem
      exact absurd (hmax _ hmem) (not_succ_le_self _)
    · exact absurd rfl h
  palloc_used l h := by
    split_ifs at h ⊢ with hlt
    · ext g
      simp
    · exact absurd rfl h
  pfree_used l f := by
    ext g
    simp

theorem framesAbove_supplies (n : ℕ) :
    ∀ {l : List ℕ}, l.foldr max 0 + n < 2 ^ 51 → framesAbove.Supplies n l := by
  induction n with
  | zero => exact fun _ => trivial
  | succ n ih =>
    intro l h
    have hpalloc : framesAbove.palloc l = (l.foldr max 0 + 1, (l.foldr max 0 + 1) :: l) :=
      if_pos (by omega)
    refine ⟨?_, ?_⟩
    · rw [hpalloc]
      exact succ_ne_zero _
    · rw [hpalloc]
      apply ih
      rw [List.foldr_cons]
      omega

theorem leafEntry_of_samePath (hsame : SamePath 4 (path x) (path y)) :
    leafEntry s root x = leafEntry s root y := by
  refine leafEntry_congr fun j e => ?_
  by_cases hj : j ≤ 3
  · exact leaf_congr (hsame.mono (by omega))
  · exact iff_of_false (fun hleaf => hj (leaf_depth hleaf)) fun hleaf => hj (leaf_depth hleaf)

/-- The leaf entry of an address is that of its page. -/
theorem leafEntry_page (h : x / pageSize = y / pageSize) :
    leafEntry s root x = leafEntry s root y :=
  leafEntry_of_samePath (by rw [samePath_iff le_rfl, h])

def zeroFrames : PageMem framesAbove := ⟨fun _ _ => .zero, [1022]⟩

theorem zeroFrames_empty : EmptyTable 1022 zeroFrames := ⟨fun _ => rfl, List.mem_singleton.mpr rfl⟩

def userAttri : MapAttri := ⟨true, true, true, false⟩

/-- In a run that maps no single page inside a large page, a free range translates as it is
mapped. -/
theorem map_then_translate (A : FrameAllocator) (root : ℕ) (s₀ s : PageMem A)
    (h₀ : EmptyTable root s₀) (h : Reach (rangeStep root) (SplitsNoLargePage root) s₀ s) :
    MapThenTranslate root s := by
  intro vaddr paddr size attri hv hpos hp hsize hlt hend hpend hsup hfree
  obtain ⟨hs, hfull⟩ := shape_of_reach h₀ h
  have hword : vaddr + size < word := lt_of_le_of_lt hend (by decide)
  have hrange : rangeEnd vaddr size = vaddr + size := by
    rw [rangeEnd, add64_of_lt hword, alignUpPage_of_dvd (Nat.dvd_add hv hsize) hword]
  have hpages : rangePages vaddr size = size / pageSize := by
    rw [rangePages, hrange, alignDownPage_of_dvd hv, Nat.add_sub_cancel_left]
  have hdiff : vaddr + size - vaddr = size := Nat.add_sub_cancel_left _ _
  have hcount : (0 : ℤ) + (size / pageSize : ℕ) < 2 ^ 31 := by
    have : size / pageSize < 2 ^ 31 := (Nat.div_lt_iff_lt_mul (by decide)).mpr hlt
    omega
  obtain ⟨s', hloop, htrans, hother⟩ := mapLoop_maps root attri (Nat.dvd_add hv hsize) hend
    (size / pageSize) hv hpos (Nat.le_add_right _ _) (by rw [hdiff, Nat.div_mul_cancel hsize]) hp
    (by rwa [hdiff]) le_rfl
    (by rwa [hdiff]) hs hfull hsup hfree
  refine ⟨s', ?_, fun d hd => ?_, fun v hv48 hout => ?_⟩
  · rw [genericMapRange, hrange, hpages, alignDownPage_of_dvd hv, alignDownPage_of_dvd hp, hloop,
      hdiff, zero_add]
  · rw [htrans (vaddr + d) (Nat.le_add_right _ _) (by omega), Nat.add_sub_cancel_left]
  · rw [genericTranslate_eq, genericTranslate_eq, hother v hv48 hout]

/-- A page and a large page are mapped and the page is unmapped; then a range is mapped as a page, a
large page and another page. -/
theorem map_then_translate_of_a_run :
    ∃ s, execute (rangeStep 1022) (SplitsNoLargePage 1022) zeroFrames
        [.map 0x201000 0x5000 0x1000 userAttri, .map 0x400000 0x400000 0x200000 userAttri,
          .unmap 0x201000 0x5000 0x1000] = some s ∧
      ∃ s', genericMapRange 1022 0x7ff000 0x9ff000 0x202000 userAttri s = some (s', 514) ∧
        genericTranslate s' 1022 0x812345 = some 0xa12345 ∧
        genericTranslate s' 1022 0x400010 = genericTranslate s 1022 0x400010 := by
  have hrun : (execute (rangeStep 1022) (SplitsNoLargePage 1022) zeroFrames
        [.map 0x201000 0x5000 0x1000 userAttri, .map 0x400000 0x400000 0x200000 userAttri,
          .unmap 0x201000 0x5000 0x1000]).map
      (fun s => ((s.frames : List ℕ), (List.range 514).all fun k =>
        (leafEntry s 1022 (0x7ff000 + k * 0x1000)).isNone)) =
      some ([1024, 1023, 1022], true) := by
    decide +kernel
  obtain ⟨s, hs, hproj⟩ := map_eq_some_iff.mp hrun
  obtain ⟨hframes, hfree⟩ := Prod.mk.inj hproj
  simp only [List.all_eq_true, List.mem_range, isNone_iff_eq_none] at hfree
  have hall := map_then_translate framesAbove 1022 zeroFrames s zeroFrames_empty
    (reach_of_execute hs)
  obtain ⟨s', hmap, htrans, hother⟩ :=
    hall 0x7ff000 0x9ff000 0x202000 userAttri (by decide) (by decide) (by decide)
    (by decide) (by decide) (by decide) (by decide)
    (by rw [hframes]; exact framesAbove_supplies _ (by decide))
    fun v hv hvlt => by
      rw [← hfree ((v - 0x7ff000) / 0x1000) (by omega)]
      apply leafEntry_page
      simp only [pageSize]
      omega
  refine ⟨s, hs, s', hmap, htrans 0x13345 (by decide),
    hother 0x400010 (by decide) (.inl (by decide))⟩

/-- The level 3 table is in frame 1024, which is then mapped as a large page, and its first page
once more as a single page: `map_page` writes the entry of that page into the level 3 table. -/
theorem page_in_large_page_breaks_tables : ¬ ∀ (A : FrameAllocator) (root : ℕ) (s₀ s : PageMem A),
    EmptyTable root s₀ →
      Reach (rangeStep root) anyStep s₀ s → MapThenTranslate root s := by
  intro h
  have hrun : (execute (rangeStep 1022) anyStep zeroFrames
      [.map 0x201000 0x5000 0x1000 userAttri, .map 0x400000 0x400000 0x200000 userAttri,
        .map 0x400000 0x400000 0x1000 userAttri]).map
      (fun s => ((s.frames : List ℕ), leafEntry s 1022 0x3000, genericTranslate s 1022 0x600000,
        (genericMapRange 1022 0x3000 0x400000 0x1000 userAttri s).map fun r =>
        genericTranslate r.1 1022 0x600000)) =
      some ([1025, 1024, 1023, 1022], none, some 0, some (some 0x400000)) := by
    decide +kernel
  obtain ⟨s, hs, hproj⟩ := map_eq_some_iff.mp hrun
  obtain ⟨hframes, hrest⟩ := Prod.mk.inj hproj
  obtain ⟨hleaf, hrest⟩ := Prod.mk.inj hrest
  obtain ⟨hbefore, hafter⟩ := Prod.mk.inj hrest
  obtain ⟨s', hmap, -, hother⟩ :=
    h framesAbove 1022 zeroFrames s zeroFrames_empty (reach_of_execute hs) 0x3000 0x400000
    0x1000 userAttri (by decide) (by decide) (by decide) (by decide) (by decide) (by decide)
    (by decide)
    (by rw [hframes]; exact framesAbove_supplies 3 (by decide)) fun v hv hvlt => by
      rw [← hleaf]
      apply leafEntry_page
      simp only [pageSize]
      omega
  rw [hmap] at hafter
  have hsame := hother 0x600000 (by decide) (.inr (by decide))
  rw [hbefore] at hsame
  simp [hsame] at hafter

/-- Along a run the tables are a tree of allocated frames, each entered in one place and none but
the root empty. -/
theorem page_tables_form_tree (A : FrameAllocator) (root : ℕ) (s₀ s : PageMem A)
    (h₀ : EmptyTable root s₀) (h : Reach (rangeStep root) (SplitsNoLargePage root) s₀ s) :
    (s.radix root).Separate ∧
      (∀ p k f, (s.radix root).tableAt p k = some f → f ∈ A.used s.frames) ∧
      ∀ p k f, (s.radix root).tableAt p (k + 1) = some f → ∃ i, s.mem f i ≠ .zero := by
  obtain ⟨hs, hfull⟩ := shape_of_reach h₀ h
  exact ⟨hs.separate, hs.used, hfull⟩

theorem page_tables_form_tree_after_unmap :
    ∃ s, Reach (rangeStep 1022) (SplitsNoLargePage 1022) zeroFrames s ∧
    leafEntry s 1022 0x201000 = none ∧ (s.radix 1022).Separate := by
  refine exists_reach_of (P := fun s => leafEntry s 1022 0x201000 = none)
    [.map 0x201000 0x5000 0x1000 userAttri,
    .unmap 0x201000 0x5000 0x1000] (by decide +kernel) fun s hs hnone => ?_
  exact ⟨hnone, (page_tables_form_tree framesAbove 1022 zeroFrames s zeroFrames_empty hs).1⟩

end Toddler.PageTable
