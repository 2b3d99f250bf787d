import Toddler.Proofs.Palloc
import Toddler.Proofs.PallocOrder

/-! When `palloc_region` succeeds. The test of the page counter refuses nothing that the lists could
serve, and the recursion of `buddy_split` reaches every list above the order asked for before it
splits anything. -/

namespace Toddler

/-- What a call of `palloc_region` for `2 ^ order` pages of a region does: it returns a PFN exactly
when a list from that order on has a block; the block that it hands out is aligned and of that
order, and the regions are sound with it; a failure leaves the whole allocator as it was. -/
structure RegionOutcome (L : PallocLayout) (s : PallocRun) (region : RegionId) (order : ℕ)
    (s' : Palloc) (pfn : ℕ) : Prop where
  succeeds : pfn ≠ 0 ↔ ∃ k, order ≤ k ∧ buddyList L.toPallocConfig s.palloc region k ≠ []
  aligned : pfn ≠ 0 → 2 ^ order ∣ pfn
  size : pfn ≠ 0 → (s'.nodes pfn).order = order
  sound : pfn ≠ 0 → ∀ r, RegionSound L.toPallocConfig ⟨s', ⟨pfn, order, region⟩ :: s.live⟩ r
    (regionLo L.regions r) (regionHi L.regions r)
  failure : pfn = 0 → s' = s.palloc

theorem PallocInv.outcome {L : PallocLayout} {s : PallocRun} (h : PallocInv L s)
    {count : BitVec 32} {k : ℕ} (hk : calcPallocOrder count = some k) (hmax : k <
    pallocMaxOrder) (region : RegionId) :
    ∃ s' pfn, pallocRegion L.toPallocConfig s.palloc count region = some (s', pfn) ∧
      RegionOutcome L s region k s' pfn := by
  obtain ⟨fr, hinv, hpages, hred⟩ := h
  have hlist : ∀ j, buddyList L.toPallocConfig s.palloc region j = fr region j :=
    hinv.buddyList_eq region
  obtain ⟨s', pfn, hs', hcases⟩ :=
    pallocRegion_spec (r := region) hinv hpages hred L.zero_outside hk
  refine ⟨s', pfn, hs', ?_⟩
  rcases hcases with ⟨h0, hsame, hempty⟩ | ⟨hne, ⟨j, hj, hfull⟩, fr', hinv', hpages', hred'⟩
  · refine ⟨⟨fun hne => absurd h0 hne, ?_⟩, fun hne => absurd h0 hne, fun hne => absurd h0 hne,
      fun hne => absurd h0 hne, fun _ => hsame⟩
    rintro ⟨j, hj, hfull⟩
    rw [hlist, hempty hmax j hj] at hfull
    exact absurd rfl hfull
  · have hblock : (⟨pfn, k, region⟩ : DyBlock RegionId) ∈
        regionBlocks pallocOrderCount fr' ([] ++ ⟨pfn, k, region⟩ :: s.live) region :=
        held_mem List.mem_cons_self
    refine ⟨⟨fun _ => ⟨j, hj, by rwa [hlist]⟩, fun _ => hne⟩, fun _ => ?_, fun _ => ?_, fun _ => ?_,
      fun h0 => absurd h0 hne⟩
    · exact ((hinv'.tiled.tiling region).dyadic _ hblock).2
    · have hinfo := hinv'.liveNode _ List.mem_cons_self
      exact congrArg Prod.fst hinfo
    · exact PallocInv.regionSound ⟨fr', hinv', hpages', hred'⟩

/-- `palloc_region` succeeds exactly when it can, in every state that calls reach. -/
theorem palloc_region_succeeds_iff (L : PallocLayout) (s0 : Palloc) (s : PallocRun)
    (h0 : initRegions L.toPallocConfig L.regions 0 Palloc.zero = some s0)
    (h : Reach (pallocStep L.toPallocConfig) anyStep ⟨s0, []⟩ s) (region : RegionId) (count : ℕ)
      (hpos : 1 ≤ count)
    (hcount : count ≤ 2 ^ 14) :
    ∃ s' pfn, pallocRegion L.toPallocConfig s.palloc (BitVec.ofNat 32 count) region =
      some (s', pfn) ∧ RegionOutcome L s region (Nat.clog 2 count) s' pfn := by
  have hle : Nat.clog 2 count ≤ 14 := Nat.clog_le_of_le_pow hcount
  have hmax : Nat.clog 2 count < pallocMaxOrder := by
    unfold pallocMaxOrder pallocOrderCount
    omega
  have horder :=
    calcPallocOrder_eq_clog hpos (hcount.trans (Nat.pow_le_pow_right (by norm_num) (by decide)))
  exact (pallocInv_reach h0 h).outcome horder hmax region

/-- Three pages of a region with one block of four pages, one of which would be left over. -/
theorem palloc_region_succeeds_iff_of_three_pages :
    ∃ s0 s', initRegions twoRegions.toPallocConfig twoRegions.regions 0 Palloc.zero = some s0 ∧
      pallocRegion twoRegions.toPallocConfig s0 (BitVec.ofNat 32 3) 0 = some (s', 4) ∧
      RegionOutcome twoRegions ⟨s0, []⟩ 0 (Nat.clog 2 3) s' 4 := by
  have hrun : ((initRegions twoRegions.toPallocConfig twoRegions.regions 0 Palloc.zero).bind
    fun s0 =>
      (pallocRegion twoRegions.toPallocConfig s0 (BitVec.ofNat 32 3) 0).map Prod.snd) = some 4 := by
        decide +kernel
  obtain ⟨s0, h0, hs0⟩ := Option.bind_eq_some_iff.mp hrun
  obtain ⟨⟨s1, pfn⟩, hs1, rfl⟩ := Option.map_eq_some_iff.mp hs0
  obtain ⟨s', pfn', hs', houtcome⟩ :=
    palloc_region_succeeds_iff twoRegions s0 ⟨s0, []⟩ h0 (Reach.refl _) 0 3
    (by norm_num) (by norm_num)
  obtain ⟨rfl, rfl⟩ := Prod.mk.inj (Option.some.inj (hs'.symm.trans hs1))
  exact ⟨s0, s', h0, hs', houtcome⟩

end Toddler
