import Toddler.Proofs.PallocLists

/-! The page allocator keeps the tiling of its regions: `buddy_split` cuts blocks, `buddy_combine`
joins a block with its buddy, and `palloc_region` and `pfree` move blocks between the lists and the
live allocations. A stale node inside a block is never taken for a buddy, since the block over a
buddy's start begins there. -/

namespace Toddler

open Function List Option PallocNode DyBlock

variable {c : PallocConfig} {lo hi : RegionId → ℕ} {s s' : Palloc} {fr : RegionId → ℕ → List ℕ}
  {hand live : List (DyBlock RegionId)} {r : RegionId} {k p : ℕ} {b : DyBlock RegionId}

/-- The invariant reads nodes and headers only. -/
theorem BuddyInv.congr (h : BuddyInv c lo hi s fr hand live) (hn : s'.nodes = s.nodes)
    (hh : ∀ r k, s'.header r k = s.header r k) : BuddyInv c lo hi s' fr hand live := by
  refine ⟨h.tiled, h.range, fun r k => ?_, fun p => ?_, fun r k => ?_, fun r k p hp => ?_,
    fun b hb => ?_, fun p hp => ?_⟩
  · rw [hh, hn]; exact h.chain r k
  · rw [hn]; exact h.clean p
  · rw [hh]; exact h.header r k
  · rw [hn]; exact h.freeNode r k p hp
  · rw [hn]; exact h.liveNode b hb
  · rw [hn] at hp ⊢; exact h.availNode p hp

theorem BuddyInv.toLive (h : BuddyInv c lo hi s fr (b :: hand) live)
    (hinfo : (s.nodes b.start).info = (b.order, b.region, true, true)) :
    BuddyInv c lo hi s fr hand (b :: live) := by
  refine ⟨h.tiled.perm perm_middle.symm, h.range, h.chain, h.clean, h.header, h.freeNode,
    fun d hd => ?_, h.availNode⟩
  rcases mem_cons.mp hd with rfl | hd
  · exact hinfo
  · exact h.liveNode d hd

theorem BuddyInv.ofLive (h : BuddyInv c lo hi s fr hand live) (hb : b ∈ live) :
    BuddyInv c lo hi s fr (b :: hand) (live.erase b) := by
  refine ⟨h.tiled.perm ?_, h.range, h.chain, h.clean, h.header, h.freeNode,
    fun d hd => h.liveNode d (mem_of_mem_erase hd), h.availNode⟩
  exact ((perm_cons_erase hb).append_left hand).trans perm_middle

theorem BuddyInv.perm {hand' : List (DyBlock RegionId)} (h : BuddyInv c lo hi s fr hand live)
    (hp : hand.Perm hand') : BuddyInv c lo hi s fr hand' live :=
  h.of_tiled (h.tiled.perm (hp.append_right live))

theorem BuddyInv.split (h : BuddyInv c lo hi s fr (⟨p, k + 1, r⟩ :: hand) live) :
    BuddyInv c lo hi s fr (⟨p, k, r⟩ :: ⟨p + 2 ^ k, k, r⟩ :: hand) live :=
  h.of_tiled (Tiled.split h.tiled)

theorem BuddyInv.join (h : BuddyInv c lo hi s fr (⟨p, k, r⟩ :: ⟨p + 2 ^ k, k, r⟩ :: hand) live)
    (hk : k + 1 < pallocOrderCount) (hp : 2 ^ (k + 1) ∣ p) :
    BuddyInv c lo hi s fr (⟨p, k + 1, r⟩ :: hand) live :=
  h.of_tiled (Tiled.join h.tiled hk hp)

theorem BuddyInv.exists_cons (h : BuddyInv c lo hi s fr hand live)
    (hhas : (s.header r k).hasNext = true) : ∃ p l, fr r k = p :: l := by
  refine exists_cons_of_ne_nil fun hnil => ?_
  rw [h.header_nil.mpr hnil] at hhas
  cases hhas

theorem splitFirst_spec (h : BuddyInv c lo hi s fr hand live) {l : List ℕ}
    (hl : fr r (k + 1) = p :: l) : ∃ s', splitFirst c s (k + 1) r = some s' ∧ s'.counts = s.counts ∧
      BuddyInv c lo hi s' (setList (setList fr r (k + 1) l) r k ((p + 2 ^ k) :: p :: fr r k)) hand
      live := by
  have hpos := Nat.two_pow_pos k
  obtain ⟨s1, hs1, hsame1, h1⟩ := takeFirst_spec h hl
  have h2 := h1.split
  -- both halves are in hand while their nodes are set up
  have hm1 : ⟨p, k, r⟩ ∈ ⟨p, k, r⟩ :: ⟨p + 2 ^ k, k, r⟩ :: hand := by simp
  have hm2 : ⟨p + 2 ^ k, k, r⟩ ∈ ⟨p, k, r⟩ :: ⟨p + 2 ^ k, k, r⟩ :: hand := by simp
  have h3 := h2.setNode hm1 (start_mem _) (f := fun _ => ⟨k, r, false, false, true, 0⟩) (fun _ =>
    rfl) rfl
  have h4 := h3.setNode hm2 (start_mem _) (f := fun _ => ⟨k, r, false, false, true, 0⟩) (fun _ =>
    rfl) rfl
  have hne : p ≠ p + 2 ^ k := by omega
  obtain ⟨s5, hs5, hsame5, h5⟩ :=
    insertNode_spec h4 (by rw [setNode_of_ne _ _ _ hne, setNode_self]; rfl)
  obtain ⟨s6, hs6, hsame6, h6⟩ := insertNode_spec h5 (by rw [hsame5.info, setNode_self]; rfl)
  refine ⟨s6, ?_, ?_, ?_⟩
  · have hr2 := h2.hand_range hm2 (start_mem _)
    simp [splitFirst, hs1, getNodeByPfn_of_range s1 hr2, hs5, hs6]
  · rw [hsame6.counts, hsame5.counts]
    exact hsame1.counts
  · rw [setList_setList, setList_self, setList_of_ne l (.inr (by omega))] at h6
    exact h6

/-- A split puts the two halves of a block on an empty list and leaves the lists below alone; but
for the new pair the lists stay reduced. -/
structure SplitDone (fr fr' : RegionId → ℕ → List ℕ) (r : RegionId) (k p : ℕ) : Prop where
  halves : fr' r k = [p + 2 ^ k, p]
  rest : Reduced pallocOrderCount (setList fr' r k [])
  below : ∀ j < k, fr' r j = fr r j

/-- After the first half is taken the lists are reduced. -/
theorem SplitDone.take {fr' : RegionId → ℕ → List ℕ} (h : SplitDone fr fr' r k p) :
    Reduced pallocOrderCount (setList fr' r k [p]) :=
  h.rest.set fun _ q hq hb => buddy_ne q k (by rw [mem_singleton.mp hb, mem_singleton.mp hq])

theorem buddySplit_spec (fuel : ℕ) : ∀ {s : Palloc} {fr : RegionId → ℕ → List ℕ} {k : ℕ},
    BuddyInv c lo hi s fr hand live → Reduced pallocOrderCount fr → fr r k = [] →
    k + 1 ≤ pallocMaxOrder → pallocMaxOrder ≤ k + fuel →
    (∃ s' fr' p, buddySplit c r fuel s (k + 1) = some (s', 0) ∧ s'.counts = s.counts ∧
      BuddyInv c lo hi s' fr' hand live ∧ SplitDone fr fr' r k p ∧ ∃ j, k < j ∧ fr r j ≠ []) ∨
    (buddySplit c r fuel s (k + 1) = some (s, -1) ∧ ∀ j, k < j → fr r j = []) := by
  induction fuel with
  | zero => intros; omega
  | succ fuel ih =>
    intro s fr k h hred hempty hk hfuel
    rw [buddySplit, if_neg (by omega)]
    -- what happens once the list of order `k + 1` has a node
    have hsplit : ∀ {s1 : Palloc} {fr1 : RegionId → ℕ → List ℕ} {p : ℕ} {l : List ℕ},
        BuddyInv c lo hi s1 fr1 hand live → fr1 r (k + 1) = p :: l →
        Reduced pallocOrderCount (setList fr1 r (k + 1) l) → (∀ j < k + 1, fr1 r j = fr r j) →
        s1.counts = s.counts →
        ∃ s' fr' p, (splitFirst c s1 (k + 1) r).bind (fun s => some (s, (0 : ℤ))) = some (s', 0) ∧
          s'.counts = s.counts ∧ BuddyInv c lo hi s' fr' hand live ∧ SplitDone fr fr' r k p := by
      intro s1 fr1 p l h1 hl hred1 hbelow hcounts
      obtain ⟨s2, hs2, hc2, h2⟩ := splitFirst_spec h1 hl
      refine ⟨s2, _, p, by rw [hs2]; rfl, hc2.trans hcounts, h2, ?_, ?_, fun j hj => ?_⟩
      · rw [setList_self, hbelow k (Nat.lt_succ_self k), hempty]
      · rw [setList_setList]
        exact hred1.mono (setList_subset (nil_subset _))
      · rw [setList_of_ne _ (.inr (by omega)), setList_of_ne _ (.inr (by omega))]
        exact hbelow j (by omega)
    by_cases hhas : (s.header r (k + 1)).hasNext = true
    · rw [if_pos hhas]
      obtain ⟨p, l, hl⟩ := h.exists_cons hhas
      obtain ⟨s2, fr2, p2, hs2, hc2, h2, hdone⟩ :=
        hsplit h hl (hred.mono (setList_subset (hl ▸ subset_cons_self p l))) (fun _ _ => rfl) rfl
      exact .inl ⟨s2, fr2, p2, hs2, hc2, h2, hdone, k + 1, Nat.lt_succ_self k, by simp [hl]⟩
    · have hnil : fr r (k + 1) = [] := h.header_nil.mp (by simpa using hhas)
      rw [if_neg hhas]
      by_cases hmax : k + 1 = pallocMaxOrder
      · rw [if_pos hmax]
        refine .inr ⟨rfl, fun j hj => ?_⟩
        rcases Nat.eq_or_lt_of_le hj with rfl | hlt
        · exact hnil
        · exact h.tiled.bounded r j (by simp only [pallocMaxOrder] at *; omega)
      · rw [if_neg hmax]
        rcases ih h hred hnil (by omega) (by omega) with
          ⟨s1, fr1, p, hs1, hc1, h1, hdone, j, hj, hfull⟩ | ⟨hs1, hall⟩
        · obtain ⟨s2, fr2, p2, hs2, hc2, h2, hdone2⟩ := hsplit h1 hdone.halves hdone.take hdone.below hc1
          refine .inl ⟨s2, fr2, p2, ?_, hc2, h2, hdone2, j, by omega, hfull⟩
          simp only [hs1]
          exact hs2
        · refine .inr ⟨?_, fun j hj => ?_⟩
          · simp [hs1]
          · exact (Nat.eq_or_lt_of_le hj).elim (fun he => he ▸ hnil) (hall j)

theorem pfnMod_eq (pfn order : ℕ) : pfnModOrderPageCount pfn order = pfn % 2 ^ order :=
  Nat.and_two_pow_sub_one_eq_mod pfn order

theorem isPfnValid_iff : isPfnValid c p = true ↔ c.pfnStart ≤ p ∧ p < c.pfnLimit := by
  simp [isPfnValid]

/-- A node with the metadata that `buddy_combine` asks for is on the list. -/
theorem BuddyInv.buddy_free (h : BuddyInv c lo hi s fr [] live) (hp : p ∈ fr r k)
    (hinfo : (s.nodes (buddy p k)).info = (k, r, false, true)) : buddy p k ∈ fr r k := by
  simp only [info, Prod.mk.injEq] at hinfo
  obtain ⟨horder, hregion, halloc, havail⟩ := hinfo
  have hin := h.availNode _ havail
  rw [hregion] at hin
  rcases h.tiled.buddy_block hp hin with ⟨j, hj⟩ | ⟨b, hb, hbs⟩
  · have hj' := congrArg Prod.fst (h.freeNode r j _ hj)
    rwa [show j = k from hj'.symm.trans horder] at hj
  · have hb' := congrArg (fun i => i.2.2.1) (h.liveNode b (by simpa using hb))
    rw [hbs] at hb'
    simpa using hb'.symm.trans halloc

/-- One round of `buddy_combine`: a block and its buddy on the same list become their parent. -/
theorem combine_round (h : BuddyInv c lo hi s fr [] live) (hp : p ∈ fr r k)
    (hq : buddy p k ∈ fr r k) (hk : k + 1 < pallocOrderCount) (setUp : PallocNode → PallocNode)
    (hsetUp : ∀ n, (setUp n).info = (k + 1, r, n.alloc, true) ∧ (setUp n).Clean) :
    ∃ s1 s2 s3 fr', removeNode c s p r k = some s1 ∧ removeNode c s1 (buddy p k) r k = some s2 ∧
      insertNode c ((s2.setNode p setUp).setNode (buddy p k) setUp) (parent p k) r (k + 1) = some s3 ∧
      s3.counts = s.counts ∧ BuddyInv c lo hi s3 fr' [] live ∧ parent p k ∈ fr' r (k + 1) ∧
      ∀ r' j q, q ∈ fr' r' j → (q ∈ fr r' j ∧ ¬ (r' = r ∧ j = k ∧ (q = p ∨ q = buddy p k))) ∨
        (r' = r ∧ j = k + 1 ∧ q = parent p k) := by
  have hdvd : 2 ^ k ∣ p := ((h.tiled.tiling r).dyadic _ (h.tiled.free_mem hp)).2
  obtain ⟨hpar, hcases⟩ := buddy_cases hdvd
  have hne : p ≠ buddy p k := by omega
  obtain ⟨s1, pre, post, hs1, hsame1, hl1, h1⟩ := removeNode_spec h hp
  have hq1 : buddy p k ∈ setList fr r k (pre ++ post) r k := by
    rw [setList_self]
    rw [hl1] at hq
    have := perm_middle.mem_iff.mp hq
    exact (mem_cons.mp this).resolve_left (Ne.symm hne)
  obtain ⟨s2, pre2, post2, hs2, hsame2, hl2, h2⟩ := removeNode_spec h1 hq1
  -- both nodes are in hand
  have hmp : (⟨p, k, r⟩ : DyBlock RegionId) ∈ [⟨buddy p k, k, r⟩, ⟨p, k, r⟩] := by simp
  have hmq : (⟨buddy p k, k, r⟩ : DyBlock RegionId) ∈ [⟨buddy p k, k, r⟩, ⟨p, k, r⟩] := by simp
  have hreg : ∀ n, (setUp n).region = r := fun n => congrArg (fun i => i.2.1) (hsetUp n).1
  have h3 := h2.setNode hmp (start_mem _) (hsetUp _).2 (hreg _)
  have h4 := h3.setNode hmq (start_mem _) (hsetUp _).2 (hreg _)
  have halloc : ∀ x ∈ fr r k, (s2.nodes x).alloc = false := fun x hx =>
    congrArg (fun i => i.2.2.1) ((hsame1.trans hsame2).info x ▸ h.freeNode r k x hx)
  have hinfo : ∀ x, x = p ∨ x = buddy p k →
      (((s2.setNode p setUp).setNode (buddy p k) setUp).nodes x).info = (k + 1, r, false, true) := by
    rintro x (rfl | rfl)
    · rw [setNode_of_ne _ _ _ hne, setNode_self, (hsetUp _).1, halloc _ hp]
    · rw [setNode_self, setNode_of_ne _ _ _ (Ne.symm hne), (hsetUp _).1, halloc _ hq]
  have hperm : [(⟨buddy p k, k, r⟩ : DyBlock RegionId), ⟨p, k, r⟩].Perm
      [⟨parent p k, k, r⟩, ⟨parent p k + 2 ^ k, k, r⟩] := by
    rcases hcases with ⟨h5, h6⟩ | ⟨h5, h6⟩
    · rw [h6, ← h5]
      exact List.Perm.swap _ _ _
    · rw [h5, ← h6]
  have h5 := (h4.perm hperm).join hk hpar
  obtain ⟨s3, hs3, hsame3, h6⟩ := insertNode_spec h5 (hinfo _ (by omega))
  refine ⟨s1, s2, s3, _, hs1, hs2, hs3, ?_, h6, by simp, fun r' j x hx => ?_⟩
  · exact hsame3.counts.trans (hsame1.trans hsame2).counts
  · rcases mem_give hx with hx | hx
    · obtain ⟨hx1, hxq⟩ := h1.tiled.mem_take hl2 hx
      obtain ⟨hx0, hxp⟩ := h.tiled.mem_take hl1 hx1
      exact .inl ⟨hx0, by tauto⟩
    · exact .inr hx

theorem buddyCombine_spec (fuel : ℕ) : ∀ {s : Palloc} {fr : RegionId → ℕ → List ℕ} {p k : ℕ},
    BuddyInv c lo hi s fr [] live → p ∈ fr r k → ReducedBut pallocOrderCount fr r k p →
    pallocOrderCount ≤ k + fuel →
    ∃ s' fr', buddyCombine c fuel s p = some s' ∧ s'.counts = s.counts ∧
      BuddyInv c lo hi s' fr' [] live ∧ Reduced pallocOrderCount fr' := by
  induction fuel with
  | zero =>
    intro s fr p k h hp hred hfuel
    exact absurd (h.tiled.order_lt hp) (by omega)
  | succ fuel ih =>
    intro s fr p k h hp hred hfuel
    have hk := h.tiled.order_lt hp
    have hinfo := h.freeNode r k p hp
    simp only [info, Prod.mk.injEq] at hinfo
    have hdvd : ∀ q ∈ fr r k, 2 ^ k ∣ q :=
      fun q hq => ((h.tiled.tiling r).dyadic _ (h.tiled.free_mem hq)).2
    have stop : (k + 1 < pallocOrderCount → buddy p k ∉ fr r k) → ∃ s' fr', some s = some s' ∧
        s'.counts = s.counts ∧ BuddyInv c lo hi s' fr' [] live ∧ Reduced pallocOrderCount fr' :=
      fun hb => ⟨s, fr, rfl, rfl, h, hred.done hdvd hb⟩
    rw [buddyCombine, getNodeByPfn_of_range s (h.free_range hp)]
    simp only [bind_eq_bind, bind_some, hinfo.1, hinfo.2.1, pfnMod_eq]
    by_cases hmax : k = pallocMaxOrder
    · rw [if_pos hmax]
      exact stop fun hlt => by simp only [pallocMaxOrder] at hmax; omega
    rw [if_neg hmax]
    have hother : (if p % 2 ^ (k + 1) = 0 then p + 2 ^ k else p - 2 ^ k) = buddy p k := rfl
    have hhigher : (if p % 2 ^ (k + 1) = 0 then p else p - 2 ^ k) = parent p k := rfl
    simp only [hother, hhigher]
    by_cases hvalid : isPfnValid c (buddy p k) = true
    swap
    · rw [if_pos (by simpa using hvalid)]
      exact stop fun _ hq => hvalid (isPfnValid_iff.mpr (h.free_range hq))
    rw [if_neg (by simpa using hvalid), getNodeByPfn_of_range s (isPfnValid_iff.mp hvalid)]
    simp only [bind_some]
    split_ifs with hcond
    · refine stop fun _ hq => ?_
      have hother := h.freeNode r k _ hq
      simp only [info, Prod.mk.injEq] at hother
      simp [hother] at hcond
    · have hq : buddy p k ∈ fr r k := by
        apply h.buddy_free hp
        simp only [not_or, not_not, Bool.not_eq_true] at hcond
        obtain ⟨havail, hregion, halloc, horder⟩ := hcond
        simp only [info, Prod.mk.injEq]
        exact ⟨horder.symm, hregion, halloc, by simpa using havail⟩
      obtain ⟨s1, s2, s3, fr', hs1, hs2, hs3, hcounts, h3, hmem, hfr⟩ := combine_round h hp hq
        (by simp only [pallocMaxOrder] at hmax; omega)
        (fun n => { n with hasNext := false, next := 0, order := k + 1, region := r, avail := true })
        fun n => ⟨rfl, fun _ => rfl⟩
      simp only [hs1, hs2, hs3, bind_some]
      obtain ⟨s', fr'', hs', hc', h'⟩ := ih h3 hmem (hred.combine hfr) (by omega)
      exact ⟨s', fr'', hs', hc'.trans hcounts, h'⟩

structure PagesOk (lo hi : RegionId → ℕ) (s : Palloc) (live : List (DyBlock RegionId)) : Prop where
  avail : ∀ r, (s.regions r).availPages + pageSum (live.filter fun b => b.region = r) = hi r - lo r
  alloc : s.numPagesAlloc = pageSum live

theorem PagesOk.congr (h : PagesOk lo hi s live) (hc : s'.counts = s.counts) :
    PagesOk lo hi s' live := by
  have h1 : ∀ r, (s'.regions r).availPages = (s.regions r).availPages := fun r =>
    congrArg (fun x => (x.1 r).2.2) hc
  have h2 : s'.numPagesAlloc = s.numPagesAlloc := congrArg (fun x => x.2.2) hc
  exact ⟨fun r => by rw [h1]; exact h.avail r, h2.trans h.alloc⟩

def Palloc.heads (s : Palloc) (r : RegionId) : ℕ × ℕ :=
  ((s.regions r).tags, (s.regions r).totalPages)

theorem counts_heads (hc : s'.counts = s.counts) : s'.heads = s.heads := by
  funext r
  exact congrArg (fun x => ((x.1 r).1, (x.1 r).2.1)) hc

theorem counts_availPages (hc : s'.counts = s.counts) (r : RegionId) :
    (s'.regions r).availPages = (s.regions r).availPages :=
  congrArg (fun x => (x.1 r).2.2) hc

theorem BuddyInv.setAvailPages (h : BuddyInv c lo hi s fr hand live) (r : RegionId) (f : ℕ → ℕ) :
    BuddyInv c lo hi (s.setAvailPages r f) fr hand live :=
  h.congr rfl fun r' k => setAvailPages_header s r r' k f

theorem BuddyInv.setNumPagesAlloc (h : BuddyInv c lo hi s fr hand live) (f : ℕ → ℕ) :
    BuddyInv c lo hi (s.setNumPagesAlloc f) fr hand live :=
  h.congr rfl fun _ _ => rfl

theorem PagesOk.alloc_cons (h : PagesOk lo hi s live)
    (hb : 2 ^ b.order ≤ (s.regions b.region).availPages) :
    PagesOk lo hi ((s.setAvailPages b.region (· - 2 ^ b.order)).setNumPagesAlloc (· + 2 ^ b.order))
    (b :: live) := by
  refine ⟨fun r => ?_, ?_⟩
  · have hr := h.avail r
    by_cases he : b.region = r
    · subst he
      simp only [Palloc.setNumPagesAlloc, setAvailPages_self, filter_cons, decide_true, if_true,
        pageSum_cons]
      omega
    · simpa [Palloc.setNumPagesAlloc, setAvailPages_of_ne s b.region r _ (Ne.symm he), he] using hr
  · simp only [Palloc.setNumPagesAlloc, pageSum_cons]
    rw [show (s.setAvailPages b.region (· - 2 ^ b.order)).numPagesAlloc = s.numPagesAlloc from rfl,
      h.alloc, Nat.add_comm]

theorem PagesOk.free_erase (h : PagesOk lo hi s live) (hb : b ∈ live) (hc : s'.counts =
    (s.setAvailPages b.region (· + 2 ^ b.order)).counts) :
    PagesOk lo hi (s'.setNumPagesAlloc (· - 2 ^ b.order)) (live.erase b) := by
  have hperm := perm_cons_erase hb
  refine ⟨fun r => ?_, ?_⟩
  · have hr := h.avail r
    rw [pageSum_perm (hperm.filter _)] at hr
    have hav := counts_availPages hc r
    simp only [Palloc.setNumPagesAlloc, hav]
    by_cases he : b.region = r
    · subst he
      simp only [filter_cons, decide_true, if_true, pageSum_cons] at hr
      rw [setAvailPages_self]
      omega
    · rw [setAvailPages_of_ne s b.region r _ (Ne.symm he)]
      simpa [he] using hr
  · have hal := h.alloc
    rw [pageSum_perm hperm, pageSum_cons] at hal
    have hn : s'.numPagesAlloc = s.numPagesAlloc := congrArg (fun x => x.2.2) hc
    simp only [Palloc.setNumPagesAlloc]
    omega

theorem calcPallocOrder_le {count : BitVec 32} (h : calcPallocOrder count = some k) :
    k ≤ pallocMaxOrder := by
  simp only [calcPallocOrder] at h
  split_ifs at h with h1 h2
  all_goals
    simp only [Option.some.injEq] at h
    omega

/-- After a successful split the list of order `k` has a node, without which the lists are reduced;
a failed one changes nothing. -/
theorem splitIfEmpty_spec (h : BuddyInv c lo hi s fr hand live) (hred : Reduced pallocOrderCount fr)
    (hk : k < pallocMaxOrder) :
    (∃ s' fr' p l, splitIfEmpty c s r k = some (s', 0) ∧ s'.counts = s.counts ∧
      BuddyInv c lo hi s' fr' hand live ∧ fr' r k = p :: l ∧
      Reduced pallocOrderCount (setList fr' r k l) ∧ ∃ j, k ≤ j ∧ fr r j ≠ []) ∨
    (splitIfEmpty c s r k = some (s, -1) ∧ ∀ j, k ≤ j → fr r j = []) := by
  unfold splitIfEmpty
  by_cases hhas : (s.header r k).hasNext = true
  · rw [if_pos hhas]
    obtain ⟨p, l, hl⟩ := h.exists_cons hhas
    exact .inl ⟨s, fr, p, l, rfl, rfl, h, hl,
      hred.mono (setList_subset (hl ▸ subset_cons_self p l)), k, le_rfl, by simp [hl]⟩
  · rw [if_neg hhas]
    have hnil : fr r k = [] := h.header_nil.mp (by simpa using hhas)
    rcases buddySplit_spec pallocOrderCount h hred hnil hk
      (by simp only [pallocMaxOrder]; omega) with ⟨s', fr', p, hs, hc, h', hdone, j, hj,
      hfull⟩ | ⟨hs, hall⟩
    · exact .inl ⟨s', fr', p + 2 ^ k, [p], hs, hc, h', hdone.halves, hdone.take, j, hj.le, hfull⟩
    · exact .inr ⟨hs, fun j hj => (Nat.eq_or_lt_of_le hj).elim (fun he => he ▸ hnil) (hall j)⟩

theorem allocFirst_spec (h : BuddyInv c lo hi s fr [] live) (hpages : PagesOk lo hi s live)
    (havail : 2 ^ k ≤ (s.regions r).availPages) {l : List ℕ} (hl : fr r k = p :: l) :
    ∃ s', allocFirst c s r k = some (s', p) ∧
      BuddyInv c lo hi s' (setList fr r k l) [] (⟨p, k, r⟩ :: live) ∧
      PagesOk lo hi s' (⟨p, k, r⟩ :: live) := by
  obtain ⟨s1, hs1, hsame1, h1⟩ := takeFirst_spec h hl
  have hinfo : (s1.nodes p).info = (k, r, false, true) := by
    rw [hsame1.info]
    exact h.freeNode r k p (by rw [hl]; simp)
  simp only [info, Prod.mk.injEq] at hinfo
  have h2 := (h1.setNode mem_cons_self (start_mem ⟨p, k, r⟩)
    (f := fun n => { n with alloc := true, hasNext := false, next := 0 }) (fun _ =>
    rfl) hinfo.2.1).toLive
    (by simp [info, hinfo])
  have havail1 : 2 ^ k ≤ (s1.regions r).availPages := by rwa [counts_availPages hsame1.counts]
  refine ⟨_, by simp [allocFirst, hs1],
    (h2.setAvailPages r (· - 2 ^ k)).setNumPagesAlloc (· + 2 ^ k), ?_⟩
  have hpages1 : PagesOk lo hi (s1.setNode p fun n =>
    { n with alloc := true, hasNext := false, next := 0 }) live :=
    hpages.congr hsame1.counts
  exact hpages1.alloc_cons (b := ⟨p, k, r⟩) havail1

/-- The pages that a region has left are those on its lists. -/
theorem PagesOk.avail_eq (hpages : PagesOk lo hi s live) (h : BuddyInv c lo hi s fr [] live)
    (r : RegionId) : (s.regions r).availPages = pageSum (listBlocks pallocOrderCount fr r) := by
  have hsum := (h.tiled.tiling r).pageSum_eq
  rw [nil_append, regionBlocks, pageSum_append] at hsum
  have := hpages.avail r
  omega

theorem PagesOk.le_avail (hpages : PagesOk lo hi s live) (h : BuddyInv c lo hi s fr [] live) {j : ℕ}
    (hj : fr r j ≠ []) : 2 ^ j ≤ (s.regions r).availPages := by
  obtain ⟨p, l, hl⟩ := exists_cons_of_ne_nil hj
  have hp : p ∈ fr r j := by rw [hl]; simp
  rw [hpages.avail_eq h]
  exact le_pageSum (b := ⟨p, j, r⟩) (mem_listBlocks.mpr ⟨h.tiled.order_lt hp, hp, rfl⟩)

section

variable (h : BuddyInv c lo hi s fr [] live) (hpages : PagesOk lo hi s live)
  (hred : Reduced pallocOrderCount fr)
include h hpages hred

/-- `palloc_region` fails and changes nothing, or hands out a new block of the order asked for.
Below the highest order it fails only where no list from that order on has a block. -/
theorem pallocRegion_spec
    (hzero : ∀ r, ¬ (lo r ≤ 0 ∧ 0 < hi r)) {count : BitVec 32}
    (hk : calcPallocOrder count = some k) : ∃ s' pfn, pallocRegion c s count r = some (s', pfn) ∧
      ((pfn = 0 ∧ s' = s ∧ (k < pallocMaxOrder → ∀ j, k ≤ j → fr r j = [])) ∨
      (pfn ≠ 0 ∧ (∃ j, k ≤ j ∧ fr r j ≠ []) ∧ ∃ fr', BuddyInv c lo hi s' fr' [] (⟨pfn, k,
        r⟩ :: live) ∧ PagesOk lo hi s' (⟨pfn, k, r⟩ :: live) ∧ Reduced pallocOrderCount fr')) := by
  have hle := calcPallocOrder_le hk
  simp only [pallocRegion, hk, bind_eq_bind, bind_some]
  by_cases havail : (s.regions r).availPages < 2 ^ k
  · rw [if_pos havail]
    refine ⟨s, 0, rfl, .inl ⟨rfl, rfl, fun _ j hj => ?_⟩⟩
    by_contra hfull
    have hpow : 2 ^ k ≤ 2 ^ j := Nat.pow_le_pow_right (by norm_num) hj
    have := hpages.le_avail h hfull
    omega
  rw [if_neg havail]
  by_cases hmax : k = pallocMaxOrder
  · rw [if_pos hmax]
    exact ⟨s, 0, rfl, .inl ⟨rfl, rfl, fun hlt => absurd hmax hlt.ne⟩⟩
  rw [if_neg hmax]
  rcases splitIfEmpty_spec (k := k) h hred (by omega) with
    ⟨s1, fr1, p, l, hs1, hc1, h1, hl, hred1, hfull⟩ | ⟨hs1, hall⟩
  swap
  · rw [hs1]
    exact ⟨s, 0, rfl, .inl ⟨rfl, rfl, fun _ => hall⟩⟩
  have havail1 : 2 ^ k ≤ (s1.regions r).availPages := by
    rw [counts_availPages hc1]
    omega
  obtain ⟨s2, hs2, h2, hpages2⟩ := allocFirst_spec h1 (hpages.congr hc1) havail1 hl
  refine ⟨s2, p, ?_, .inr ⟨?_, hfull, _, h2, hpages2, hred1⟩⟩
  · rw [hs1]
    exact hs2
  · rintro rfl
    exact hzero r (h1.tiled.free_inside (show 0 ∈ fr1 r k by rw [hl]; simp) ⟨le_rfl, by positivity⟩)

theorem pfree_spec (hb : b ∈ live) :
    ∃ s' fr', pfree c s b.start = some (s', 2 ^ b.order) ∧
    BuddyInv c lo hi s' fr' [] (live.erase b) ∧
      PagesOk lo hi s' (live.erase b) ∧ Reduced pallocOrderCount fr' := by
  obtain ⟨p, k, r⟩ := b
  have hinfo := h.liveNode _ hb
  simp only [info, Prod.mk.injEq] at hinfo
  have h1 := h.ofLive hb
  have hrange := h1.hand_range mem_cons_self (start_mem ⟨p, k, r⟩)
  have h2 := h1.push (f := fun n =>
    ({ n with alloc := false } : PallocNode).setLink (s.header r k).link) rfl
    (by simp [info, setLink, hinfo])
  have hpages2 : PagesOk lo hi ((s.setNode p fun n =>
    ({ n with alloc := false } : PallocNode).setLink (s.header r k).link).setHeader r k
      fun n => n.setLink (some p)) live := hpages.congr (by simp)
  obtain ⟨s4, fr4, hs4, hc4, h4, hred4⟩ := buddyCombine_spec pallocOrderCount
    (h2.setAvailPages r (· + 2 ^ k)) (by simp) hred.push (by omega)
  refine ⟨s4.setNumPagesAlloc (· - 2 ^ k), fr4, ?_, h4.setNumPagesAlloc _,
    hpages2.free_erase hb hc4, hred4⟩
  simp only [pfree, getNodeByPfn_of_range s hrange, bind_eq_bind, bind_some, hinfo.1, hinfo.2.1,
    pfree_link (h.header r k), next_of_range hrange]
  rw [show (fun h : PallocNode => ({ h with hasNext := true, next := p } : PallocNode)) =
    fun h => h.setLink (some p) from rfl, hs4]
  rfl

end

theorem findOrder_spec {cur limit : ℕ} (h : cur < limit) :
    ∃ k, findOrder cur limit = some k ∧ k < pallocOrderCount ∧ 2 ^ k ∣ cur ∧ cur + 2 ^ k ≤ limit ∧
      ∀ j, k < j → j < pallocOrderCount → ¬ (2 ^ j ∣ cur ∧ cur + 2 ^ j ≤ limit) := by
  cases hf : findOrder cur limit with
  | none =>
    have := find?_eq_none.mp hf 0 (by simp [pallocOrderCount])
    simp only [pfnMod_eq, decide_eq_true_eq] at this
    omega
  | some k =>
    obtain ⟨hprop, pre, post, hsplit, hpre⟩ := find?_eq_some_iff_append.mp hf
    have hk : k ∈ (List.range pallocOrderCount).reverse := mem_of_find?_eq_some hf
    simp only [pfnMod_eq, decide_eq_true_eq] at hprop
    refine ⟨k, rfl, by simpa using hk, Nat.dvd_of_mod_eq_zero hprop.1, hprop.2, fun j hkj hj hbad => ?_⟩
    -- the orders after `k` in the search are smaller
    have hdown : (List.range pallocOrderCount).reverse.Pairwise (· > ·) :=
      pairwise_reverse.mpr pairwise_lt_range
    rw [hsplit] at hdown
    have hpost := (pairwise_cons.mp (pairwise_append.mp hdown).2.1).1
    have hmem : j ∈ pre ++ k :: post := by
      rw [← hsplit]
      simpa using hj
    rcases mem_append.mp hmem with hmem | hmem
    · have hno := hpre j hmem
      simp only [pfnMod_eq, Bool.not_eq_true', decide_eq_false_iff_not] at hno
      exact hno ⟨Nat.mod_eq_zero_of_dvd hbad.1, hbad.2⟩
    · rcases mem_cons.mp hmem with rfl | hmem
      · omega
      · have := hpost j hmem
        omega

theorem BuddyInv.extend (h : BuddyInv c lo hi s fr hand live) (hlo : lo r ≤ hi r)
    (hk : k < pallocOrderCount) (hdvd : 2 ^ k ∣ hi r) (hrange : ∀ x, hi r ≤ x ∧ x < hi r + 2 ^ k →
    c.pfnStart ≤ x ∧ x < c.pfnLimit)
    (hapart : ∀ r' x, r' ≠ r → hi r ≤ x ∧ x < hi r + 2 ^ k → ¬ (lo r' ≤ x ∧ x < hi r')) :
    BuddyInv c lo (update hi r (hi r + 2 ^ k)) s fr (⟨hi r, k, r⟩ :: hand) live := by
  refine ⟨h.tiled.extend hlo hk hdvd hapart, fun r' x hx => ?_, h.chain, h.clean, h.header,
    h.freeNode, h.liveNode, fun p hp => ?_⟩
  · by_cases hr : r' = r
    · subst hr
      rw [update_self] at hx
      by_cases hlt : x < hi r'
      · exact h.range r' x ⟨hx.1, hlt⟩
      · exact hrange x ⟨by omega, hx.2⟩
    · rw [update_of_ne hr] at hx
      exact h.range r' x hx
  · have hin := h.availNode p hp
    by_cases hr : (s.nodes p).region = r
    · rw [hr, update_self]
      rw [hr] at hin
      exact ⟨hin.1, by omega⟩
    · rw [update_of_ne hr]
      exact hin

/-- Each block of the region is the largest that was possible below `limit`. -/
def Greedy (fr : RegionId → ℕ → List ℕ) (r : RegionId) (limit : ℕ) : Prop :=
  ∀ k, k + 1 < pallocOrderCount → ∀ p ∈ fr r k, ¬ (2 ^ (k + 1) ∣ p ∧ p + 2 ^ (k + 1) ≤ limit)

theorem Greedy.give {limit : ℕ} (h : Greedy fr r limit)
    (hp : k + 1 < pallocOrderCount → ¬ (2 ^ (k + 1) ∣ p ∧ p + 2 ^ (k + 1) ≤ limit)) :
    Greedy (setList fr r k (p :: fr r k)) r limit := by
  intro j hj q hq
  rcases mem_give hq with hq | ⟨-, rfl, rfl⟩
  · exact h j hj q hq
  · exact hp hj

theorem initLoop_spec (limit fuel : ℕ) :
    ∀ {hi : RegionId → ℕ} {s : Palloc} {fr : RegionId → ℕ → List ℕ},
    BuddyInv c lo hi s fr [] [] → lo r ≤ hi r → hi r ≤ limit → limit ≤ hi r + fuel →
    (∀ x, hi r ≤ x ∧ x < limit → c.pfnStart ≤ x ∧ x < c.pfnLimit) →
    (∀ r' x, r' ≠ r → hi r ≤ x ∧ x < limit → ¬ (lo r' ≤ x ∧ x < hi r')) → Greedy fr r limit →
    ∃ s' fr', initLoop c r limit fuel s (hi r) = some s' ∧ s'.counts = s.counts ∧
      BuddyInv c lo (update hi r limit) s' fr' [] [] ∧ Greedy fr' r limit ∧
      ∀ r', r' ≠ r → fr' r' = fr r' := by
  induction fuel with
  | zero =>
    intro hi s fr h _ hle hfuel _ _ hg
    have heq : hi r = limit := by omega
    refine ⟨s, fr, ?_, rfl, ?_, hg, fun _ _ => rfl⟩
    · rw [initLoop, if_neg (by omega)]
    · rwa [← heq, update_eq_self]
  | succ fuel ih =>
    intro hi s fr h hlo hle hfuel hrange hapart hg
    rw [initLoop]
    by_cases hlt : hi r < limit
    swap
    · have heq : hi r = limit := by omega
      rw [if_neg hlt]
      refine ⟨s, fr, rfl, rfl, ?_, hg, fun _ _ => rfl⟩
      rwa [← heq, update_eq_self]
    rw [if_pos hlt]
    obtain ⟨k, hfind, hk, hdvd, hfit, hlargest⟩ := findOrder_spec hlt
    have h1 := h.extend hlo hk hdvd (fun x hx => hrange x (by omega)) fun r' x hr hx =>
      hapart r' x hr (by omega)
    have h2 := h1.setNode mem_cons_self (start_mem ⟨hi r, k, r⟩)
      (f := fun _ => ⟨k, r, false, false, true, 0⟩) (fun _ => rfl) rfl
    obtain ⟨s3, hs3, hsame3, h3⟩ := insertNode_spec h2 (by rw [setNode_self]; rfl)
    have hend : update hi r (hi r + 2 ^ k) r = hi r + 2 ^ k := update_self _ _ _
    obtain ⟨s', fr', hs', hc', h', hg', hframe⟩ :=
      ih h3 (by rw [hend]; omega) (by rw [hend]; omega) (by rw [hend]; omega)
      (fun x hx => hrange x (by rw [hend] at hx; omega))
      (fun r' x hr hx => by
        rw [update_of_ne hr]
        exact hapart r' x hr (by rw [hend] at hx; omega))
      (hg.give fun hj => hlargest (k + 1) (Nat.lt_succ_self k) hj)
    refine ⟨s', fr', ?_, hc'.trans hsame3.counts, by rwa [update_idem] at h', hg', fun r' hr => ?_⟩
    swap
    · rw [hframe r' hr, setList_region_of_ne _ hr]
    rw [hend] at hs'
    simp [hfind, getNodeByPfn_of_range s (hrange _ ⟨le_rfl, hlt⟩), hs3, hs']

theorem initRegion_spec (start count tags : ℕ) (h : BuddyInv c lo hi s fr [] [])
    (hpages : PagesOk lo hi s []) (hred : Reduced pallocOrderCount fr)
    (hlo : lo r = start) (hhi : hi r = start) (hrange : c.pfnStart ≤ start ∧
    start + count ≤ c.pfnLimit)
    (hapart : ∀ r' x, r' ≠ r → start ≤ x ∧ x < start + count → ¬ (lo r' ≤ x ∧ x < hi r')) :
    ∃ s' fr', initRegion c s start count r tags = some s' ∧
      BuddyInv c lo (update hi r (start + count)) s' fr' [] [] ∧
      PagesOk lo (update hi r (start + count)) s' [] ∧ Reduced pallocOrderCount fr' ∧
      s'.heads = update s.heads r (tags, (s.regions r).totalPages + count) := by
  subst hhi
  have h1 : BuddyInv c lo hi ({ s with numPagesTotal := s.numPagesTotal + count }.setRegion r
    fun g =>
      { g with tags := tags, totalPages := g.totalPages + count, availPages := g.availPages + count })
      fr [] [] := by
    refine h.congr rfl fun r' k' => ?_
    by_cases hr : r' = r
    · subst hr
      simp [Palloc.header, Palloc.setRegion]
    · simp [Palloc.header, Palloc.setRegion, hr]
  -- the region is empty, so there is nothing on its lists
  have hg : Greedy fr r (hi r + count) := fun k _ p hp => by
    have := h.tiled.free_inside hp ⟨le_rfl, Nat.lt_add_of_pos_right (Nat.two_pow_pos k)⟩
    omega
  obtain ⟨s', fr', hs', hc', h', hg', hframe⟩ := initLoop_spec (hi r + count) count h1 (by omega)
    (by omega) (by omega) (fun x hx => by omega) hapart hg
  refine ⟨s', fr', hs', h', ⟨fun r' => ?_, ?_⟩, fun r' => ?_, ?_⟩
  · have hr' := hpages.avail r'
    rw [counts_availPages hc']
    by_cases hr : r' = r
    · subst hr
      simp only [Palloc.setRegion, update_self]
      omega
    · simpa [Palloc.setRegion, hr] using hr'
  · have : s'.numPagesAlloc = s.numPagesAlloc := congrArg (fun x => x.2.2) hc'
    rw [this]
    exact hpages.alloc
  · by_cases hr : r' = r
    · subst hr
      apply h'.tiled.reduced_of_greedy
      rw [update_self]
      exact hg'
    · rw [hframe r' hr]
      exact hred r'
  · rw [counts_heads hc']
    funext r'
    by_cases hr : r' = r
    · subst hr
      simp [Palloc.heads, Palloc.setRegion]
    · simp [Palloc.heads, Palloc.setRegion, hr]

structure RegionsFit (c : PallocConfig) (regions : List RegionInit) : Prop where
  count_le : regions.length ≤ 32
  inRange : ∀ i ∈ regions, c.pfnStart ≤ i.startPfn ∧ i.fin ≤ c.pfnLimit
  apart : regions.Pairwise (Apart RegionInit.startPfn RegionInit.fin)

/-- The ends of the regions after the first `m` of them were initialized. -/
def initHi (regions : List RegionInit) (m : ℕ) (r : RegionId) : ℕ :=
  if r.val < m then regionHi regions r else regionLo regions r

variable {regions : List RegionInit} {m : ℕ} {i : RegionInit}

theorem initHi_update (hm : m < 32) (hi : regions[m]? = some i) :
    update (initHi regions m) ⟨m, hm⟩ (i.startPfn + i.count) = initHi regions (m + 1) := by
  funext r
  by_cases hr : r = ⟨m, hm⟩
  · subst hr
    simp [initHi, regionHi, hi, RegionInit.fin]
  · have hne : r.val ≠ m := fun h => hr (Fin.ext h)
    rw [update_of_ne hr]
    simp only [initHi]
    split_ifs <;> first | rfl | omega

def initHeads (regions : List RegionInit) (m : ℕ) (r : RegionId) : ℕ × ℕ :=
  if r.val < m then (regions[r.val]?).elim (0, 0) fun i => (i.tags, i.count) else (0, 0)

theorem initHeads_update (hm : m < 32) (hi : regions[m]? = some i) :
    update (initHeads regions m) ⟨m, hm⟩ (i.tags, i.count) = initHeads regions (m + 1) := by
  funext r
  by_cases hr : r = ⟨m, hm⟩
  · subst hr
    simp [initHeads, hi]
  · have hne : r.val ≠ m := fun h => hr (Fin.ext h)
    rw [update_of_ne hr]
    unfold initHeads
    split_ifs <;> first | rfl | omega

theorem initHeads_length (h : regions.length ≤ m) :
    initHeads regions m = initHeads regions regions.length := by
  funext r
  unfold initHeads
  by_cases hr : r.val < regions.length
  · rw [if_pos hr, if_pos (by omega)]
  · rw [getElem?_eq_none (by omega)]
    simp

theorem initRegions_spec (hfit : RegionsFit c regions) (rest : List RegionInit) :
    ∀ (m : ℕ) (s : Palloc) (fr : RegionId → ℕ → List ℕ), regions.drop m = rest →
      BuddyInv c (regionLo regions) (initHi regions m) s fr [] [] →
      PagesOk (regionLo regions) (initHi regions m) s [] → Reduced pallocOrderCount fr →
      s.heads = initHeads regions m →
      ∃ s' fr', initRegions c rest m s = some s' ∧
        BuddyInv c (regionLo regions) (regionHi regions) s' fr' [] [] ∧
        PagesOk (regionLo regions) (regionHi regions) s' [] ∧ Reduced pallocOrderCount fr' ∧
        s'.heads = initHeads regions regions.length := by
  induction rest with
  | nil =>
    intro m s fr hdrop h hpages hred hheads
    have hall : initHi regions m = regionHi regions := by
      funext r
      have hlen := drop_eq_nil_iff.mp hdrop
      unfold initHi
      split_ifs with hr
      · rfl
      · have hnone : regions[r.val]? = none := getElem?_eq_none (by omega)
        simp [regionLo, regionHi, hnone]
    refine ⟨s, fr, rfl, hall ▸ h, hall ▸ hpages, hred, hheads.trans ?_⟩
    exact initHeads_length (drop_eq_nil_iff.mp hdrop)
  | cons i rest ih =>
    intro m s fr hdrop h hpages hred hheads
    have hget : regions[m]? = some i := by
      have := congrArg (fun l => l[0]?) hdrop
      simpa using this
    have hm : m < 32 := (List.getElem?_eq_some_iff.mp hget).1.trans_le hfit.count_le
    have hmem : i ∈ regions := List.mem_of_getElem? hget
    have hlo : regionLo regions ⟨m, hm⟩ = i.startPfn := by simp [regionLo, hget]
    have hhi : initHi regions m ⟨m, hm⟩ = i.startPfn := by simp [initHi, hlo]
    obtain ⟨s1, fr1, hs1, h1, hpages1, hred1, hheads1⟩ :=
      initRegion_spec i.startPfn i.count i.tags h hpages hred
      hlo hhi
      (hfit.inRange i hmem) (by
        intro r' x hne hx hx'
        simp only [initHi] at hx'
        split_ifs at hx' with hr
        swap
        · omega
        cases hget' : regions[r'.val]? with
        | none => simp [regionHi, hget'] at hx'
        | some j =>
          have hap := List.pairwise_iff_getElem.mp hfit.apart r'.val m
            (List.getElem?_eq_some_iff.mp hget').1 (List.getElem?_eq_some_iff.mp hget).1 hr x
          rw [(List.getElem?_eq_some_iff.mp hget').2, (List.getElem?_eq_some_iff.mp hget).2] at hap
          simp only [regionLo, regionHi, hget'] at hx'
          exact hap ⟨hx', hx⟩)
    rw [initHi_update hm hget] at h1 hpages1
    have htotal : (s.regions ⟨m, hm⟩).totalPages = 0 := by
      have := congrArg Prod.snd (congrFun hheads ⟨m, hm⟩)
      simpa [Palloc.heads, initHeads] using this
    rw [hheads, htotal, Nat.zero_add, initHeads_update hm hget] at hheads1
    obtain ⟨s2, fr2, hs2, h2⟩ := ih (m + 1) s1 fr1 (by rw [← drop_drop, hdrop]; rfl) h1 hpages1
      hred1 hheads1
    refine ⟨s2, fr2, ?_, h2⟩
    simp [initRegions, dif_pos hm, hs1, hs2]

def PallocInv (L : PallocLayout) (s : PallocRun) : Prop :=
  ∃ fr, BuddyInv L.toPallocConfig (regionLo L.regions) (regionHi L.regions) s.palloc fr [] s.live ∧
    PagesOk (regionLo L.regions) (regionHi L.regions) s.palloc s.live ∧ Reduced pallocOrderCount fr

theorem buddyInv_zero (c : PallocConfig) (regions : List RegionInit) :
    BuddyInv c (regionLo regions) (initHi regions 0) Palloc.zero (fun _ _ => []) [] [] := by
  have hempty : ∀ r x, ¬ (regionLo regions r ≤ x ∧ x < initHi regions 0 r) := by
    intro r x
    simp only [initHi, Nat.not_lt_zero, if_false]
    omega
  have hnone : ∀ r : RegionId, regionBlocks pallocOrderCount (fun _ _ => []) ([] ++ []) r = [] :=
    fun r => by
    simp [regionBlocks, listBlocks]
  refine ⟨⟨fun r => ⟨fun x => ?_, ?_⟩, fun _ _ _ => rfl, fun r r' x hx => absurd hx (hempty r x)⟩,
    fun r x hx => absurd hx (hempty r x), fun r k => rfl, fun p _ => rfl, fun r k => rfl,
    ?_, ?_, ?_⟩
  · rw [if_neg (hempty r x)]
    rfl
  · rw [hnone]
    simp
  · simp
  · simp
  · simp [Palloc.zero, zero]

theorem initRegions_fit (hfit : RegionsFit c regions) :
    ∃ s fr, initRegions c regions 0 Palloc.zero = some s ∧
      BuddyInv c (regionLo regions) (regionHi regions) s fr [] [] ∧
      PagesOk (regionLo regions) (regionHi regions) s [] ∧ Reduced pallocOrderCount fr ∧
      s.heads = initHeads regions regions.length := by
  have hpages : PagesOk (regionLo regions) (initHi regions 0) Palloc.zero [] :=
    ⟨fun r => by simp [Palloc.zero, pageSum, initHi], rfl⟩
  exact initRegions_spec hfit regions 0 Palloc.zero _ rfl (buddyInv_zero c regions) hpages
    (fun _ _ _ _ hp => absurd hp not_mem_nil) (funext fun _ => rfl)

/-- `init_region` over the layout does not panic. -/
theorem initRegions_total (L : PallocLayout) :
    ∃ s, initRegions L.toPallocConfig L.regions 0 Palloc.zero = some s ∧ PallocInv L ⟨s, []⟩ := by
  obtain ⟨s, fr, hs, h, hp, hred, -⟩ := initRegions_fit ⟨L.count_le, L.inRange, L.apart⟩
  exact ⟨s, hs, fr, h, hp, hred⟩

def PallocCall.Allowed (s : PallocRun) : PallocCall → Prop
  | .pallocRegion count _ => (calcPallocOrder count).isSome
  | .pfree pfn => ∃ b ∈ s.live, b.start = pfn

theorem PallocLayout.zero_outside (L : PallocLayout) (r : RegionId) :
    ¬ (regionLo L.regions r ≤ 0 ∧ 0 < regionHi L.regions r) := by
  cases hget : L.regions[r.val]? with
  | none => simp [regionHi, hget]
  | some i =>
    have := L.notZero i (mem_of_getElem? hget)
    simp [regionLo, hget, this]

variable {L : PallocLayout} {a : PallocCall} {s : PallocRun}

theorem pallocStep_spec (h : PallocInv L s)
    (ha : a.Allowed s) : ∃ t, pallocStep L.toPallocConfig s a = some t ∧ PallocInv L t := by
  obtain ⟨fr, hinv, hpages, hred⟩ := h
  cases a with
  | pallocRegion count r =>
    obtain ⟨k, hk⟩ := isSome_iff_exists.mp ha
    obtain ⟨s', pfn, hs', hcases⟩ := pallocRegion_spec (r := r) hinv hpages hred L.zero_outside hk
    refine ⟨⟨s', if pfn = 0 then s.live else ⟨pfn, k, r⟩ :: s.live⟩, ?_, ?_⟩
    · simp [pallocStep, hk, hs']
    rcases hcases with ⟨rfl, rfl, -⟩ | ⟨hne, -, fr', hinv', hpages'⟩
    · exact ⟨fr, hinv, hpages, hred⟩
    · rw [if_neg hne]
      exact ⟨fr', hinv', hpages'⟩
  | pfree pfn =>
    obtain ⟨b, hb, rfl⟩ := ha
    have hsome : (s.live.find? fun d => d.start = b.start).isSome := find?_isSome.mpr ⟨b, hb, by simp⟩
    obtain ⟨d, hd⟩ := isSome_iff_exists.mp hsome
    have hstart : d.start = b.start := by simpa using find?_some hd
    obtain ⟨s', fr', hs', hinv', hpages'⟩ := pfree_spec hinv hpages hred (mem_of_find?_eq_some hd)
    rw [hstart] at hs'
    refine ⟨⟨s', s.live.erase d⟩, ?_, fr', hinv', hpages'⟩
    simp [pallocStep, hd, hs']

theorem allowed_of_step {c : PallocConfig} {t : PallocRun} (h : pallocStep c s a = some t) :
    a.Allowed s := by
  cases a with
  | pallocRegion count r =>
    simp only [pallocStep, bind_eq_bind, bind_eq_some_iff] at h
    obtain ⟨k, hk, -⟩ := h
    exact isSome_iff_exists.mpr ⟨k, hk⟩
  | pfree pfn =>
    simp only [pallocStep, bind_eq_bind, bind_eq_some_iff] at h
    obtain ⟨b, hb, -⟩ := h
    exact ⟨b, mem_of_find?_eq_some hb, by simpa using find?_some hb⟩

theorem pallocInv_reach {s0 : Palloc}
    (h0 : initRegions L.toPallocConfig L.regions 0 Palloc.zero = some s0)
    (h : Reach (pallocStep L.toPallocConfig) anyStep ⟨s0, []⟩ s) : PallocInv L s := by
  obtain ⟨s1, hs1, hinv⟩ := initRegions_total L
  obtain rfl : s1 = s0 := Option.some.inj (hs1.symm.trans h0)
  refine h.invariant hinv fun u a v hu _ hstep => ?_
  obtain ⟨t, ht, hinvt⟩ := pallocStep_spec hu (allowed_of_step hstep)
  obtain rfl : t = v := Option.some.inj (ht.symm.trans hstep)
  exact hinvt

theorem PallocInv.regionSound (h : PallocInv L s) (r : RegionId) :
    RegionSound L.toPallocConfig s r (regionLo L.regions r) (regionHi L.regions r) := by
  obtain ⟨fr, hinv, hpages, -⟩ := h
  have hlist : buddyList L.toPallocConfig s.palloc = fr := by
    funext r k
    exact hinv.buddyList_eq r k
  have htiling := hinv.tiled.tiling r
  refine ⟨?_, ?_, ?_, ?_, ?_, ?_⟩
  · rw [hlist]
    exact htiling.pairwise
  · rw [hlist]
    exact fun b hb => (htiling.dyadic b hb).2
  · rw [hlist]
    intro b hb
    have hpos := Nat.two_pow_pos b.order
    have h1 := htiling.inside hb b.start_mem
    have h2 := htiling.inside hb (x := b.fin - 1) (by simp only [fin]; omega)
    omega
  · rw [hlist]
    exact fun x h1 h2 => htiling.exists_block ⟨h1, h2⟩
  · rw [hlist]
    exact hpages.avail_eq hinv r
  · intro k _
    rw [hlist, header_value (hinv.header r k), (hinv.chain r k).eq_nil_iff]

/-- Soundness of the buddy allocator over every run. -/
theorem buddy_allocator_sound (L : PallocLayout) (s0 : Palloc) (s : PallocRun)
    (h0 : initRegions L.toPallocConfig L.regions 0 Palloc.zero = some s0)
    (h : Reach (pallocStep L.toPallocConfig) anyStep ⟨s0, []⟩ s) :
    (∀ r, RegionSound L.toPallocConfig s r (regionLo L.regions r) (regionHi L.regions r)) ∧
      s.live.Pairwise (Apart start fin) := by
  have hinv := pallocInv_reach h0 h
  refine ⟨hinv.regionSound, ?_⟩
  obtain ⟨fr, hbuddy, -⟩ := hinv
  exact hbuddy.tiled.held_pairwise

def twoRegions : PallocLayout where
  pfnStart := 1
  pfnLimit := 12
  limit_le := by decide
  regions := [⟨4, 4, 0⟩, ⟨9, 3, 1⟩]
  count_le := by decide
  inRange := by decide
  apart := by
    simp only [pairwise_cons, mem_singleton, forall_eq, not_mem_nil, false_implies,
      implies_true, List.Pairwise.nil, and_true, Apart, RegionInit.fin]
    omega
  notZero := by decide

/-- A region is split twice, and one of its blocks comes back and is combined. -/
theorem buddy_allocator_sound_split_and_combine :
    ∃ s0 s, initRegions twoRegions.toPallocConfig twoRegions.regions 0 Palloc.zero = some s0 ∧
      Reach (pallocStep twoRegions.toPallocConfig) anyStep ⟨s0, []⟩ s ∧ s.live = [⟨9, 0, 1⟩, ⟨6, 1, 0⟩] ∧
      (∀ r, RegionSound twoRegions.toPallocConfig s r (regionLo twoRegions.regions r)
      (regionHi twoRegions.regions r)) ∧ s.live.Pairwise (Apart start fin) := by
  have hrun : (initRegions twoRegions.toPallocConfig twoRegions.regions 0 Palloc.zero).any fun s0 =>
      (execute (pallocStep twoRegions.toPallocConfig) anyStep ⟨s0, []⟩
        [.pallocRegion 2 0, .pallocRegion 1 0, .pallocRegion 1 1, .pfree 5]).any fun s =>
          s.live = [⟨9, 0, 1⟩, ⟨6, 1, 0⟩] := by decide +kernel
  obtain ⟨s0, h0, hs0⟩ := (Option.any_eq_true ..).mp hrun
  obtain ⟨s, hreach, hlive⟩ := exists_reach _ hs0
  exact ⟨s0, s, h0, hreach, hlive, buddy_allocator_sound twoRegions s0 s h0 hreach⟩

/-- No call of a run panics or fails to return. -/
theorem palloc_run_total {s0 : Palloc}
    (h0 : initRegions L.toPallocConfig L.regions 0 Palloc.zero = some s0)
    (h : Reach (pallocStep L.toPallocConfig) anyStep ⟨s0, []⟩ s) (ha : a.Allowed s) :
    ∃ t, pallocStep L.toPallocConfig s a = some t := by
  obtain ⟨t, ht, -⟩ := pallocStep_spec (pallocInv_reach h0 h) ha
  exact ⟨t, ht⟩

theorem palloc_run_total_allocates :
    ∃ s0 t, initRegions twoRegions.toPallocConfig twoRegions.regions 0 Palloc.zero = some s0 ∧
    pallocStep twoRegions.toPallocConfig ⟨s0, []⟩ (.pallocRegion 2 0) = some t := by
  obtain ⟨s0, h0, -⟩ := initRegions_total twoRegions
  obtain ⟨t, ht⟩ := palloc_run_total h0 (Reach.refl _) (a := .pallocRegion 2 0) rfl
  exact ⟨s0, t, h0, ht⟩

theorem PallocInv.buddiesCombined (h : PallocInv L s) :
    BuddiesCombined L.toPallocConfig s.palloc := by
  obtain ⟨fr, hinv, -, hred⟩ := h
  intro r k hk p hp hb
  rw [hinv.buddyList_eq] at hp hb
  exact hred r k (by simp only [pallocMaxOrder] at hk; omega) p hp hb

/-- Without live allocations the lists are determined by the layout. -/
theorem PallocInv.mem_of_idle {t : PallocRun} (hs : PallocInv L s) (ht : PallocInv L t)
    (hls : s.live = []) (hlt : t.live = []) {r : RegionId} {k p : ℕ}
    (hp : p ∈ buddyList L.toPallocConfig s.palloc r k) : p ∈ buddyList L.toPallocConfig t.palloc r k := by
  obtain ⟨fr, hinv, -, hred⟩ := hs
  obtain ⟨fr', hinv', -, hred'⟩ := ht
  rw [hinv.buddyList_eq] at hp
  rw [hinv'.buddyList_eq]
  have htiled := hinv.tiled
  have htiled' := hinv'.tiled
  rw [hls] at htiled
  rw [hlt] at htiled'
  exact htiled.canonical htiled' hred hred' hp

/-- Coalescing is canonical: no two free buddies in any run, and an idle allocator has the free
blocks that it was initialized with. -/
theorem buddy_coalescing_canonical (L : PallocLayout) (s0 : Palloc) (s : PallocRun)
    (h0 : initRegions L.toPallocConfig L.regions 0 Palloc.zero = some s0)
    (h : Reach (pallocStep L.toPallocConfig) anyStep ⟨s0, []⟩ s) :
    BuddiesCombined L.toPallocConfig s.palloc ∧ (s.live = [] → ∀ r k p,
      p ∈ buddyList L.toPallocConfig s.palloc r k ↔ p ∈ buddyList L.toPallocConfig s0 r k) := by
  have hinv := pallocInv_reach h0 h
  have hinv0 := pallocInv_reach h0 (Reach.refl _)
  exact ⟨hinv.buddiesCombined, fun hlive r k p =>
    ⟨hinv.mem_of_idle hinv0 hlive rfl, hinv0.mem_of_idle hinv rfl hlive⟩⟩

/-- Three allocations that split a region, all given back in another order. -/
theorem buddy_coalescing_after_all_freed :
    ∃ s0 s, initRegions twoRegions.toPallocConfig twoRegions.regions 0 Palloc.zero = some s0 ∧
      Reach (pallocStep twoRegions.toPallocConfig) anyStep ⟨s0, []⟩ s ∧
      BuddiesCombined twoRegions.toPallocConfig s.palloc ∧ ∀ r k p,
        p ∈ buddyList twoRegions.toPallocConfig s.palloc r k ↔
        p ∈ buddyList twoRegions.toPallocConfig s0 r k := by
  have hrun : (initRegions twoRegions.toPallocConfig twoRegions.regions 0 Palloc.zero).any fun s0 =>
      (execute (pallocStep twoRegions.toPallocConfig) anyStep ⟨s0, []⟩
        [.pallocRegion 2 0, .pallocRegion 1 0, .pallocRegion 1 1, .pfree 6, .pfree 9,
        .pfree 5]).any fun s =>
          s.live = [] := by decide +kernel
  obtain ⟨s0, h0, hs0⟩ := (Option.any_eq_true ..).mp hrun
  obtain ⟨s, hreach, hlive⟩ := exists_reach _ hs0
  obtain ⟨hcombined, hidle⟩ := buddy_coalescing_canonical twoRegions s0 s h0 hreach
  exact ⟨s0, s, h0, hreach, hcombined, hidle hlive⟩

end Toddler
