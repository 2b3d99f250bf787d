import Toddler.Proofs.PageOwnership

/-! Pages shared by `vm_map_cross`. As long as the guest's block is there the owner's block keeps
its pages mapped, so what the owner frees nobody else maps. -/

namespace Toddler

open Function List Option UserProc

variable {n a v pg : ℕ} {c : PageConfig} {s s' : UserPages n} {p q r : Fin n} {b : VmBlock}
  {u u' u'' : UserProc} {own : List ℕ}

/-- A move of a process that adds no guest page and unmaps no owner page. Its new blocks have new
ids. -/
structure ProcKeeps (u u' : UserProc) : Prop where
  guest : ∀ b ∈ u'.blocks, b.mapType = .guest → ∀ pg, b.hasPage pg = true →
    translate u'.pageTable pg ≠ 0 →
    ∃ d ∈ u.blocks, d.mapType = .guest ∧ d.id = b.id ∧ d.hasPage pg = true ∧
      translate u.pageTable pg = translate u'.pageTable pg
  owner : ∀ b ∈ u.blocks, b.mapType = .owner → ∀ pg, b.hasPage pg = true →
    translate u.pageTable pg ≠ 0 →
    ∃ d ∈ u'.blocks, d.mapType = .owner ∧ d.id = b.id ∧ d.hasPage pg = true ∧
      translate u'.pageTable pg = translate u.pageTable pg
  nextId : u.vm.nextId ≤ u'.vm.nextId
  ids : ∀ b ∈ u'.blocks, (∃ d ∈ u.blocks, d.id = b.id) ∨ u.vm.nextId ≤ b.id

theorem ProcKeeps.refl (u : UserProc) : ProcKeeps u u :=
  ⟨fun b hb ht _ hpg _ => ⟨b, hb, ht, rfl, hpg, rfl⟩, fun b hb ht _ hpg _ => ⟨b, hb, ht, rfl, hpg,
    rfl⟩, le_rfl, fun b hb => .inl ⟨b, hb, rfl⟩⟩

theorem ProcKeeps.trans (h : ProcKeeps u u') (h' : ProcKeeps u' u'') : ProcKeeps u u'' := by
  refine ⟨fun b hb ht pg hpg hm => ?_, fun b hb ht pg hpg hm => ?_, h.nextId.trans h'.nextId,
    fun b hb => ?_⟩
  · obtain ⟨d, hd, hdt, hdid, hdpg, hdtr⟩ := h'.guest b hb ht pg hpg hm
    obtain ⟨e, he, het, heid, hepg, hetr⟩ := h.guest d hd hdt pg hdpg (hdtr ▸ hm)
    exact ⟨e, he, het, heid.trans hdid, hepg, hetr.trans hdtr⟩
  · obtain ⟨d, hd, hdt, hdid, hdpg, hdtr⟩ := h.owner b hb ht pg hpg hm
    obtain ⟨e, he, het, heid, hepg, hetr⟩ := h'.owner d hd hdt pg hdpg (hdtr ▸ hm)
    exact ⟨e, he, het, heid.trans hdid, hepg, hetr.trans hdtr⟩
  · rcases h'.ids b hb with ⟨d, hd, hid⟩ | hle
    · rw [← hid]
      exact h.ids d hd
    · exact .inr (h.nextId.trans hle)

/-- Nothing is mapped or unmapped and the blocks are the same. -/
theorem ProcKeeps.of_mem (hb : ∀ b, b ∈ u'.blocks ↔ b ∈ u.blocks) (hpt : u'.pageTable = u.pageTable)
    (hid : u.vm.nextId ≤ u'.vm.nextId) : ProcKeeps u u' := by
  refine ⟨fun b hb' ht pg hpg _ => ?_, fun b hb' ht pg hpg _ => ?_, hid, fun b hb' => ?_⟩
  · exact ⟨b, (hb b).mp hb', ht, rfl, hpg, by rw [hpt]⟩
  · exact ⟨b, (hb b).mpr hb', ht, rfl, hpg, by rw [hpt]⟩
  · exact .inl ⟨b, (hb b).mp hb', rfl⟩

theorem ProcKeeps.moved {vm : Vm} (hm : Moved u.vm vm) : ProcKeeps u { u with vm := vm } :=
  ProcKeeps.of_mem (fun _ => (blocks_perm_of_moved hm).mem_iff) rfl hm.nextId.ge

variable {size : ℕ}

theorem ProcKeeps.alloc_none {vm : Vm} {base : ℕ} (ha : vmAlloc u.vm base size = (vm, none)) :
    ProcKeeps u { u with vm := vm } := by
  obtain ⟨h1, h2, h3, h4, -, h6, -⟩ := vmAlloc_spec ha
  refine ProcKeeps.of_mem (fun b => ?_) rfl (by simp only [h4]; omega)
  simp only [blocks, Vm.active, h1, h2, h3, h6 rfl]

variable {t : VmMapType}

theorem Alloced.keeps (h : Alloced s s' p b t) : ProcKeeps (s.procs p) (s'.procs p) := by
  have hmem : ∀ d, d ∈ (s'.procs p).blocks ↔ d = { b with mapType := t } ∨ d ∈ (s.procs p).blocks := by
    intro d
    rw [h.blocks.mem_iff, mem_cons]
  refine ⟨fun d hd ht pg hpg hm => ?_, fun d hd ht pg hpg _ => ?_, ?_, fun d hd => ?_⟩
  · rw [h.pageTable] at hm ⊢
    rcases (hmem d).mp hd with rfl | hd
    · exact absurd (h.clear pg hpg) hm
    · exact ⟨d, hd, ht, rfl, hpg, rfl⟩
  · rw [h.pageTable]
    exact ⟨d, (hmem d).mpr (.inr hd), ht, rfl, hpg, rfl⟩
  · rw [h.nextId]
    omega
  · rcases (hmem d).mp hd with rfl | hd
    · exact .inr h.id.ge
    · exact .inl ⟨d, hd, rfl⟩

theorem ProcKeeps.grow (h : BlocksInv c u) (hb : b ∈ u.blocks) (howner : b.mapType = .owner)
    (hpg : b.hasPage pg = true) (h0 : translate u.pageTable pg = 0) (hvm : u'.vm = u.vm)
    (hcl : u'.cleaner = u.cleaner)
    (htr : translate u'.pageTable = update (translate u.pageTable) pg a) : ProcKeeps u u' := by
  have hblocks : u'.blocks = u.blocks := by rw [blocks, blocks, hvm, hcl]
  refine ⟨fun d hd ht x hx hm => ?_, fun d hd ht x hx hm => ?_, by rw [hvm], fun d hd => ?_⟩
  · rw [hblocks] at hd
    refine ⟨d, hd, ht, rfl, hx, ?_⟩
    rw [htr, update_of_ne]
    rintro rfl
    rw [h.same_block hd hb hx hpg, howner] at ht
    cases ht
  · refine ⟨d, hblocks ▸ hd, ht, rfl, hx, ?_⟩
    rw [htr, update_of_ne]
    rintro rfl
    exact hm h0
  · exact .inl ⟨d, hblocks ▸ hd, rfl⟩

theorem ProcKeeps.setOwner (h : BlocksInv c u) (hb : b ∈ u.vm.inuseMapped) :
    ProcKeeps u { u with vm := u.vm.setMapType b.id .owner } := by
  have hblocks := h.setMapType_blocks hb .owner
  have hpage : ∀ d : VmBlock, ∀ x, (retype b.id .owner d).hasPage x = d.hasPage x := by
    intro d x
    simp [VmBlock.hasPage]
  refine ⟨fun d' hd' ht x hx _ => ?_, fun d hd ht x hx _ => ?_, le_rfl, fun d' hd' => ?_⟩
  · rw [hblocks] at hd'
    obtain ⟨d, hd, rfl⟩ := mem_map.mp hd'
    refine ⟨d, hd, ?_, (retype_id _ _ _).symm, hpage d x ▸ hx, rfl⟩
    by_cases hid : d.id = b.id
    · rw [retype, if_pos hid] at ht
      cases ht
    · rwa [retype_of_ne _ hid] at ht
  · rw [hblocks]
    refine ⟨_, mem_map_of_mem hd, ?_, retype_id _ _ _, (hpage d x).trans hx, rfl⟩
    unfold retype
    split_ifs
    · rfl
    · exact ht
  · rw [hblocks] at hd'
    obtain ⟨d, hd, rfl⟩ := mem_map.mp hd'
    exact .inl ⟨d, hd, (retype_id _ _ _).symm⟩

theorem ProcKeeps.freed {k : PageCleaner} (hk : u.cleaner = some k) (num : ℤ) (off : ℕ) :
    ProcKeeps u
    { u with numPallocPages := num, cleaner := some { k with toFree := none, offset := off } } := by
  refine ProcKeeps.of_mem (fun b => ?_) rfl le_rfl
  simp [blocks, hk]

/-- A block that has been cleaned had nothing mapped any more. -/
theorem ProcKeeps.done (h : ProcInv c u own) (hd : u.done = some u') : ProcKeeps u u' := by
  simp only [UserProc.done, bind_eq_bind, bind_eq_some_iff] at hd
  obtain ⟨k, hk, hd⟩ := hd
  split_ifs at hd with hend
  cases hd
  have hclear := h.done_clear hk hend.2
  have hblocks : ∀ b, b ∈ u.blocks ↔ b = k.block ∨ b ∈ u.vm.active := by
    intro b
    simp [blocks, hk]
  refine ⟨fun b hb ht pg hpg _ => ?_, fun b hb ht pg hpg hm => ?_, le_rfl, fun b hb => ?_⟩
  · exact ⟨b, (hblocks b).mpr (.inr hb), ht, rfl, hpg, rfl⟩
  · rcases (hblocks b).mp hb with rfl | hb
    · exact absurd (hclear pg hpg) hm
    · exact ⟨b, hb, ht, rfl, hpg, rfl⟩
  · exact .inl ⟨b, (hblocks b).mpr (.inr hb), rfl⟩

/-- `a`, which a guest block of `q` maps, is still mapped by the owner of its `vm_map_cross`. -/
def SharedFrom (s : UserPages n) (q : Fin n) (id a : ℕ) : Prop :=
  ∃ x ∈ s.crosses, x.guest = q ∧ x.guestBlock = id ∧
    ∃ b ∈ (s.procs x.owner).blocks, b.id = x.ownerBlock ∧ b.mapType = .owner ∧
      ∃ pg, b.hasPage pg = true ∧ translate (s.procs x.owner).pageTable pg = a

structure SharedInv (s : UserPages n) : Prop where
  guest : ∀ q, ∀ b ∈ (s.procs q).blocks, b.mapType = .guest → ∀ pg, b.hasPage pg = true →
    translate (s.procs q).pageTable pg ≠ 0 →
    SharedFrom s q b.id (translate (s.procs q).pageTable pg)
  known : ∀ x ∈ s.crosses, x.ownerBlock < (s.procs x.owner).vm.nextId ∧
    x.guestBlock < (s.procs x.guest).vm.nextId
  cleaned : ∀ p, ∀ k ∈ (s.procs p).cleaner, ∀ x ∈ s.crosses, x.owner = p →
    x.ownerBlock = k.block.id → x.guestBlock ∉ (s.procs x.guest).blocks.map VmBlock.id

theorem sharedInv_init (c : PageConfig) (live : List (PageRun n)) (mem : ℕ → UInt8) :
    SharedInv (pagesInit c live mem) := by
  refine ⟨fun q b hb => ?_, fun x hx => ?_, fun p k hk => ?_⟩
  · simp [pagesInit, blocks, vmCreate, Vm.active] at hb
  · simp [pagesInit] at hx
  · simp [pagesInit] at hk

section

variable (h : SharedInv s)
include h

/-- What makes a page given to `pfree_paddr` one that no other process maps. -/
theorem SharedInv.unmapped (hp : PagesInv c s) : SharedUnmapped s := by
  intro p a ha q hq pg htr
  obtain ⟨k, hk, hka⟩ := bind_eq_some_iff.mp ha
  have hown := ((hp.procs p).cleaner k hk).pending a hka |>.1
  have ha0 : a ≠ 0 := fun h0 => hp.nonzero p (h0 ▸ hown)
  have hm : translate (s.procs q).pageTable pg ≠ 0 := htr ▸ ha0
  -- a page that an owner block maps is not about to be freed
  have howner : ∀ p' : Fin n, ∀ b ∈ (s.procs p').blocks, b.mapType = .owner →
    ∀ x, b.hasPage x = true →
      translate (s.procs p').pageTable x = a → p' = p ∧ a ∉ (s.procs p').pending := by
    intro p' b hb ht x hx hxa
    have hin := (hp.procs p').owner.mapsTo (show x ∈ (s.procs p').ownerPages from ⟨hxa ▸ ha0, b, hb,
      ht, hx⟩)
    rw [hxa] at hin
    exact ⟨hp.unique p' p a hin.1 hown, hin.2⟩
  obtain ⟨b, hb, htype, hbpg⟩ := (hp.procs q).mapped pg hm
  cases ht : b.mapType with
  | none => exact htype ht
  | owner => exact hq (howner q b hb ht pg hbpg htr).1
  | guest =>
    obtain ⟨x, -, -, -, d, hd, -, hdt, y, hy, hya⟩ := h.guest q b hb ht pg hbpg hm
    obtain ⟨hxp, hnot⟩ := howner x.owner d hd hdt y hy (hya.trans htr)
    rw [hxp] at hnot
    exact hnot ha

/-- Moves that keep the owner pages of every process. -/
theorem SharedInv.keeps (hc : s'.crosses = s.crosses) (hk : ∀ q, ProcKeeps (s.procs q) (s'.procs q))
    (hcl : ∀ p, ∀ k ∈ (s'.procs p).cleaner, ∀ x ∈ s.crosses, x.owner = p →
    x.ownerBlock = k.block.id →
      x.guestBlock ∉ (s.procs x.guest).blocks.map VmBlock.id) : SharedInv s' := by
  refine ⟨fun q b hb ht pg hpg hm => ?_, fun x hx => ?_, fun p k hk' x hx hxp hxk => ?_⟩
  · obtain ⟨d, hd, hdt, hdid, hdpg, hdtr⟩ := (hk q).guest b hb ht pg hpg hm
    obtain ⟨x, hx, hxq, hxid, e, he, heid, het, y, hy, hytr⟩ := h.guest q d hd hdt pg hdpg (hdtr ▸ hm)
    have hy0 : translate (s.procs x.owner).pageTable y ≠ 0 := by rw [hytr, hdtr]; exact hm
    obtain ⟨e', he', het', heid', hey', hetr'⟩ := (hk x.owner).owner e he het y hy hy0
    exact ⟨x, hc ▸ hx, hxq, hxid.trans hdid, e', he', heid'.trans heid, het', y,
      hey', by rw [hetr', hytr, hdtr]⟩
  · rw [hc] at hx
    obtain ⟨h1, h2⟩ := h.known x hx
    exact ⟨h1.trans_le (hk x.owner).nextId, h2.trans_le (hk x.guest).nextId⟩
  · rw [hc] at hx
    intro hin
    obtain ⟨b, hb, hbid⟩ := mem_map.mp hin
    rcases (hk x.guest).ids b hb with ⟨d, hd, hdid⟩ | hle
    · exact hcl p k hk' x hx hxp hxk (mem_map.mpr ⟨d, hd, hdid.trans hbid⟩)
    · have := (h.known x hx).2
      omega

theorem SharedInv.setProc {live : List (PageRun n)} (hk : ProcKeeps (s.procs p) u)
    (hcl : ∀ k ∈ u.cleaner, ∀ x ∈ s.crosses, x.owner = p → x.ownerBlock = k.block.id →
      x.guestBlock ∉ (s.procs x.guest).blocks.map VmBlock.id) :
    SharedInv ({ s with live := live }.setProc p u) := by
  refine h.keeps rfl (fun q => ?_) fun q k hk' => ?_
  · by_cases hq : q = p
    · subst hq
      simpa [UserPages.setProc] using hk
    · simpa [UserPages.setProc, hq] using ProcKeeps.refl (s.procs q)
  · by_cases hq : q = p
    · subst hq
      simp only [UserPages.setProc, update_self] at hk'
      exact hcl k hk'
    · simp only [UserPages.setProc, update_of_ne hq] at hk'
      exact h.cleaned q k hk'

/-- The cleaner unmaps a page of its block. By then the guest's block is gone. -/
theorem SharedInv.unmap (hp : PagesInv c s) (hu : (s.procs p).unmap = some u) :
    SharedInv (s.setProc p u) := by
  simp only [UserProc.unmap, bind_eq_bind, bind_eq_some_iff] at hu
  obtain ⟨k, hk, hu⟩ := hu
  split_ifs at hu with hgo
  cases hu
  obtain ⟨hkblock, hcases⟩ := cleanerUnmap_spec (s.procs p).pageTable hgo.1
  have hkmem := ((hp.procs p).page_mul hk ((hp.procs p).cleaner k hk).offset).2.1
  have hkpage := PageCleaner.hasPage_page hgo.2
  generalize cleanerUnmap (s.procs p).pageTable k = out at *
  have htr : ∀ x, translate out.1 x = translate (s.procs p).pageTable x ∨
      (x = k.page ∧ translate out.1 x = 0) := by
    intro x
    rcases hcases with ⟨hsame, -⟩ | ⟨hsame, -, -⟩
    · exact .inl (by rw [hsame])
    · rw [hsame, translate_unmapPage, update_apply]
      split_ifs with hx
      · exact .inr ⟨hx, rfl⟩
      · exact .inl rfl
  have htr' : ∀ q x, translate ((s.setProc p
    { s.procs p with pageTable := out.1, cleaner := some out.2 }).procs q).pageTable x =
      translate (s.procs q).pageTable x ∨ (q = p ∧ x = k.page ∧
        translate ((s.setProc p { s.procs p with pageTable := out.1, cleaner := some out.2 }).procs
        q).pageTable x = 0) := by
    intro q x
    by_cases hq : q = p
    · subst hq
      simpa [UserPages.setProc] using htr x
    · simp [UserPages.setProc, hq]
  have hblocks : ∀ q, ((s.setProc p
    { s.procs p with pageTable := out.1, cleaner := some out.2 }).procs q).blocks =
      (s.procs q).blocks := UserPages.setProc_keeps (by simp [blocks, hk, hkblock])
  refine ⟨fun q b hb ht pg hpg hm => ?_, fun x hx => ?_, fun p' k' hk' x hx hxp hxk => ?_⟩
  · rw [hblocks q] at hb
    have hsame := (htr' q pg).resolve_right fun hc => hm hc.2.2
    rw [hsame] at hm ⊢
    obtain ⟨x, hx, hxq, hxid, e, he, heid, het, y, hy, hytr⟩ := h.guest q b hb ht pg hpg hm
    refine ⟨x, hx, hxq, hxid, e, (hblocks x.owner).symm ▸ he, heid, het, y, hy, ?_⟩
    refine ((htr' x.owner y).resolve_right ?_).trans hytr
    rintro ⟨hxp, rfl, -⟩
    have heq : e = k.block := (hp.procs p).same_block (hxp ▸ he) hkmem hy hkpage
    refine h.cleaned p k hk x hx hxp (heid.symm.trans (by rw [heq])) ?_
    rw [hxq, hxid]
    exact mem_map_of_mem hb
  · have hvm :
      ∀ q, ((s.setProc p { s.procs p with pageTable := out.1, cleaner := some out.2 }).procs q).vm =
        (s.procs q).vm := UserPages.setProc_keeps rfl
    rw [hvm, hvm]
    exact h.known x hx
  · rw [hblocks]
    by_cases hp' : p' = p
    · subst hp'
      simp only [UserPages.setProc, update_self, mem_def, Option.some.injEq] at hk'
      subst hk'
      exact h.cleaned p' k hk x hx hxp (hxk.trans (by rw [hkblock]))
    · simp only [UserPages.setProc, update_of_ne hp'] at hk'
      exact h.cleaned p' k' hk' x hx hxp hxk

/-- The cleaner takes up a block, of which all guests' blocks are gone. -/
theorem SharedInv.take (ht : (s.procs p).take = some u)
    (hfirst : ∀ b ∈ (s.procs p).vm.sanitUnmapped.head?, ∀ x ∈ s.crosses, x.owner = p →
    x.ownerBlock = b.id →
      x.guestBlock ∉ (s.procs x.guest).blocks.map VmBlock.id) : SharedInv (s.setProc p u) := by
  unfold UserProc.take at ht
  cases hk : (s.procs p).cleaner with
  | some k => simp [hk] at ht
  | none =>
    cases hs : (s.procs p).vm.sanitUnmapped with
    | nil => simp [hs] at ht
    | cons b rest =>
      simp only [hk, hs, Option.some.injEq] at ht
      subst ht
      refine h.setProc (ProcKeeps.of_mem (fun d => ?_) rfl le_rfl) ?_
      · simp only [blocks, hk, Vm.active, hs, toList_some, map_cons, mem_append, mem_cons]
        tauto
      · rintro k ⟨⟩
        exact hfirst b (by simp [hs])

theorem SharedInv.alloc (ha : Alloced s s' p b t) : SharedInv s' := by
  refine h.keeps ha.crosses (fun q => ?_) fun q k hk => ?_
  · by_cases hq : q = p
    · exact hq ▸ ha.keeps
    · rw [ha.procs q hq]
      exact ProcKeeps.refl _
  · rw [ha.cleaner] at hk
    exact h.cleaned q k hk

theorem SharedInv.vmAllocAs (hp : PagesInv c s) {base : ℕ} {o : Option VmBlock}
    (hwrap : base + size + (pageSize - 1) < word)
    (ha : Toddler.vmAllocAs s p base size t = (s', o)) : SharedInv s' := by
  cases o with
  | none =>
    obtain ⟨-, vm, hvm, rfl⟩ := hp.vmAllocAs_none hwrap ha
    exact h.setProc (ProcKeeps.alloc_none hvm) (h.cleaned p)
  | some b => exact h.alloc (hp.vmAllocAs_some hwrap ha).2.1

theorem SharedInv.grow (hp : PagesInv c s) (hb : b ∈ (s.procs p).vm.inuseMapped)
    (howner : b.mapType = .owner) (hpg : b.hasPage pg = true) (hg : Grew s s' p pg a) :
    SharedInv s' := by
  refine h.keeps hg.crosses (fun q => ?_) fun q k hk => ?_
  · by_cases hq : q = p
    · subst hq
      exact ProcKeeps.grow (hp.procs q).toBlocksInv (mem_blocks_of_inuse hb) howner hpg hg.old
        (hg.vm q) (hg.cleaner q) hg.tr
    · rw [hg.procs q hq]
      exact ProcKeeps.refl _
  · rw [hg.cleaner] at hk
    exact h.cleaned q k hk

theorem SharedInv.vmMap (hp : PagesInv c s) {addr : ℕ} (ha : a ≠ 0)
    (hm : Toddler.vmMap s p addr a = some s') : SharedInv s' := by
  obtain rfl | ⟨b, hb, hguest, hpg, live, pt, hlive, hpt, rfl⟩ := hp.vmMap_cases ha hm
  · exact h
  · obtain ⟨hre, hb', htr, hold, -⟩ := hp.faultPage hb hguest hpg ha hlive hpt
    have hset := ProcKeeps.setOwner (hp.procs p).toBlocksInv hb
    refine h.setProc (hset.trans ?_) (h.cleaned p)
    exact ProcKeeps.grow hre.toBlocksInv (mem_blocks_of_inuse hb') rfl (by exact hpg) hold rfl rfl htr

theorem SharedInv.vmMapKernel (hp : PagesInv c s) {paddrs : List ℕ}
    (hm : Toddler.vmMapKernel s p size paddrs = some s') : SharedInv s' := by
  have hwrap := (alignUpPage_noWrap (dvd_alignUpPage size) (alignUpPage_lt size)).1
  obtain ha | ⟨s₁, b, ha, hdvd, hend, hloop⟩ := hp.vmMapKernel_cases hm
  · exact h.vmAllocAs hp hwrap ha
  · obtain ⟨h₁, halloc, -, -⟩ := hp.vmAllocAs_some hwrap ha
    refine (PagesInv.mapKernelLoop ?_ paddrs h₁ (h.alloc halloc) halloc.inuse rfl hdvd le_rfl hend
      hloop).2
    intro s s₁ pg a hs hj hb hpg hg
    exact hj.grow hs hb rfl hpg hg

/-- One round of `vm_map_cross`: the guest's page is mapped by the owner too. -/
theorem SharedInv.round {rb lb : VmBlock} {rv lv k : ℕ} (hat : CrossAt c s p r rb lb rv lv (k + 1))
    (hx : ⟨r, rb.id, p, lb.id⟩ ∈ s.crosses)
    (hr : CrossRound s s' p r (rv / pageSize) (lv / pageSize) a) : SharedInv s' := by
  have hrmem := mem_blocks_of_inuse hat.remote
  have hlmem := mem_blocks_of_inuse hat.loc
  have hrpg := ((hat.inv.procs r).aligned rb (mem_append_right _ hrmem)).hasPage_of_le hat.remoteDvd
    hat.remoteLo hat.remoteHi
  have hlpg := ((hat.inv.procs p).aligned lb (mem_append_right _ hlmem)).hasPage_of_le hat.localDvd
    hat.localLo hat.localHi
  refine ⟨fun q b hb ht pg hpg hm => ?_, fun x hx => ?_, fun p' k' hk' x hx hxp hxk => ?_⟩
  · rw [hr.blocks q] at hb
    by_cases hnew : q = p ∧ pg = lv / pageSize
    · obtain ⟨rfl, rfl⟩ := hnew
      obtain rfl := (hat.inv.procs q).same_block hb hlmem hpg hlpg
      refine ⟨_, hr.crosses ▸ hx, rfl, rfl, rb, (hr.blocks r).symm ▸ hrmem, rfl, hat.owner, _, hrpg, ?_⟩
      rw [hr.tr, hr.tr, if_pos (.inr ⟨rfl, rfl⟩), if_pos (.inl ⟨rfl, rfl⟩)]
    · have hnot : ¬ ((q = p ∧ pg = lv / pageSize) ∨ (q = r ∧ pg = rv / pageSize)) := by
        rintro (hc | ⟨rfl, rfl⟩)
        · exact hnew hc
        · rw [(hat.inv.procs q).same_block hb hrmem hpg hrpg, hat.owner] at ht
          cases ht
      have hsame := (hr.tr q pg).trans (if_neg hnot)
      rw [hsame] at hm ⊢
      obtain ⟨x, hx', hxq, hxid, e, he, heid, het, y, hy, hytr⟩ := h.guest q b hb ht pg hpg hm
      refine ⟨x, hr.crosses ▸ hx', hxq, hxid, e, (hr.blocks x.owner).symm ▸ he, heid, het, y, hy, ?_⟩
      rw [hr.tr, if_neg, hytr]
      rintro (⟨hxp, rfl⟩ | ⟨hxr, rfl⟩)
      · rw [(hat.inv.procs p).same_block (hxp ▸ he) hlmem hy hlpg, hat.guest] at het
        cases het
      · rw [hxr, hr.old] at hytr
        exact hm hytr.symm
  · rw [hr.vm, hr.vm]
    exact h.known x (hr.crosses ▸ hx)
  · rw [hr.blocks]
    rw [hr.cleaner] at hk'
    exact h.cleaned p' k' hk' x (hr.crosses ▸ hx) hxp hxk

end

/-- Recording the two new blocks of a `vm_map_cross`. -/
theorem SharedInv.record {s₁ s₂ : UserPages n} {remote loc : VmBlock} (hs : PagesInv c s)
    (h : SharedInv s₂) (hr : Alloced s s₁ r remote .owner) (hl : Alloced s₁ s₂ p loc .guest) :
    SharedInv { s₂ with crosses := ⟨r, remote.id, p, loc.id⟩ :: s₂.crosses } := by
  have hnext : remote.id < (s₂.procs r).vm.nextId := by
    have h1 := hr.id
    have h2 := hr.nextId
    by_cases hrp : r = p
    · subst hrp
      have h3 := hl.nextId
      omega
    · rw [hl.procs r hrp]
      omega
  have hcl : (s₂.procs r).cleaner = (s.procs r).cleaner := (hl.cleaner r).trans (hr.cleaner r)
  refine ⟨fun q b hb ht pg hpg hm => ?_, fun x hx => ?_, fun p' k hk x hx hxp hxk => ?_⟩
  · obtain ⟨x, hx, hrest⟩ := h.guest q b hb ht pg hpg hm
    exact ⟨x, mem_cons_of_mem _ hx, hrest⟩
  · rcases mem_cons.mp hx with rfl | hx
    · refine ⟨hnext, ?_⟩
      have h1 := hl.id
      have h2 := hl.nextId
      change loc.id < (s₂.procs p).vm.nextId
      omega
    · exact h.known x hx
  · rcases mem_cons.mp hx with rfl | hx
    · -- the cleaner's block is older than the owner's
      exfalso
      subst hxp
      have hk' : k ∈ (s.procs r).cleaner := hcl ▸ hk
      have hmem := ((hs.procs r).page_mul hk' ((hs.procs r).cleaner k hk').offset).2.1
      have hlt := (hs.procs r).parts.fresh k.block (mem_append_right _ hmem)
      have hid := hr.id
      simp only at hxk
      omega
    · exact h.cleaned p' k hk x hx hxp hxk

theorem SharedInv.vmMapCross (h : SharedInv s) (hp : PagesInv c s) {vbase : ℕ} {paddrs : List ℕ}
    (hwrap : vbase + size + (pageSize - 1) < word) (h0 : 0 ∉ paddrs)
    (hm : Toddler.vmMapCross s p r vbase size paddrs = some s') : SharedInv s' := by
  obtain ⟨hsum, hwrap', hdvd⟩ := cross_rounding hwrap
  obtain hr | ⟨s₁, s₂, remote, loc, hr, hl, hlen, hloop⟩ := vmMapCross_cases hm
  · exact h.vmAllocAs hp hwrap' hr
  · obtain ⟨h₁, ha₁, -, -⟩ := hp.vmAllocAs_some hwrap' hr
    obtain ⟨-, ha₂, -, -⟩ := h₁.vmAllocAs_some (alignUpPage_noWrap hdvd (by omega)).1 hl
    have hrec := SharedInv.record hp ((h.alloc ha₁).alloc ha₂) ha₁ ha₂
    by_cases hbase : alignDownPage vbase = 0
    · rw [hbase] at hloop
      obtain ⟨-, rfl⟩ := mapCrossLoop_zero h0 hloop
      exact hrec
    · have hat := hp.vmMapCross_at hwrap hr hl hlen hbase
      refine (hat.loop (J := fun s => SharedInv s ∧ ⟨r, remote.id, p, loc.id⟩ ∈ s.crosses) ?_ paddrs
        ⟨hrec, mem_cons_self⟩ h0 hloop).2.1
      rintro s s₁ rv lv k a hat ⟨hj, hx⟩ hround
      exact ⟨hj.round hat hx hround, hround.crosses ▸ hx⟩

theorem sharedInv_step {act : PageAction n} (h : SharedInv s) (hp : PagesInv c s)
    (hok : GuestFirst s act) (hs : pageStep c s act = some s') : SharedInv s' := by
  obtain ⟨hcross, hsup, hfirst⟩ := hok
  cases act with
  | loadElf p segs => exact absurd hcross id
  | mapCoreimg p ci size paddr => exact absurd hcross id
  | mapDevtree p dt size paddr => exact absurd hcross id
  | mapDev p ppfn size => exact absurd hcross id
  | alloc p base size =>
    cases hs
    exact h.vmAllocAs hp hsup rfl
  | fault p addr paddr => exact h.vmMap hp hsup hs
  | mapKernel p size paddrs => exact h.vmMapKernel hp hs
  | mapCross p r vbase size paddrs => exact h.vmMapCross hp hsup.1 hsup.2 hs
  | free p base =>
    obtain ⟨vm, hvm, rfl⟩ := map_eq_some_iff.mp hs
    exact h.setProc (ProcKeeps.moved (vmFree_moved (hp.procs p).reuse hvm)) (h.cleaned p)
  | purge p =>
    obtain ⟨vm, hvm, rfl⟩ := map_eq_some_iff.mp hs
    exact h.setProc (ProcKeeps.moved (vmPurge_moved (hp.procs p).reuse hvm)) (h.cleaned p)
  | shootdownDone p id =>
    obtain ⟨vm, hvm, rfl⟩ := map_eq_some_iff.mp hs
    exact h.setProc (ProcKeeps.moved (vmMoveToSanitUnmapped_moved hvm)) (h.cleaned p)
  | cleanerTake p =>
    obtain ⟨u, hu, rfl⟩ := map_eq_some_iff.mp hs
    exact h.take hu hfirst
  | cleanerUnmap p =>
    obtain ⟨u, hu, rfl⟩ := map_eq_some_iff.mp hs
    exact h.unmap hp hu
  | cleanerFree p =>
    simp only [pageStep, cleanerFree, bind_eq_bind, bind_eq_some_iff, Option.some.injEq] at hs
    obtain ⟨k, hk, a, -, rfl⟩ := hs
    refine h.setProc (ProcKeeps.freed hk _ _) ?_
    rintro k' ⟨⟩
    exact h.cleaned p k hk
  | cleanerDone p =>
    obtain ⟨u, hu, rfl⟩ := map_eq_some_iff.mp hs
    refine h.setProc (ProcKeeps.done (hp.procs p) hu) ?_
    simp only [done, bind_eq_bind, bind_eq_some_iff] at hu
    obtain ⟨k, -, hu⟩ := hu
    split_ifs at hu
    cases hu
    simp

/-- A page is given to `pfree_paddr` after every other process has unmapped it. -/
theorem shared_pages_unmapped (c : PageConfig) (live : List (PageRun n)) (mem : ℕ → UInt8)
    (s : UserPages n) (h : Reach (pageStep c) GuestFirst (pagesInit c live mem) s) :
    SharedUnmapped s := by
  have hinv : PagesInv c s ∧ SharedInv s := by
    refine Reach.invariant (I := fun s => PagesInv c s ∧ SharedInv s) h
      ⟨pagesInv_init c live mem, sharedInv_init c live mem⟩ ?_
    rintro u act v ⟨hp, hu⟩ hok hs
    exact ⟨pagesInv_step hp hok.2.1 hs, sharedInv_step hu hp hok hs⟩
  exact hinv.2.unmapped hinv.1

/-- The guest is cleaned first, then the owner's page is about to be freed. -/
theorem shared_pages_unmapped_of_a_run :
    ∃ s : UserPages 2, execute (pageStep sixteenUserPages) GuestFirst
    (pagesInit sixteenUserPages [] fun _ => 0)
        [.mapCross 1 0 0x18000 0x1000 [0x102000], .free 1 0x10000, .cleanerTake 1, .cleanerUnmap 1,
        .cleanerDone 1,
          .free 0 0x18000, .cleanerTake 0, .cleanerUnmap 0] = some s ∧
      (s.procs 0).pending = some 0x102000 ∧ SharedUnmapped s := by
  refine exists_execute (P := fun s => (s.procs 0).pending = some 0x102000) (by decide +kernel)
    fun s hs h => ?_
  exact ⟨h, shared_pages_unmapped _ _ _ s hs⟩

/-- The owner frees the block, and its page is about to be freed while the guest maps it. -/
theorem shared_page_freed_under_guest :
    ¬ ∀ (n : ℕ) (c : PageConfig) (live : List (PageRun n)) (mem : ℕ → UInt8) (s : UserPages n),
      Reach (pageStep c) CrossAction (pagesInit c live mem) s → SharedUnmapped s := by
  intro h
  obtain ⟨s, hs, hpending, hmaps⟩ : ∃ s, Reach (pageStep sixteenUserPages) CrossAction
      (pagesInit (n := 2) sixteenUserPages [] fun _ => 0) s ∧ (s.procs 0).pending = some 0x102000 ∧
      translate (s.procs 1).pageTable 0x10 = 0x102000 :=
    exists_reach [.mapCross 1 0 0x18000 0x1000 [0x102000], .free 0 0x18000, .cleanerTake 0,
      .cleanerUnmap 0] (by decide +kernel)
  exact h 2 _ _ _ s hs 0 0x102000 hpending 1 (by decide) 0x10 hmaps

end Toddler
