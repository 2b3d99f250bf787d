import Mathlib.Data.Set.Function
import Toddler.Spec.UserPages
import Toddler.Proofs.Tlb

/-! The pages of one process. Its owner blocks map the pages obtained for it one to one, apart from
the page that the cleaner is about to free, and everything mapped lies in a block that is not
available. The lemmas say how each of the process's moves keeps this. -/

namespace Toddler

open Function List Nat VmBlock

theorem pageSize_dvd_word : pageSize ∣ word := by decide

theorem dvd_add64 {d a b : ℕ} (hd : d ∣ word) (ha : d ∣ a) (hb : d ∣ b) : d ∣ add64 a b :=
  (dvd_mod_iff hd).mpr (dvd_add ha hb)

theorem dvd_sub64 {d a b : ℕ} (hd : d ∣ word) (ha : d ∣ a) (hb : d ∣ b) : d ∣ sub64 a b :=
  (dvd_mod_iff hd).mpr (dvd_sub (dvd_add ha hd) hb)

theorem dvd_alignUpPage (x : ℕ) : pageSize ∣ alignUpPage x := dvd_mul_left _ _

theorem dvd_alignDownPage (x : ℕ) : pageSize ∣ alignDownPage x := dvd_mul_left _ _

variable {x : ℕ}

/-- Rounding a page-aligned word changes nothing. -/
theorem alignDownPage_of_dvd (h : pageSize ∣ x) : alignDownPage x = x := Nat.div_mul_cancel h

theorem alignUpPage_of_dvd (h : pageSize ∣ x) (hx : x < word) : alignUpPage x = x := by
  obtain ⟨k, rfl⟩ := h
  have hlt : pageSize * k + (pageSize - 1) < word := by
    simp only [pageSize, word] at *
    omega
  rw [alignUpPage, add64_of_lt hlt]
  simp only [pageSize]
  omega

theorem alignUpPage_lt (x : ℕ) : alignUpPage x < word :=
  (div_mul_le_self _ _).trans_lt (mod_lt _ (by decide))

def VmBlock.Aligned (b : VmBlock) : Prop := pageSize ∣ b.base ∧ pageSize ∣ b.size

theorem VmBlock.Aligned.hasPage {b : VmBlock} (h : b.Aligned) {pg : ℕ} :
    b.hasPage pg = true ↔ b.base ≤ pg * pageSize ∧ pg * pageSize < b.fin := by
  obtain ⟨⟨i, hi⟩, -⟩ := h
  rw [VmBlock.hasPage, Bool.and_eq_true, decide_eq_true_iff, decide_eq_true_iff]
  simp only [pageSize] at *
  omega

variable {base size : ℕ}

theorem allocCarve_aligned {fin extraId : ℕ} {t : VmBlock} (hbase : pageSize ∣ base)
    (hfin : pageSize ∣ fin) (hsize : pageSize ∣ size) (ht : t.Aligned) :
    ∀ d ∈ allocCarve base fin size extraId t, d.Aligned := by
  have hw := pageSize_dvd_word
  have hend := dvd_add64 hw ht.1 ht.2
  have hfront := dvd_add64 hw ht.1 hsize
  have hrest := dvd_sub64 hw ht.2 hsize
  intro d hd
  unfold allocCarve at hd
  simp only at hd
  split_ifs at hd
  · simp at hd
  · rw [mem_singleton.mp hd]
    exact ⟨hfront, hrest⟩
  · rw [mem_singleton.mp hd]
    exact ⟨ht.1, hrest⟩
  · rcases mem_pair.mp hd with rfl | rfl
    · exact ⟨ht.1, dvd_sub64 hw hbase ht.1⟩
    · exact ⟨hfin, dvd_sub64 hw hend hfin⟩
  · simp at hd
  · rw [mem_singleton.mp hd]
    exact ⟨hfront, hrest⟩

theorem forall_listInsertMergeSorted {α : Type*} {le : α → α → Bool} {merger : α → α → Option α}
    {P : α → Prop} (hm : ∀ a b m, P a → P b → merger a b = some m →
    P m) {x : α} {l : List α} (hx : P x) (hl : ∀ a ∈ l, P a) :
    ∀ a ∈ (listInsertMergeSorted le merger x l).1, P a := by
  have hnext : ∀ y, P y → ∀ post : List α, (∀ a ∈ post, P a) →
      ∀ a ∈ (listMergeNext merger y post).1, P a := by
    intro y hy post hpost a ha
    cases post with
    | nil => rwa [mem_singleton.mp ha]
    | cons z rest =>
      have hz := hpost z mem_cons_self
      have hrest : ∀ a ∈ rest, P a := fun a ha => hpost a (mem_cons_of_mem _ ha)
      rw [listMergeNext] at ha
      cases he : merger y z with
      | none =>
        simp only [he, mem_cons] at ha
        rcases ha with rfl | rfl | ha
        · exact hy
        · exact hz
        · exact hrest a ha
      | some m =>
        simp only [he, mem_cons] at ha
        rcases ha with rfl | ha
        · exact hm y z a hy hz he
        · exact hrest a ha
  have hpre : ∀ a ∈ l.takeWhile fun a => !le x a, P a := fun a ha =>
    hl a ((takeWhile_sublist _).subset ha)
  have hpost : ∀ a ∈ l.dropWhile fun a => !le x a, P a := fun a ha =>
    hl a ((dropWhile_sublist _).subset ha)
  unfold listInsertMergeSorted listMerge
  intro a ha
  cases he : (l.takeWhile fun a => !le x a).getLast?.bind fun prev => merger prev x with
  | none =>
    simp only [he] at ha
    rcases mem_append.mp ha with ha | ha
    · exact hpre a ha
    · exact hnext x hx _ hpost a ha
  | some m =>
    simp only [he] at ha
    obtain ⟨prev, hprev, hmerge⟩ := Option.bind_eq_some_iff.mp he
    have hmP := hm prev x m (hpre prev (mem_of_getLast? hprev)) hx hmerge
    rcases mem_append.mp ha with ha | ha
    · exact hpre a (mem_of_mem_dropLast ha)
    · exact hnext m hmP _ hpost a ha

theorem availListMerge_aligned (a b m : VmBlock) (ha : a.Aligned) (hb : b.Aligned)
    (h : availListMerge a b = some m) : m.Aligned := by
  unfold availListMerge at h
  split_ifs at h
  cases h
  exact ⟨ha.1, dvd_add64 pageSize_dvd_word ha.2 hb.2⟩

section Hal

variable {pt pt' : List Translation} {pg a : ℕ}

theorem translate_cons (e : Translation) (pt : List Translation) :
    translate (e :: pt) = update (translate pt) e.page e.paddr := by
  funext x
  by_cases hx : x = e.page
  · subst hx
    simp [translate]
  · rw [update_of_ne hx, translate, find?_cons_of_neg (by simpa using Ne.symm hx)]
    rfl

theorem translate_unmapPage (pt : List Translation) (v : ℕ) :
    translate (unmapPage pt v) = update (translate pt) v 0 := by
  funext x
  by_cases hx : x = v
  · subst hx
    rw [translate_unmapPage_self, update_self]
  · rw [translate_unmapPage_of_ne hx, update_of_ne hx]

theorem halMapPage_spec (h : halMapPage pt pg a = some pt') :
    translate pt' = update (translate pt) pg a ∧ (translate pt pg = 0 ∨ translate pt pg = a) ∧
    (pg = 0 → a = 0) := by
  unfold halMapPage at h
  split_ifs at h with hzero
  have hz : pg = 0 → a = 0 := by
    intro hpg
    by_contra ha
    exact hzero ⟨hpg, ha⟩
  cases hf : pt.find? (fun e => e.page = pg) with
  | none =>
    simp only [hf, Option.some.injEq] at h
    subst h
    exact ⟨translate_cons _ _, .inl (by simp [translate, hf]), hz⟩
  | some e =>
    simp only [hf] at h
    split_ifs at h with he
    cases h
    have htr : translate pt pg = a := by simp [translate, hf, he]
    exact ⟨by rw [← htr, update_eq_self], .inr htr, hz⟩

theorem halRangePages_of_dvd {v : ℕ} (hv : pageSize ∣ v) (hs : pageSize ∣ size)
    (hlt : v + size < word) : halRangePages v size = size / pageSize := by
  rw [halRangePages, add64_of_lt hlt, alignUpPage_of_dvd (Nat.dvd_add hv hs) hlt,
    alignDownPage_of_dvd hv, Nat.add_sub_cancel_left]

theorem halMapRange_page {v : ℕ} (hv : pageSize ∣ v) (ha : pageSize ∣ a)
    (hlt : v + pageSize < word) : halMapRange pt v a pageSize = halMapPage pt (v / pageSize) a := by
  rw [halMapRange, halRangePages_of_dvd hv dvd_rfl hlt, alignDownPage_of_dvd ha]
  unfold halMapPages halMapPages
  cases halMapPage pt (v / pageSize) a <;> rfl

/-- Mapping pages one after the other leaves the others alone, and sends the `i`-th page to the
`i`-th physical page. -/
theorem halMapPages_spec (k : ℕ) : ∀ {pt : List Translation} {pg a : ℕ},
    halMapPages pt pg a k = some pt' →
    (∀ x, (x < pg ∨ pg + k ≤ x) → translate pt' x = translate pt x) ∧
      ∀ i < k, translate pt' (pg + i) % word = (a + i * pageSize) % word := by
  induction k with
  | zero =>
    intro pt pg a h
    cases h
    exact ⟨fun x _ => rfl, fun i hi => absurd hi (not_lt_zero i)⟩
  | succ k ih =>
    intro pt pg a h
    simp only [halMapPages, Option.bind_eq_bind, Option.bind_eq_some_iff] at h
    obtain ⟨pt₁, h1, h2⟩ := h
    obtain ⟨htr, -, -⟩ := halMapPage_spec h1
    obtain ⟨hout, hin⟩ := ih h2
    refine ⟨fun x hx => ?_, fun i hi => ?_⟩
    · rw [hout x (by omega), htr, update_of_ne (by omega)]
    · cases i with
      | zero => rw [add_zero, hout pg (by omega), htr, update_self, zero_mul, add_zero]
      | succ i =>
        rw [show pg + (i + 1) = pg + 1 + i by omega, hin i (by omega), add64, mod_add_mod]
        congr 1
        ring

end Hal

/-- The mapped pages of the owner blocks. -/
def UserProc.ownerPages (u : UserProc) : Set ℕ :=
  {pg | translate u.pageTable pg ≠ 0 ∧ ∃ b ∈ u.blocks, b.mapType = .owner ∧ b.hasPage pg = true}

/-- The blocks of a process, the one in the hands of its cleaner included, partition the dynamic
area. -/
structure BlocksInv (c : PageConfig) (u : UserProc) : Prop where
  parts : Parts c.toVmConfig u.vm.availUnmapped u.blocks u.vm.nextId
  count : u.vm.numActiveBlocks = u.blocks.length
  reuse : u.vm.reuseMapped = []
  aligned : ∀ b ∈ u.vm.availUnmapped ++ u.blocks, b.Aligned

/-- The cleaner has unmapped everything before its offset. What it is about to free was mapped at
the offset. -/
structure CleanerInv (tr : ℕ → ℕ) (own : List ℕ) (k : PageCleaner) : Prop where
  offset : pageSize ∣ k.offset
  pending : ∀ a ∈ k.toFree, a ∈ own ∧ k.block.hasPage k.page = true ∧ tr k.page = 0
  prev : ∀ pg, k.block.hasPage pg = true → tr pg ≠ 0 → tr pg ≠ k.prevPaddr
  behind : ∀ pg, k.block.hasPage pg = true → pg < k.page → tr pg = 0

/-- `own` are the pages obtained for the process and not yet returned. -/
structure ProcInv (c : PageConfig) (u : UserProc) (own : List ℕ) : Prop extends BlocksInv c u where
  mapped : ∀ pg, translate u.pageTable pg ≠ 0 → ∃ b ∈ u.blocks, b.mapType ≠ .none ∧
    b.hasPage pg = true
  guest : ∀ b ∈ u.blocks, b.mapType = .guest →
    Set.InjOn (translate u.pageTable) {pg | b.hasPage pg = true ∧ translate u.pageTable pg ≠ 0}
  owner : Set.BijOn (translate u.pageTable) u.ownerPages {a | a ∈ own ∧ a ∉ u.pending}
  nodup : own.Nodup
  pages : u.numPallocPages = own.length
  cleaner : ∀ k ∈ u.cleaner, CleanerInv (translate u.pageTable) own k

section Proc

variable {c : PageConfig} {u u' : UserProc} {own : List ℕ} {b b' : VmBlock} {pg a : ℕ}

theorem procInv_create (c : PageConfig) : ProcInv c ⟨vmCreate c.toVmConfig 0, [], 0, none⟩ [] := by
  have hinv := (vmInv_create c.toVmConfig 0).1
  have hdvd : ∀ b ∈ (vmCreate c.toVmConfig 0).availUnmapped, b.Aligned := by
    intro b hb
    rw [mem_singleton.mp hb]
    exact ⟨c.start_dvd, dvd_sub c.fin_dvd c.start_dvd⟩
  have hblocks : UserProc.blocks ⟨vmCreate c.toVmConfig 0, [], 0, none⟩ = [] := rfl
  have howner : UserProc.ownerPages ⟨vmCreate c.toVmConfig 0, [], 0, none⟩ = ∅ := by
    ext pg
    simp [UserProc.ownerPages, hblocks]
  refine ⟨⟨hinv.parts, hinv.count, hinv.reuse, ?_⟩, ?_, ?_, ?_, nodup_nil, rfl, ?_⟩
  · rw [hblocks]
    exact hdvd
  · intro pg hpg
    exact absurd rfl hpg
  · intro b hb
    simp [hblocks] at hb
  · rw [howner]
    simp
  · intro k hk
    simp at hk

theorem BlocksInv.same_block (h : BlocksInv c u) (hb : b ∈ u.blocks) (hb' : b' ∈ u.blocks)
    (hpg : b.hasPage pg = true) (hpg' : b'.hasPage pg = true) : b = b' := by
  by_contra hne
  have hapart : (u.vm.availUnmapped ++ u.blocks).Pairwise (Apart base fin) := by
    rw [pairwise_apart_iff]
    intro x
    rw [h.parts.tiles x]
    split_ifs <;> omega
  have ha := (h.aligned b (mem_append_right _ hb)).hasPage.mp hpg
  have ha' := (h.aligned b' (mem_append_right _ hb')).hasPage.mp hpg'
  rcases pairwise_or_of_mem hapart (mem_append_right _ hb) (mem_append_right _ hb') hne with h | h
  · exact h _ ⟨ha, ha'⟩
  · exact h _ ⟨ha', ha⟩

theorem BlocksInv.ids (h : BlocksInv c u) : (u.blocks.map VmBlock.id).Nodup := by
  have hnodup := h.parts.ids
  rw [map_append] at hnodup
  exact hnodup.of_append_right

theorem BlocksInv.same_id (h : BlocksInv c u) (hb : b ∈ u.blocks) (hb' : b' ∈ u.blocks)
    (hid : b.id = b'.id) : b = b' :=
  inj_on_of_nodup_map h.ids hb hb' hid

theorem ProcInv.not_none (h : ProcInv c u own) (hb : b ∈ u.blocks) (hpg : b.hasPage pg = true)
    (hm : translate u.pageTable pg ≠ 0) : b.mapType ≠ .none := by
  obtain ⟨d, hd, htype, hdpg⟩ := h.mapped pg hm
  rw [h.same_block hb hd hpg hdpg]
  exact htype

/-- Two blocks with the same pages and the same `map_type`. -/
def VmBlock.Alike (b b' : VmBlock) : Prop := b'.mapType = b.mapType ∧ b'.base = b.base ∧
    b'.size = b.size

theorem VmBlock.Alike.hasPage_eq (h : b.Alike b') (pg : ℕ) : b'.hasPage pg = b.hasPage pg := by
  have hfin : b'.fin = b.fin := by rw [fin, fin, h.2.1, h.2.2]
  rw [hasPage, hasPage, hfin, h.2.1]

/-- The mapped pages are in alike blocks. -/
structure SameMapped (u u' : UserProc) : Prop where
  forth : ∀ pg, translate u.pageTable pg ≠ 0 → ∀ b ∈ u.blocks, b.hasPage pg = true →
    ∃ b' ∈ u'.blocks, b.Alike b'
  back : ∀ pg, translate u.pageTable pg ≠ 0 → ∀ b' ∈ u'.blocks, b'.hasPage pg = true →
    ∃ b ∈ u.blocks, b.Alike b'

theorem SameMapped.ownerPages_eq (h : SameMapped u u') (hpt : u'.pageTable = u.pageTable) :
    u'.ownerPages = u.ownerPages := by
  ext pg
  constructor
  · rintro ⟨hm, b', hb', htype, hpg⟩
    rw [hpt] at hm
    obtain ⟨b, hb, halike⟩ := h.back pg hm b' hb' hpg
    exact ⟨hm, b, hb, halike.1 ▸ htype, halike.hasPage_eq pg ▸ hpg⟩
  · rintro ⟨hm, b, hb, htype, hpg⟩
    obtain ⟨b', hb', halike⟩ := h.forth pg hm b hb hpg
    exact ⟨hpt ▸ hm, b', hb', halike.1.trans htype, (halike.hasPage_eq pg).trans hpg⟩

/-- Moves that leave the page table alone. -/
theorem ProcInv.of_sameMapped (h : ProcInv c u own) (hb : BlocksInv c u') (hs : SameMapped u u')
    (hpt : u'.pageTable = u.pageTable) (hnum : u'.numPallocPages = u.numPallocPages)
    (hpend : u'.pending = u.pending) (hk : ∀ k ∈ u'.cleaner, CleanerInv (translate u.pageTable) own k) :
    ProcInv c u' own := by
  refine ⟨hb, fun pg hm => ?_, fun b' hb' htype => ?_, ?_, h.nodup, hnum.trans h.pages, ?_⟩
  · rw [hpt] at hm
    obtain ⟨b, hb, hne, hpg⟩ := h.mapped pg hm
    obtain ⟨b', hb', halike⟩ := hs.forth pg hm b hb hpg
    exact ⟨b', hb', halike.1 ▸ hne, (halike.hasPage_eq pg).trans hpg⟩
  · rw [hpt]
    rintro pg ⟨hpg, hm⟩ pg' ⟨hpg', hm'⟩ heq
    obtain ⟨b, hb, halike⟩ := hs.back pg hm b' hb' hpg
    refine h.guest b hb (halike.1 ▸ htype) ⟨?_, hm⟩ ⟨?_, hm'⟩ heq
    · rw [← halike.hasPage_eq, hpg]
    · rw [← halike.hasPage_eq, hpg']
  · rw [hpt, hs.ownerPages_eq hpt, hpend]
    exact h.owner
  · rw [hpt]
    exact hk

theorem SameMapped.of_mem (h : ∀ b, b ∈ u'.blocks ↔ b ∈ u.blocks) : SameMapped u u' :=
  ⟨fun _ _ b hb _ => ⟨b, (h b).mpr hb, rfl, rfl, rfl⟩, fun _ _ b hb _ => ⟨b, (h b).mp hb, rfl,
    rfl, rfl⟩⟩

variable {vm : Vm}

theorem blocks_perm_of_moved (h : Moved u.vm vm) :
    ({ u with vm := vm } : UserProc).blocks.Perm u.blocks :=
  h.active.append_left _

/-- Blocks that are not available change places. -/
theorem BlocksInv.rearrange (h : BlocksInv c u) (hperm : u'.blocks.Perm u.blocks)
    (havail : u'.vm.availUnmapped = u.vm.availUnmapped)
    (hcount : u'.vm.numActiveBlocks = u.vm.numActiveBlocks)
    (hid : u'.vm.nextId = u.vm.nextId) (hreuse : u'.vm.reuseMapped = []) : BlocksInv c u' := by
  refine ⟨?_, ?_, hreuse, fun b hb => h.aligned b ?_⟩
  · rw [havail, hid]
    exact h.parts.perm hperm.symm
  · rw [hcount, h.count, hperm.length_eq]
  · rw [havail] at hb
    exact (hperm.append_left _).mem_iff.mp hb

theorem BlocksInv.moved (h : BlocksInv c u) (hm : Moved u.vm vm) :
    BlocksInv c { u with vm := vm } :=
  h.rearrange (blocks_perm_of_moved hm) hm.avail hm.count hm.nextId (hm.reuse h.reuse)

theorem ProcInv.moved (h : ProcInv c u own) (hm : Moved u.vm vm) :
    ProcInv c { u with vm := vm } own :=
  h.of_sameMapped (h.toBlocksInv.moved hm) (SameMapped.of_mem fun _ =>
    (blocks_perm_of_moved hm).mem_iff) rfl rfl rfl
    h.cleaner

theorem UserProc.take_eq (ht : u.take = some u') :
    ∃ b rest, u.cleaner = none ∧ u.vm.sanitUnmapped = b :: rest ∧
    u' = { u with vm := { u.vm with sanitUnmapped := rest }, cleaner := some ⟨b, 0, 0, none⟩ } := by
  unfold UserProc.take at ht
  cases hk : u.cleaner with
  | some k => simp [hk] at ht
  | none =>
    cases hs : u.vm.sanitUnmapped with
    | nil => simp [hs] at ht
    | cons b rest =>
      simp only [hk, hs, Option.some.injEq] at ht
      exact ⟨b, rest, rfl, rfl, ht.symm⟩

theorem UserProc.take_blocks (ht : u.take = some u') : u'.blocks.Perm u.blocks := by
  obtain ⟨b, rest, hk, hs, rfl⟩ := UserProc.take_eq ht
  simp only [UserProc.blocks, hk, Vm.active, hs, Option.toList_some, map_cons,
    map_nil, singleton_append]
  exact perm_middle.symm

theorem BlocksInv.take (h : BlocksInv c u) (ht : u.take = some u') : BlocksInv c u' := by
  have hperm := UserProc.take_blocks ht
  obtain ⟨b, rest, -, -, rfl⟩ := UserProc.take_eq ht
  exact h.rearrange hperm rfl rfl rfl h.reuse

/-- The first page of a block is not behind the one its base is in. -/
theorem page_le_of_hasPage (hpg : b.hasPage pg = true) : PageCleaner.page ⟨b, 0, 0, none⟩ ≤ pg := by
  simp only [hasPage, Bool.and_eq_true, decide_eq_true_eq] at hpg
  exact hpg.1

theorem take_inv (h : ProcInv c u own) (ht : u.take = some u') : ProcInv c u' own := by
  have hperm := UserProc.take_blocks ht
  have hb := h.toBlocksInv.take ht
  obtain ⟨b, rest, hk, -, rfl⟩ := UserProc.take_eq ht
  refine h.of_sameMapped hb (SameMapped.of_mem fun b =>
    hperm.mem_iff) rfl rfl (by simp [UserProc.pending, hk]) ?_
  intro k hk'
  cases hk'
  refine ⟨dvd_zero _, by simp, fun pg _ hm => hm, fun pg hpg hlt => ?_⟩
  exact absurd (page_le_of_hasPage hpg) (not_le.mpr hlt)

variable {k : PageCleaner}

theorem mem_blocks_of_cleaner (hk : k ∈ u.cleaner) : k.block ∈ u.blocks :=
  mem_append_left _ (mem_map_of_mem (Option.mem_toList.mpr hk))

/-- The address the cleaner is at. -/
theorem BlocksInv.page_mul (h : BlocksInv c u) (hk : k ∈ u.cleaner) (ho : pageSize ∣ k.offset) :
    k.page * pageSize = k.block.base + k.offset ∧ k.block ∈ u.blocks ∧ k.block.Aligned := by
  have hmem := mem_blocks_of_cleaner hk
  have hal := h.aligned _ (mem_append_right _ hmem)
  exact ⟨Nat.div_mul_cancel (Nat.dvd_add hal.1 ho), hmem, hal⟩

/-- At the end of its block the cleaner has unmapped all of it. -/
theorem ProcInv.done_clear (h : ProcInv c u own) (hk : k ∈ u.cleaner)
    (hend : k.block.size ≤ k.offset) :
    ∀ pg, k.block.hasPage pg = true → translate u.pageTable pg = 0 := by
  have hki := h.cleaner k hk
  obtain ⟨hpage, -, hal⟩ := h.page_mul hk hki.offset
  intro pg hpg
  refine hki.behind pg hpg ?_
  have hlt := (hal.hasPage.mp hpg).2
  rw [fin] at hlt
  exact lt_of_mul_lt_mul_right (a := pageSize) (by omega) (zero_le _)

theorem UserProc.done_eq (hd : u.done = some u') : ∃ k, u.cleaner = some k ∧ k.toFree = none ∧
    k.block.size ≤ k.offset ∧ u' =
    { u with vm := vmMoveOneToAvail u.vm k.block, cleaner := none } := by
  simp only [UserProc.done, Option.bind_eq_bind, Option.bind_eq_some_iff] at hd
  obtain ⟨k, hk, hd⟩ := hd
  split_ifs at hd with hend
  exact ⟨k, hk, hend.1, hend.2, (Option.some.inj hd).symm⟩

theorem UserProc.blocks_of_cleaner (hk : u.cleaner = some k) :
    u.blocks = k.block :: u.vm.active := by
  rw [UserProc.blocks, hk]
  rfl

theorem BlocksInv.done (h : BlocksInv c u) (hk : u.cleaner = some k) :
    BlocksInv c { u with vm := vmMoveOneToAvail u.vm k.block, cleaner := none } := by
  have hblocks := UserProc.blocks_of_cleaner hk
  have hparts := h.parts
  have hcount := h.count
  have haligned := h.aligned
  rw [hblocks] at hparts hcount haligned
  refine ⟨hparts.release, ?_, h.reuse, fun d hd => ?_⟩
  · rw [length_cons] at hcount
    change u.vm.numActiveBlocks - 1 = (u.vm.active.length : ℤ)
    omega
  · rcases mem_append.mp hd with hd | hd
    · refine forall_listInsertMergeSorted availListMerge_aligned (haligned _ (by simp))
        (fun e he => ?_) d hd
      exact haligned e (mem_append_left _ he)
    · exact haligned d (mem_append_right _ (mem_cons_of_mem _ hd))

theorem done_inv (h : ProcInv c u own) (hd : u.done = some u') : ProcInv c u' own := by
  obtain ⟨k, hk, hfree, hend, rfl⟩ := UserProc.done_eq hd
  have hclear := h.done_clear hk hend
  have hblocks := UserProc.blocks_of_cleaner hk
  refine h.of_sameMapped (h.toBlocksInv.done hk) ⟨?_, ?_⟩ rfl rfl ?_ (by simp)
  · intro pg hm b hb hpg
    rw [hblocks] at hb
    rcases mem_cons.mp hb with rfl | hb
    · exact absurd (hclear pg hpg) hm
    · exact ⟨b, hb, rfl, rfl, rfl⟩
  · intro pg hm b hb hpg
    refine ⟨b, ?_, rfl, rfl, rfl⟩
    rw [hblocks]
    exact mem_cons_of_mem _ hb
  · rw [UserProc.pending, UserProc.pending, hk]
    exact hfree.symm

theorem CleanerInv.skip {tr : ℕ → ℕ} {own' : List ℕ} (hki : CleanerInv tr own k)
    (h0 : tr k.page = 0) : CleanerInv tr own'
    { k with toFree := none, offset := k.offset + pageSize } := by
  have hnext : PageCleaner.page { k with toFree := none, offset := k.offset + pageSize } =
      k.page + 1 := by
    simp only [PageCleaner.page, ← add_assoc]
    exact Nat.add_div_right _ (by decide)
  refine ⟨Nat.dvd_add hki.offset dvd_rfl, by simp, hki.prev, fun pg hpg hlt => ?_⟩
  rw [hnext] at hlt
  rcases Nat.lt_succ_iff_lt_or_eq.mp hlt with hlt | rfl
  · exact hki.behind pg hpg hlt
  · exact h0

/-- The cleaner sees the pages of its block only. -/
theorem CleanerInv.congr {tr tr' : ℕ → ℕ} {own' : List ℕ} (hki : CleanerInv tr own k)
    (hown : ∀ a ∈ own, a ∈ own') (hsame : ∀ x, k.block.hasPage x = true → tr' x = tr x) :
    CleanerInv tr' own' k := by
  refine ⟨hki.offset, fun a ha => ?_, fun x hx => ?_,
    fun x hx hlt => (hsame x hx).trans (hki.behind x hx hlt)⟩
  · obtain ⟨h1, h2, h3⟩ := hki.pending a ha
    exact ⟨hown a h1, h2, (hsame _ h2).trans h3⟩
  · rw [hsame x hx]
    exact hki.prev x hx

/-- So does a block that maps its pages one to one. -/
theorem injOn_hasPage {tr tr' : ℕ → ℕ} (h : Set.InjOn tr {x | b.hasPage x = true ∧ tr x ≠ 0})
    (hsame : ∀ x, b.hasPage x = true → tr' x = tr x) :
    Set.InjOn tr' {x | b.hasPage x = true ∧ tr' x ≠ 0} := by
  rintro x ⟨hx, hx0⟩ y ⟨hy, hy0⟩ hxy
  rw [hsame x hx] at hx0 hxy
  rw [hsame y hy] at hy0 hxy
  exact h ⟨hx, hx0⟩ ⟨hy, hy0⟩ hxy

theorem CleanerInv.unmap {tr : ℕ → ℕ} (hki : CleanerInv tr own k) (hfree : k.toFree = none)
    (hinj : ∀ pg, k.block.hasPage pg = true → tr pg = tr k.page → pg = k.page) :
    CleanerInv (update tr k.page 0) own { k with prevPaddr := tr k.page } := by
  refine ⟨hki.offset, by simp [hfree], fun pg hpg hm' => ?_, fun pg hpg hlt => ?_⟩
  · have hne : pg ≠ k.page := by
      rintro rfl
      exact hm' (update_self ..)
    rw [update_of_ne hne]
    exact fun heq => hne (hinj pg hpg heq)
  · have hne : pg ≠ k.page := Nat.ne_of_lt hlt
    rw [update_of_ne hne]
    exact hki.behind pg hpg hlt

/-- The parts of the invariant that a page table with less in it inherits. -/
theorem ProcInv.mapped_update (h : ProcInv c u own) (pg : ℕ) :
    (∀ x, update (translate u.pageTable) pg 0 x ≠ 0 →
      ∃ b ∈ u.blocks, b.mapType ≠ .none ∧ b.hasPage x = true) ∧
    ∀ b ∈ u.blocks, b.mapType = .guest → Set.InjOn (update (translate u.pageTable) pg 0)
      {x | b.hasPage x = true ∧ update (translate u.pageTable) pg 0 x ≠ 0} := by
  have hne : ∀ x, update (translate u.pageTable) pg 0 x ≠ 0 →
      x ≠ pg ∧ update (translate u.pageTable) pg 0 x = translate u.pageTable x := by
    intro x hx
    have hx' : x ≠ pg := by
      rintro rfl
      exact hx (update_self ..)
    exact ⟨hx', update_of_ne hx' ..⟩
  refine ⟨fun x hx => ?_, fun b hb htype => ?_⟩
  · rw [(hne x hx).2] at hx
    exact h.mapped x hx
  · rintro x ⟨hpx, hx⟩ y ⟨hpy, hy⟩ heq
    rw [(hne x hx).2, (hne y hy).2] at heq
    rw [(hne x hx).2] at hx
    rw [(hne y hy).2] at hy
    exact h.guest b hb htype ⟨hpx, hx⟩ ⟨hpy, hy⟩ heq

variable {pt : List Translation}

/-- The cleaner's page is unmapped, if it is mapped at all. -/
theorem ProcInv.clean (h : ProcInv c u own) {k' : PageCleaner} (hk : u.cleaner = some k)
    (hblock : k'.block = k.block) (htr : translate pt = update (translate u.pageTable) k.page 0)
    (hki : CleanerInv (translate pt) own k')
    (hown : Set.BijOn (translate u.pageTable) (u.ownerPages \ {k.page}) {a | a ∈ own ∧ a ∉ k'.toFree}) :
    ProcInv c { u with pageTable := pt, cleaner := some k' } own := by
  have hblocks : UserProc.blocks { u with pageTable := pt, cleaner := some k' } = u.blocks := by
    simp [UserProc.blocks, hk, hblock]
  have hpages : UserProc.ownerPages { u with pageTable := pt, cleaner := some k' } =
      u.ownerPages \ {k.page} := by
    ext pg
    by_cases hpg : pg = k.page
    · simp [UserProc.ownerPages, htr, hpg]
    · simp [UserProc.ownerPages, htr, hpg, hblocks]
  obtain ⟨hmapped, hguest⟩ := h.mapped_update k.page
  rw [← htr] at hmapped hguest
  refine ⟨h.rearrange (.of_eq hblocks) rfl rfl rfl h.reuse, hblocks ▸ hmapped,
    hblocks ▸ hguest, ?_, h.nodup, h.pages, ?_⟩
  · rw [hpages]
    refine hown.congr fun pg hpg => ?_
    rw [htr, update_of_ne hpg.2]
  · rintro k₁ ⟨⟩
    exact hki

theorem unmap_inv (h : ProcInv c u own) (hu : u.unmap = some u') : ProcInv c u' own := by
  simp only [UserProc.unmap, Option.bind_eq_bind, Option.bind_eq_some_iff] at hu
  obtain ⟨k, hk, hu⟩ := hu
  split_ifs at hu with hgo
  obtain ⟨hfree, hlt⟩ := hgo
  cases hu
  have hki := h.cleaner k hk
  obtain ⟨-, hmem, -⟩ := h.page_mul hk hki.offset
  have hpage := PageCleaner.hasPage_page hlt
  have hown := h.owner
  have hpend : u.pending = none := by rw [UserProc.pending, hk]; exact hfree
  rw [hpend] at hown
  -- without an owner page to take out, the pages to free stay the same
  have hsame : k.page ∉ u.ownerPages →
      Set.BijOn (translate u.pageTable) (u.ownerPages \ {k.page}) {a | a ∈ own ∧ a ∉ k.toFree} := by
    intro hout
    rw [Set.sdiff_singleton_eq_self hout, hfree]
    exact hown
  have htr0 : translate u.pageTable k.page = 0 →
      translate u.pageTable = update (translate u.pageTable) k.page 0 := by
    intro h0
    rw [← h0, update_eq_self]
  unfold cleanerUnmap
  by_cases hm : translate u.pageTable k.page ≠ 0
  · rw [if_pos ⟨hm, hki.prev k.page hpage hm⟩]
    by_cases howner : k.block.mapType = .owner
    · rw [if_pos howner]
      have hin : k.page ∈ u.ownerPages := ⟨hm, k.block, hmem, howner, hpage⟩
      have hki' := hki.unmap hfree fun pg hpg heq =>
        h.owner.injOn ⟨heq ▸ hm, k.block, hmem, howner, hpg⟩ hin heq
      refine h.clean hk rfl (translate_unmapPage _ _) ?_ ?_
      · rw [translate_unmapPage]
        refine ⟨hki'.offset, ?_, hki'.prev, hki'.behind⟩
        rintro a ⟨⟩
        exact ⟨(hown.mapsTo hin).1, hpage, update_self ..⟩
      · have hset : {a | a ∈ own ∧ a ∉ none} \ {translate u.pageTable k.page} =
            {a | a ∈ own ∧ a ∉ some (translate u.pageTable k.page)} := by
          ext a
          simp [eq_comm]
        rw [← hset]
        exact hown.sdiff_singleton hin
    · rw [if_neg howner]
      have hout : k.page ∉ u.ownerPages := by
        rintro ⟨-, b, hb, htype, hpg⟩
        exact howner (h.same_block hmem hb hpage hpg ▸ htype)
      have hguest : k.block.mapType = .guest := by
        cases ht : k.block.mapType with
        | none => exact absurd ht (h.not_none hmem hpage hm)
        | owner => exact absurd ht howner
        | guest => rfl
      have hki' := hki.unmap hfree fun pg hpg heq =>
        h.guest k.block hmem hguest ⟨hpg, heq ▸ hm⟩ ⟨hpage, hm⟩ heq
      refine h.clean hk rfl (translate_unmapPage _ _) ?_ (hsame hout)
      rw [translate_unmapPage, hfree]
      exact hki'.skip (update_self ..)
  · rw [not_not] at hm
    rw [if_neg fun hc => hc.1 hm]
    refine h.clean hk rfl (htr0 hm) ?_ (hsame fun hin => hin.1 hm)
    rw [hfree]
    exact hki.skip hm

theorem ProcInv.freed (h : ProcInv c u own) (hk : u.cleaner = some k) (ha : k.toFree = some a) :
    ProcInv c { u with
      numPallocPages := u.numPallocPages - 1
      cleaner := some { k with toFree := none, offset := k.offset + pageSize } }
      (own.filter fun x => decide (x ≠ a)) := by
  have hki := h.cleaner k hk
  obtain ⟨hin, -, h0⟩ := hki.pending a ha
  have hblocks : UserProc.blocks { u with
      numPallocPages := u.numPallocPages - 1
      cleaner := some { k with toFree := none, offset := k.offset + pageSize } } = u.blocks := by
    simp [UserProc.blocks, hk]
  refine ⟨h.rearrange (.of_eq hblocks) rfl rfl rfl h.reuse, hblocks ▸ h.mapped,
    hblocks ▸ h.guest, ?_, h.nodup.filter _, ?_, ?_⟩
  · have hpend : u.pending = some a := by rw [UserProc.pending, hk]; exact ha
    have hset : {x | x ∈ own ∧ x ∉ u.pending} =
        {x | x ∈ own.filter (fun x => decide (x ≠ a)) ∧ x ∉ none} := by
      ext x
      by_cases hx : x = a
      · simp [hx, hpend]
      · simp [hx, hpend, Ne.symm hx]
    have hown := h.owner
    rw [hset] at hown
    unfold UserProc.ownerPages
    rw [hblocks]
    exact hown
  · have hlen : (own.filter fun x => decide (x ≠ a)).length + 1 = own.length := by
      have herase : own.filter (fun x => decide (x ≠ a)) = own.erase a := by
        rw [h.nodup.erase_eq_filter]
        congr 1
        funext x
        by_cases hx : x = a <;> simp [hx]
      rw [herase, length_erase_add_one hin]
    have hpages := h.pages
    simp only
    omega
  · rintro k₁ ⟨⟩
    exact hki.skip h0

/-- What `vm_alloc` changes apart from `avail_unmapped`. -/
theorem vmAlloc_spec {s s' : Vm} {r : Option VmBlock} (h : vmAlloc s base size = (s', r)) :
    s'.reuseMapped = s.reuseMapped ∧ s'.sanitMapped = s.sanitMapped ∧
    s'.sanitUnmapped = s.sanitUnmapped ∧
      s'.nextId = s.nextId + 2 ∧ s'.numActiveBlocks = s.numActiveBlocks + r.toList.length ∧
      (r = none → s'.inuseMapped = s.inuseMapped) ∧
      ∀ b ∈ r, s'.inuseMapped = listInsertSorted baseLe b s.inuseMapped ∧ b.id = s.nextId ∧
        b.size = sub64 (alignUpPage (add64 base size)) (alignDownPage base) ∧
        (alignDownPage base ≠ 0 → b.base = alignDownPage base) := by
  unfold vmAlloc at h
  simp only at h
  split at h
  · cases h
    exact ⟨rfl, rfl, rfl, rfl, by simp, fun _ => rfl, by simp⟩
  · cases h
    refine ⟨rfl, rfl, rfl, rfl, rfl, by simp, ?_⟩
    rintro b ⟨⟩
    exact ⟨rfl, rfl, rfl, fun hne => if_pos hne⟩

theorem vmAlloc_aligned {s : Vm} (base size : ℕ) (h : ∀ b ∈ s.availUnmapped, b.Aligned) :
    ∀ b ∈ (vmAlloc s base size).1.availUnmapped ++ (vmAlloc s base size).2.toList, b.Aligned := by
  have hlo := dvd_alignDownPage base
  have hhi := dvd_alignUpPage (add64 base size)
  have hsz := dvd_sub64 pageSize_dvd_word hhi hlo
  unfold vmAlloc
  simp only
  generalize alignDownPage base = lo at *
  generalize alignUpPage (add64 base size) = top at *
  cases hr : replaceFirst (allocFits lo top (sub64 top lo))
    (allocCarve lo top (sub64 top lo) (s.nextId + 1))
      s.availUnmapped with
  | none => simpa using h
  | some r =>
    obtain ⟨t, avail⟩ := r
    obtain ⟨pre, post, havail, -, rfl⟩ := replaceFirst_some _ hr
    have ht := h t (by simp [havail])
    intro b hb
    simp only [Option.toList_some, mem_append, mem_singleton] at hb
    rcases hb with ((hb | hb) | hb) | rfl
    · exact h b (by simp [havail, hb])
    · exact allocCarve_aligned hlo hhi hsz ht b hb
    · exact h b (by simp [havail, hb])
    · refine ⟨?_, hsz⟩
      split_ifs
      · exact hlo
      · exact ht.1

/-- A block in use is not the one in the hands of the cleaner. -/
theorem BlocksInv.cleaner_ne (h : BlocksInv c u) (hk : k ∈ u.cleaner) (hb : b ∈ u.vm.inuseMapped) :
    k.block ≠ b := by
  rintro rfl
  have hblocks := h.ids
  rw [UserProc.blocks, map_append] at hblocks
  refine disjoint_of_nodup_append hblocks (mem_map_of_mem ?_)
    (mem_map_of_mem (a := k.block) ?_)
  · exact mem_map_of_mem (Option.mem_toList.mpr hk)
  · simp only [Vm.active, mem_append]
    exact .inl (.inl (.inl hb))

theorem mem_blocks_of_inuse (hb : b ∈ u.vm.inuseMapped) : b ∈ u.blocks := by
  simp only [UserProc.blocks, Vm.active, mem_append]
  exact .inr (.inl (.inl (.inl hb)))

/-- The cleaner's pages are not those of a block in use. -/
theorem BlocksInv.cleaner_page_ne (h : BlocksInv c u) (hk : k ∈ u.cleaner)
    (hb : b ∈ u.vm.inuseMapped) (hpg : b.hasPage pg = true) (hx : k.block.hasPage x = true) :
    x ≠ pg := by
  rintro rfl
  exact h.cleaner_ne hk hb (h.same_block (mem_blocks_of_cleaner hk) (mem_blocks_of_inuse hb) hx hpg)

def retype (id : ℕ) (t : VmMapType) (b : VmBlock) : VmBlock :=
  if b.id = id then { b with mapType := t } else b

section

variable (id : ℕ) (t : VmMapType) (b : VmBlock)

@[simp] theorem retype_base : (retype id t b).base = b.base := by
  unfold retype
  split_ifs <;> rfl

@[simp] theorem retype_size : (retype id t b).size = b.size := by
  unfold retype
  split_ifs <;> rfl

@[simp] theorem retype_id : (retype id t b).id = b.id := by
  unfold retype
  split_ifs <;> rfl

@[simp] theorem retype_fin : (retype id t b).fin = b.fin := by
  simp [fin]

end

theorem retype_self (t : VmMapType) (b : VmBlock) : retype b.id t b = { b with mapType := t } :=
  if_pos rfl

theorem retype_of_ne {id : ℕ} (t : VmMapType) (h : b.id ≠ id) : retype id t b = b := if_neg h

theorem Parts.retype {c : VmConfig} {avail active : List VmBlock} {m : ℕ}
    (h : Parts c avail active m) (id : ℕ)
    (t : VmMapType) : Parts c avail (active.map (retype id t)) m := by
  have hcover : ∀ x, cover base fin (active.map (Toddler.retype id t)) x = cover base fin active x := by
    intro x
    simp [cover, countP_map, Function.comp_def]
  have hids : (active.map (Toddler.retype id t)).map VmBlock.id = active.map VmBlock.id := by
    simp [map_map, Function.comp_def]
  refine ⟨fun x => ?_, fun b hb => ?_, ?_, fun b hb => ?_⟩
  · rw [cover_append, hcover, ← cover_append]
    exact h.tiles x
  · rcases mem_append.mp hb with hb | hb
    · exact h.bounds b (mem_append_left _ hb)
    · obtain ⟨d, hd, rfl⟩ := mem_map.mp hb
      simpa using h.bounds d (mem_append_right _ hd)
  · rw [map_append, hids, ← map_append]
    exact h.ids
  · rcases mem_append.mp hb with hb | hb
    · exact h.fresh b (mem_append_left _ hb)
    · obtain ⟨d, hd, rfl⟩ := mem_map.mp hb
      simpa using h.fresh d (mem_append_right _ hd)

/-- Only the block in use has the id. -/
theorem BlocksInv.setMapType_blocks (h : BlocksInv c u) (hb : b ∈ u.vm.inuseMapped)
    (t : VmMapType) : UserProc.blocks { u with vm := u.vm.setMapType b.id t } =
    u.blocks.map (retype b.id t) := by
  have hother : ∀ l : List VmBlock, (∀ d ∈ l, d.id ≠ b.id) → l.map (retype b.id t) = l := by
    intro l hl
    conv_rhs => rw [← map_id l]
    exact map_congr_left fun d hd => retype_of_ne t (hl d hd)
  have hrest : ∀ d ∈ u.vm.reuseMapped ++ u.vm.sanitMapped ++ u.vm.sanitUnmapped, d.id ≠ b.id := by
    intro d hd heq
    have hactive : ((u.vm.inuseMapped ++ (u.vm.reuseMapped ++ u.vm.sanitMapped ++ u.vm.sanitUnmapped)).map
        VmBlock.id).Nodup := by
      have := h.ids
      rw [UserProc.blocks, map_append] at this
      simpa [Vm.active] using this.of_append_right
    rw [map_append] at hactive
    exact disjoint_of_nodup_append hactive (mem_map_of_mem hb) (heq ▸ mem_map_of_mem hd)
  have hclean : ∀ d ∈ u.cleaner.toList.map PageCleaner.block, d.id ≠ b.id := by
    intro d hd heq
    obtain ⟨k, hk, rfl⟩ := mem_map.mp hd
    have hk' := Option.mem_toList.mp hk
    refine h.cleaner_ne hk' hb (h.same_id ?_ (mem_blocks_of_inuse hb) heq)
    exact mem_append_left _ hd
  have hmap : (u.vm.reuseMapped ++ u.vm.sanitMapped ++ u.vm.sanitUnmapped).map (retype b.id t) =
      u.vm.reuseMapped ++ u.vm.sanitMapped ++ u.vm.sanitUnmapped := hother _ hrest
  simp only [UserProc.blocks, Vm.active, map_append, hother _ hclean, append_assoc] at hmap ⊢
  rw [hmap]
  rfl

theorem BlocksInv.retype (h : BlocksInv c u) (hb : b ∈ u.vm.inuseMapped) (t : VmMapType) :
    BlocksInv c { u with vm := u.vm.setMapType b.id t } := by
  have hblocks := h.setMapType_blocks hb t
  refine ⟨?_, ?_, h.reuse, ?_⟩
  · rw [hblocks]
    exact h.parts.retype b.id t
  · rw [hblocks, length_map]
    exact h.count
  · rw [hblocks]
    intro d hd
    rcases mem_append.mp hd with hd | hd
    · exact h.aligned d (mem_append_left _ hd)
    · obtain ⟨e, he, rfl⟩ := mem_map.mp hd
      simpa [VmBlock.Aligned] using h.aligned e (mem_append_right _ he)

/-- A block in use changes its `map_type` while nothing in it is mapped. -/
theorem ProcInv.retype (h : ProcInv c u own) (hb : b ∈ u.vm.inuseMapped) (t : VmMapType)
    (hok : b.mapType = t ∨ ∀ pg, b.hasPage pg = true → translate u.pageTable pg = 0) :
    ProcInv c { u with vm := u.vm.setMapType b.id t } own := by
  have hblocks := h.setMapType_blocks hb t
  -- a block with a mapped page keeps its type
  have hkeep : ∀ pg, translate u.pageTable pg ≠ 0 → ∀ d ∈ u.blocks, d.hasPage pg = true →
      d.Alike (Toddler.retype b.id t d) := by
    intro pg hm d hd hpg
    refine ⟨?_, retype_base _ _ _, retype_size _ _ _⟩
    by_cases hid : d.id = b.id
    · obtain rfl := h.same_id hd (mem_blocks_of_inuse hb) hid
      rw [retype_self]
      rcases hok with hok | hok
      · exact hok.symm
      · exact absurd (hok pg hpg) hm
    · rw [retype_of_ne t hid]
  refine h.of_sameMapped (h.toBlocksInv.retype hb t) ⟨?_, ?_⟩ rfl rfl rfl h.cleaner
  · intro pg hm d hd hpg
    rw [hblocks]
    exact ⟨_, mem_map_of_mem hd, hkeep pg hm d hd hpg⟩
  · intro pg hm d' hd' hpg
    rw [hblocks] at hd'
    obtain ⟨d, hd, rfl⟩ := mem_map.mp hd'
    refine ⟨d, hd, hkeep pg hm d hd ?_⟩
    simpa [hasPage] using hpg

theorem BlocksInv.alloc {r : Option VmBlock} (h : BlocksInv c u)
    (hwrap : base + size + (pageSize - 1) < word) (ha : vmAlloc u.vm base size = (vm, r)) :
    BlocksInv c { u with vm := vm } ∧
      (UserProc.blocks { u with vm := vm }).Perm (r.toList ++ u.blocks) := by
  obtain ⟨h1, -, -, -, h5, -⟩ := vmAlloc_spec ha
  have hparts := (vmAlloc_parts h.parts hwrap).1
  have hal := vmAlloc_aligned base size fun b hb => h.aligned b (mem_append_left _ hb)
  have hactive := vmAlloc_active u.vm base size
  rw [ha] at hparts hal hactive
  have hperm : (UserProc.blocks { u with vm := vm }).Perm (r.toList ++ u.blocks) :=
    (hactive.append_left _).trans (perm_append_comm_assoc ..)
  refine ⟨⟨hparts.perm hperm.symm, ?_, h1.trans h.reuse, fun d hd => ?_⟩, hperm⟩
  · rw [hperm.length_eq, length_append, add_comm]
    simp [h5, h.count]
  · rcases mem_append.mp hd with hd | hd
    · exact hal d (mem_append_left _ hd)
    · rcases mem_append.mp (hperm.mem_iff.mp hd) with hd | hd
      · exact hal d (mem_append_right _ hd)
      · exact h.aligned d (mem_append_right _ hd)

/-- A new block has no page of the blocks before. -/
theorem BlocksInv.new_apart (h : BlocksInv c u') (hperm : u'.blocks.Perm (b :: u.blocks))
    (hb' : b' ∈ u.blocks) (hpg : b.hasPage pg = true) : b'.hasPage pg = false := by
  by_contra hpg'
  have heq := h.same_block (hperm.mem_iff.mpr mem_cons_self)
    (hperm.mem_iff.mpr (mem_cons_of_mem _ hb')) hpg (by simpa using hpg')
  have hids := (hperm.map VmBlock.id).nodup_iff.mp h.ids
  rw [map_cons, nodup_cons] at hids
  exact hids.1 (heq ▸ mem_map_of_mem hb')

section

variable (h : ProcInv c u own)
include h

theorem ProcInv.alloc_none (hwrap : base + size + (pageSize - 1) < word)
    (ha : vmAlloc u.vm base size = (vm, none)) : ProcInv c { u with vm := vm } own := by
  obtain ⟨hb, hperm⟩ := h.toBlocksInv.alloc hwrap ha
  exact h.of_sameMapped hb (SameMapped.of_mem fun b => hperm.mem_iff) rfl rfl rfl h.cleaner

/-- The block that `vm_alloc` returns has no page that is mapped. -/
theorem ProcInv.alloc_some (hwrap : base + size + (pageSize - 1) < word)
    (ha : vmAlloc u.vm base size = (vm, some b)) :
    ProcInv c { u with vm := vm } own ∧ (UserProc.blocks { u with vm := vm }).Perm (b :: u.blocks) ∧
      b ∈ vm.inuseMapped ∧ ∀ pg, b.hasPage pg = true → translate u.pageTable pg = 0 := by
  obtain ⟨hb, hperm⟩ := h.toBlocksInv.alloc hwrap ha
  replace hperm : (UserProc.blocks { u with vm := vm }).Perm (b :: u.blocks) := hperm
  have hmem : b ∈ vm.inuseMapped := by
    rw [((vmAlloc_spec ha).2.2.2.2.2.2 b rfl).1]
    exact (listInsertSorted_perm baseLe b _).mem_iff.mpr mem_cons_self
  have hclear : ∀ pg, b.hasPage pg = true → translate u.pageTable pg = 0 := by
    intro pg hpg
    by_contra hm
    obtain ⟨d, hd, -, hdpg⟩ := h.mapped pg hm
    rw [hb.new_apart hperm hd hpg] at hdpg
    cases hdpg
  refine ⟨h.of_sameMapped hb ⟨?_, ?_⟩ rfl rfl rfl h.cleaner, hperm, hmem, hclear⟩
  · intro pg _ d hd _
    exact ⟨d, hperm.mem_iff.mpr (mem_cons_of_mem _ hd), rfl, rfl, rfl⟩
  · intro pg hm d hd hpg
    rcases mem_cons.mp (hperm.mem_iff.mp hd) with rfl | hd
    · exact absurd (hclear pg hpg) hm
    · exact ⟨d, hd, rfl, rfl, rfl⟩

theorem ProcInv.grow (hb : b ∈ u.vm.inuseMapped)
    (howner : b.mapType = .owner) (hpg : b.hasPage pg = true) (ha : a ≠ 0) (hfresh : a ∉ own)
    (hm : halMapPage u.pageTable pg a = some pt) :
    translate pt = update (translate u.pageTable) pg a ∧ translate u.pageTable pg = 0 ∧
      ProcInv c { u with pageTable := pt, numPallocPages := u.numPallocPages + 1 } (a :: own) := by
  obtain ⟨htr, hold, -⟩ := halMapPage_spec hm
  have hbmem := mem_blocks_of_inuse hb
  have h0 : translate u.pageTable pg = 0 := by
    refine hold.resolve_right fun heq => hfresh ?_
    have hin : pg ∈ u.ownerPages := ⟨heq ▸ ha, b, hbmem, howner, hpg⟩
    exact heq ▸ (h.owner.mapsTo hin).1
  have hother : ∀ d ∈ u.blocks, d.mapType ≠ .owner → ∀ x, d.hasPage x = true →
      translate pt x = translate u.pageTable x := by
    intro d hd htype x hx
    rw [htr, update_of_ne]
    rintro rfl
    exact htype (h.same_block hd hbmem hx hpg ▸ howner)
  have hpages : UserProc.ownerPages
    { u with pageTable := pt, numPallocPages := u.numPallocPages + 1 } =
      insert pg u.ownerPages := by
    ext x
    by_cases hx : x = pg
    · subst hx
      simp only [Set.mem_insert_iff, true_or, iff_true]
      exact ⟨by simpa [htr] using ha, b, hbmem, howner, hpg⟩
    · rw [Set.mem_insert_iff, or_iff_right hx]
      change (translate pt x ≠ 0 ∧ _) ↔ (translate u.pageTable x ≠ 0 ∧ _)
      rw [htr, update_of_ne hx]
      rfl
  have hnotin : a ∉ u.pending := by
    intro hp
    obtain ⟨k, hk, hka⟩ := Option.bind_eq_some_iff.mp hp
    exact hfresh ((h.cleaner k hk).pending a hka).1
  refine ⟨htr, h0, ⟨h.parts, h.count, h.reuse, h.aligned⟩, fun x hx => ?_, fun d hd htype => ?_, ?_,
    h.nodup.cons hfresh, ?_, fun k hk => ?_⟩
  · by_cases hxp : x = pg
    · subst hxp
      exact ⟨b, hbmem, by simp [howner], hpg⟩
    · rw [htr, update_of_ne hxp] at hx
      exact h.mapped x hx
  · exact injOn_hasPage (h.guest d hd htype) (hother d hd (by simp [htype]))
  · have hout : pg ∉ u.ownerPages := fun hin => hin.1 h0
    have hset : {x | x ∈ a :: own ∧ x ∉ u.pending} = insert a {x | x ∈ own ∧ x ∉ u.pending} := by
      ext x
      by_cases hx : x = a
      · simpa [hx] using hnotin
      · simp [hx]
    have hcongr : Set.BijOn (translate pt) u.ownerPages {x | x ∈ own ∧ x ∉ u.pending} := by
      refine h.owner.congr fun x hx => ?_
      rw [htr, update_of_ne]
      rintro rfl
      exact hout hx
    have hval : translate pt pg = a := by rw [htr, update_self]
    rw [hpages]
    change Set.BijOn (translate pt) _ {x | x ∈ a :: own ∧ x ∉ u.pending}
    rw [hset]
    have hins := hcongr.insert (by rw [hval]; exact fun hin => hfresh hin.1)
    rwa [hval] at hins
  · simp only [h.pages]
    rfl
  · refine (h.cleaner k hk).congr (fun x => mem_cons_of_mem _) fun x hx => ?_
    rw [htr, update_of_ne (h.cleaner_page_ne hk hb hpg hx)]

/-- The pages of a guest block are mapped to different physical pages. -/
theorem ProcInv.remap (hb : b ∈ u.vm.inuseMapped) (hguest : b.mapType = .guest)
    (hout : ∀ x, b.hasPage x = false → translate pt x = translate u.pageTable x)
    (hinj : Set.InjOn (translate pt) {x | b.hasPage x = true ∧ translate pt x ≠ 0}) :
    ProcInv c { u with pageTable := pt } own := by
  have hbmem := mem_blocks_of_inuse hb
  have hother : ∀ d ∈ u.blocks, d ≠ b → ∀ x, d.hasPage x = true →
      translate pt x = translate u.pageTable x := by
    intro d hd hne x hx
    refine hout x (Bool.eq_false_iff.mpr fun hbx => hne (h.same_block hd hbmem hx hbx))
  have hpages : UserProc.ownerPages { u with pageTable := pt } = u.ownerPages := by
    ext x
    constructor
    · rintro ⟨hx, d, hd, htype, hdx⟩
      rw [hother d hd (by rintro rfl; simp [hguest] at htype) x hdx] at hx
      exact ⟨hx, d, hd, htype, hdx⟩
    · rintro ⟨hx, d, hd, htype, hdx⟩
      rw [← hother d hd (by rintro rfl; simp [hguest] at htype) x hdx] at hx
      exact ⟨hx, d, hd, htype, hdx⟩
  refine ⟨⟨h.parts, h.count, h.reuse, h.aligned⟩, fun x hx => ?_, fun d hd htype => ?_, ?_, h.nodup,
    h.pages, fun k hk => ?_⟩
  · by_cases hbx : b.hasPage x = true
    · exact ⟨b, hbmem, by simp [hguest], hbx⟩
    · rw [hout x (Bool.eq_false_iff.mpr hbx)] at hx
      exact h.mapped x hx
  · by_cases hdb : d = b
    · exact hdb ▸ hinj
    · exact injOn_hasPage (h.guest d hd htype) (hother d hd hdb)
  · rw [hpages]
    refine h.owner.congr fun x hx => ?_
    obtain ⟨-, d, hd, htype, hdx⟩ := hx
    exact (hother d hd (by rintro rfl; simp [hguest] at htype) x hdx).symm
  · refine (h.cleaner k hk).congr (fun _ => id) fun x hx => hout x (Bool.eq_false_iff.mpr fun hbx => ?_)
    exact h.cleaner_page_ne hk hb hbx hx rfl

/-- A page of a guest block is mapped to `a`, to which no other page of the block is mapped. -/
theorem ProcInv.mapGuestPage (hb : b ∈ u.vm.inuseMapped) (hguest : b.mapType = .guest)
    (hpg : b.hasPage pg = true) (hne : ∀ x, b.hasPage x = true → x ≠ pg →
    translate u.pageTable x ≠ 0 → translate u.pageTable x ≠ a)
    (hm : halMapPage u.pageTable pg a = some pt) : ProcInv c { u with pageTable := pt } own := by
  obtain ⟨htr, -, -⟩ := halMapPage_spec hm
  have hself : translate pt pg = a := by rw [htr, update_self]
  have hold : ∀ x, x ≠ pg → translate pt x = translate u.pageTable x := by
    intro x hx
    rw [htr, update_of_ne hx]
  refine h.remap hb hguest (fun x hx => hold x ?_) ?_
  · rintro rfl
    exact Bool.false_ne_true (hx.symm.trans hpg)
  · rintro x ⟨hx, hx0⟩ y ⟨hy, hy0⟩ hxy
    by_cases hxp : x = pg <;> by_cases hyp : y = pg
    · rw [hxp, hyp]
    · rw [hold y hyp] at hy0 hxy
      rw [hxp, hself] at hxy
      exact absurd hxy.symm (hne y hy hyp hy0)
    · rw [hold x hxp] at hx0 hxy
      rw [hyp, hself] at hxy
      exact absurd hxy (hne x hx hxp hx0)
    · rw [hold x hxp] at hx0 hxy
      rw [hold y hyp] at hy0 hxy
      exact h.guest b (mem_blocks_of_inuse hb) hguest ⟨hx, hx0⟩ ⟨hy, hy0⟩ hxy

end

end Proc

end Toddler
