import Toddler.Proofs.UserPages

/-! Page ownership over whole runs: what `pfree_paddr` is given belongs to the process, and a
process without active blocks has returned everything. -/

namespace Toddler

open Function List Nat

variable {n a v : ℕ} {c : PageConfig} {s s' : UserPages n} {p r : Fin n} {b : VmBlock}

def UserPages.own (s : UserPages n) (p : Fin n) : List ℕ :=
  (s.live.filter fun r => r.owner = some p).map PageRun.paddr

theorem UserPages.mem_own : a ∈ s.own p ↔ ∃ r ∈ s.live, r.owner = some p ∧ r.paddr = a := by
  simp [UserPages.own, and_assoc]

structure PagesInv (c : PageConfig) (s : UserPages n) : Prop where
  procs : ∀ p, ProcInv c (s.procs p) (s.own p)
  single : ∀ r ∈ s.live, r.owner ≠ none → r.count = 1
  unique : ∀ p q a, a ∈ s.own p → a ∈ s.own q → p = q
  nonzero : ∀ p, 0 ∉ s.own p

theorem pagesInv_init (c : PageConfig) (live : List (PageRun n)) (mem : ℕ → UInt8) :
    PagesInv c (pagesInit c live mem) := by
  have hnone : ∀ r ∈ (pagesInit c live mem).live, r.owner = none := by
    intro r hr
    obtain ⟨x, -, rfl⟩ := mem_map.mp hr
    rfl
  have hown : ∀ p, (pagesInit c live mem).own p = [] := by
    intro p
    rw [UserPages.own, map_eq_nil_iff, filter_eq_nil_iff]
    intro r hr
    simp [hnone r hr]
  refine ⟨fun p => ?_, fun r hr hne => absurd (hnone r hr) hne, fun p q a ha => ?_, fun p => ?_⟩
  · rw [hown p]
    exact procInv_create c
  · simp [hown p] at ha
  · simp [hown p]

variable {u : UserProc}

/-- What `u` keeps of `p` is kept of every process. -/
theorem UserPages.setProc_keeps {α : Type} {f : UserProc → α} (h : f u = f (s.procs p))
    (q : Fin n) : f ((s.setProc p u).procs q) = f (s.procs q) := by
  change f (update s.procs p u q) = f (s.procs q)
  rw [update_apply]
  split_ifs with hq
  · rw [hq, h]
  · rfl

/-- One process changes and the pages in use do not. -/
theorem PagesInv.setProc (h : PagesInv c s) (hu : ProcInv c u (s.own p)) :
    PagesInv c (s.setProc p u) := by
  refine ⟨fun q => ?_, h.single, h.unique, h.nonzero⟩
  change ProcInv c (update s.procs p u q) (s.own q)
  by_cases hq : q = p
  · subst hq
    rwa [update_self]
  · rw [update_of_ne hq]
    exact h.procs q

variable {live : List (PageRun n)}

theorem pallocPaddr_some {live' : List (PageRun n)} {owner : Option (Fin n)} {count : ℕ}
    (h : pallocPaddr live owner a count = some live') (ha : a ≠ 0) :
    live' = ⟨a, count, owner⟩ :: live ∧ pageSize ∣ a ∧ ∀ r ∈ live, a + count * pageSize ≤ r.paddr ∨
      r.fin ≤ a := by
  unfold pallocPaddr at h
  rw [if_neg ha] at h
  split_ifs at h with hfree
  cases h
  exact ⟨rfl, hfree⟩

section

variable (h : PagesInv c s) (hp : pallocPaddr s.live (some p) a 1 = some live) (ha : a ≠ 0)
include h hp ha

/-- A page from `palloc` belongs to nobody. -/
theorem PagesInv.fresh (q : Fin n) : a ∉ s.own q := by
  intro hin
  obtain ⟨r, hr, howner, rfl⟩ := UserPages.mem_own.mp hin
  have hone := h.single r hr (by simp [howner])
  obtain ⟨-, -, hfree⟩ := pallocPaddr_some hp ha
  have hpos : 0 < pageSize := by decide
  rcases hfree r hr with hle | hle
  · omega
  · rw [PageRun.fin, hone] at hle
    omega

theorem PagesInv.grown (hu : ProcInv c u (a :: s.own p)) :
    PagesInv c ({ s with live := live }.setProc p u) := by
  have hfresh := h.fresh hp ha
  obtain ⟨rfl, -, -⟩ := pallocPaddr_some hp ha
  have hself : UserPages.own { s with live := ⟨a, 1, some p⟩ :: s.live } p = a :: s.own p := by
    simp [UserPages.own]
  have hother : ∀ q, q ≠ p → UserPages.own { s with live := ⟨a, 1, some p⟩ :: s.live } q = s.own q := by
    intro q hq
    simp [UserPages.own, Ne.symm hq]
  have hmem : ∀ q x, x ∈ UserPages.own { s with live := ⟨a, 1, some p⟩ :: s.live } q →
      x = a ∧ q = p ∨ x ∈ s.own q := by
    intro q x hx
    by_cases hq : q = p
    · rw [hq, hself] at hx
      exact (mem_cons.mp hx).imp (fun he => ⟨he, hq⟩) fun hx => hq ▸ hx
    · exact .inr (hother q hq ▸ hx)
  refine ⟨fun q => ?_, fun r hr hne => ?_, fun q q' x hx hx' => ?_, fun q h0 => ?_⟩
  · change ProcInv c (update s.procs p u q) (UserPages.own { s with live := ⟨a, 1, some p⟩ :: s.live } q)
    by_cases hq : q = p
    · subst hq
      rwa [update_self, hself]
    · rw [update_of_ne hq, hother q hq]
      exact h.procs q
  · rcases mem_cons.mp hr with rfl | hr
    · rfl
    · exact h.single r hr hne
  · rcases hmem q x hx with ⟨rfl, hq⟩ | hx <;> rcases hmem q' x hx' with ⟨he, hq'⟩ | hx'
    · exact hq.trans hq'.symm
    · exact absurd hx' (hfresh q')
    · exact absurd (he ▸ hx) (hfresh q)
    · exact h.unique q q' x hx hx'
  · exact (hmem q 0 h0).elim (fun h0 => ha h0.1.symm) (h.nonzero q)

end

theorem PagesInv.cleanerFree (h : PagesInv c s) (hf : Toddler.cleanerFree s p = some s') :
    PagesInv c s' := by
  simp only [Toddler.cleanerFree, Option.bind_eq_bind, Option.bind_eq_some_iff,
    Option.some.injEq] at hf
  obtain ⟨k, hk, a, ha, rfl⟩ := hf
  have hin := ((h.procs p).cleaner k hk).pending a ha |>.1
  have hown : ∀ q, UserPages.own { s with live := pfreePaddr s.live a } q =
      (s.own q).filter fun x => decide (x ≠ a) := by
    intro q
    simp only [UserPages.own, pfreePaddr, filter_map, filter_filter]
    congr 1
    refine filter_congr fun r _ => ?_
    simp [Bool.and_comm]
  have hother : ∀ q, q ≠ p → UserPages.own { s with live := pfreePaddr s.live a } q = s.own q := by
    intro q hq
    rw [hown, filter_eq_self]
    intro x hx
    simp only [decide_eq_true_eq]
    rintro rfl
    exact hq (h.unique q p x hx hin)
  have hsub : ∀ q x, x ∈ UserPages.own { s with live := pfreePaddr s.live a } q → x ∈ s.own q :=
    fun q x hx => mem_of_mem_filter (hown q ▸ hx)
  refine ⟨fun q => ?_, fun r hr => h.single r (mem_filter.mp hr).1,
    fun q q' x hx hx' => h.unique q q' x (hsub q x hx) (hsub q' x hx'),
    fun q h0 => h.nonzero q (hsub q 0 h0)⟩
  change ProcInv c (update s.procs p _ q) (UserPages.own { s with live := pfreePaddr s.live a } q)
  by_cases hq : q = p
  · subst hq
    rw [update_self, hown]
    exact (h.procs q).freed hk ha
  · rw [update_of_ne hq, hother q hq]
    exact h.procs q

/-- The end of a block in use is a word, and so is the end of each of its pages. -/
theorem ProcInv.page_lt {own : List ℕ} (h : ProcInv c u own) (hb : b ∈ u.blocks)
    (hv : pageSize ∣ v) (hpg : b.hasPage (v / pageSize) = true) :
    v + pageSize ≤ b.fin ∧ b.fin < word := by
  have hal := h.aligned b (mem_append_right _ hb)
  have hbound := (h.parts.bounds b (mem_append_right _ hb)).2
  have hlt := (hal.hasPage.mp hpg).2
  obtain ⟨j, hj⟩ := Nat.dvd_add hal.1 hal.2
  refine ⟨?_, hbound.trans_lt c.fin_lt⟩
  simp only [VmBlock.fin, pageSize] at *
  omega

/-- What `growPage` has done: the page `pg` of `p` is mapped to the fresh `a`. -/
structure Grew (s s' : UserPages n) (p : Fin n) (pg a : ℕ) : Prop where
  procs : ∀ q, q ≠ p → s'.procs q = s.procs q
  vm : ∀ q, (s'.procs q).vm = (s.procs q).vm
  cleaner : ∀ q, (s'.procs q).cleaner = (s.procs q).cleaner
  tr : translate (s'.procs p).pageTable = update (translate (s.procs p).pageTable) pg a
  old : translate (s.procs p).pageTable pg = 0
  own : s'.own p = a :: s.own p
  fresh : ∀ q, a ∉ s.own q
  crosses : s'.crosses = s.crosses

theorem growPage_some (hv : pageSize ∣ v) (hlt : v + pageSize < word) (ha : a ≠ 0)
    (h : growPage s p v a = some s') : ∃ live pt, pallocPaddr s.live (some p) a 1 = some live ∧
    pageSize ∣ a ∧
      halMapPage (s.procs p).pageTable (v / pageSize) a = some pt ∧
      s' = { s with live := live }.setProc p { s.procs p with
        pageTable := pt
        numPallocPages := (s.procs p).numPallocPages + 1 } := by
  simp only [growPage, Option.bind_eq_bind, Option.bind_eq_some_iff, Option.some.injEq] at h
  obtain ⟨live, hlive, pt, hpt, rfl⟩ := h
  obtain ⟨-, hdvd, -⟩ := pallocPaddr_some hlive ha
  rw [halMapRange_page hv hdvd hlt] at hpt
  exact ⟨live, pt, hlive, hdvd, hpt, rfl⟩

theorem PagesInv.growPage (h : PagesInv c s) (hb : b ∈ (s.procs p).vm.inuseMapped)
    (howner : b.mapType = .owner) (hv : pageSize ∣ v) (hpg : b.hasPage (v / pageSize) =
    true) (ha : a ≠ 0)
    (hg : Toddler.growPage s p v a = some s') : PagesInv c s' ∧ Grew s s' p (v / pageSize) a := by
  have hend := (h.procs p).page_lt (mem_blocks_of_inuse hb) hv hpg
  obtain ⟨live, pt, hlive, -, hpt, rfl⟩ := growPage_some hv (by omega) ha hg
  have hfresh := h.fresh hlive ha
  obtain ⟨htr, hold, hinv⟩ := (h.procs p).grow hb howner hpg ha (hfresh p) hpt
  refine ⟨h.grown hlive ha hinv, fun q hq => update_of_ne hq .., UserPages.setProc_keeps rfl,
    UserPages.setProc_keeps rfl, ?_, hold, ?_, hfresh, rfl⟩
  · simpa [UserPages.setProc] using htr
  · obtain ⟨rfl, -, -⟩ := pallocPaddr_some hlive ha
    simp [UserPages.own, UserPages.setProc]

/-- What `vmAllocAs` has done when it returns the block `b`. -/
structure Alloced (s s' : UserPages n) (p : Fin n) (b : VmBlock) (t : VmMapType) : Prop where
  procs : ∀ q, q ≠ p → s'.procs q = s.procs q
  pageTable : (s'.procs p).pageTable = (s.procs p).pageTable
  cleaner : ∀ q, (s'.procs q).cleaner = (s.procs q).cleaner
  live : s'.live = s.live
  crosses : s'.crosses = s.crosses
  inuse : { b with mapType := t } ∈ (s'.procs p).vm.inuseMapped
  keep : ∀ d ∈ (s.procs p).vm.inuseMapped, d ∈ (s'.procs p).vm.inuseMapped
  blocks : (s'.procs p).blocks.Perm ({ b with mapType := t } :: (s.procs p).blocks)
  id : b.id = (s.procs p).vm.nextId
  nextId : (s'.procs p).vm.nextId = (s.procs p).vm.nextId + 2
  clear : ∀ pg, b.hasPage pg = true → translate (s.procs p).pageTable pg = 0

variable {size : ℕ} {t : VmMapType}

theorem PagesInv.vmAllocAs_some (h : PagesInv c s) {base : ℕ}
    (hwrap : base + size + (pageSize - 1) < word) (ha : vmAllocAs s p base size t = (s', some b)) :
    PagesInv c s' ∧ Alloced s s' p b t ∧
      b.size = sub64 (alignUpPage (add64 base size)) (alignDownPage base) ∧
      (alignDownPage base ≠ 0 → b.base = alignDownPage base) := by
  unfold vmAllocAs at ha
  rcases hr : vmAlloc (s.procs p).vm base size with ⟨vm, r⟩
  rw [hr] at ha
  cases r with
  | none => simp at ha
  | some d =>
    simp only [Prod.mk.injEq, Option.some.injEq] at ha
    obtain ⟨rfl, rfl⟩ := ha
    obtain ⟨hinv, hperm, hmem, hclear⟩ := (h.procs p).alloc_some hwrap hr
    obtain ⟨-, -, -, hnext, -, -, hspec⟩ := vmAlloc_spec hr
    obtain ⟨hinuse, hid, hsize, hbase⟩ := hspec d rfl
    have hre := hinv.retype hmem t (.inr hclear)
    have hfresh : ∀ e ∈ (s.procs p).blocks, e.id ≠ d.id := by
      intro e he
      have := (h.procs p).parts.fresh e (mem_append_right _ he)
      omega
    have hblocks : (UserProc.blocks { s.procs p with vm := vm.setMapType d.id t }).Perm
        ({ d with mapType := t } :: (s.procs p).blocks) := by
      rw [hinv.setMapType_blocks hmem t]
      refine (hperm.map _).trans ?_
      rw [map_cons, retype_self]
      refine List.Perm.cons _ (List.Perm.of_eq ?_)
      conv_rhs => rw [← map_id (s.procs p).blocks]
      exact map_congr_left fun e he => retype_of_ne t (hfresh e he)
    refine ⟨h.setProc hre, ⟨fun q hq => update_of_ne hq .., ?_, UserPages.setProc_keeps rfl, rfl,
      rfl, ?_, ?_, ?_, hid, ?_, hclear⟩, hsize, hbase⟩
    · simp [UserPages.setProc]
    · simp only [UserPages.setProc, update_self]
      have hmap := mem_map_of_mem (f := retype d.id t) hmem
      rwa [retype_self] at hmap
    · intro e he
      simp only [UserPages.setProc, update_self]
      have hin : e ∈ vm.inuseMapped := by
        rw [hinuse]
        exact (listInsertSorted_perm baseLe d _).mem_iff.mpr (mem_cons_of_mem _ he)
      have hmap := mem_map_of_mem (f := retype d.id t) hin
      rwa [retype_of_ne t (hfresh e (mem_blocks_of_inuse he))] at hmap
    · simpa [UserPages.setProc] using hblocks
    · simpa [UserPages.setProc, Vm.setMapType] using hnext

theorem PagesInv.vmAllocAs_none (h : PagesInv c s) {base : ℕ}
    (hwrap : base + size + (pageSize - 1) < word) (ha : vmAllocAs s p base size t = (s', none)) :
    PagesInv c s' ∧ ∃ vm, vmAlloc (s.procs p).vm base size = (vm, none) ∧
      s' = s.setProc p { s.procs p with vm := vm } := by
  unfold vmAllocAs at ha
  rcases hr : vmAlloc (s.procs p).vm base size with ⟨vm, r⟩
  rw [hr] at ha
  cases r with
  | some d => simp at ha
  | none =>
    simp only [Prod.mk.injEq, and_true] at ha
    subst ha
    exact ⟨h.setProc ((h.procs p).alloc_none hwrap hr), vm, rfl, rfl⟩

/-- A fault that is handled maps a page in a block that is not a guest block. -/
theorem PagesInv.vmMap_cases (h : PagesInv c s) {addr : ℕ} (ha : a ≠ 0)
    (hm : Toddler.vmMap s p addr a = some s') :
    s' = s ∨ ∃ b ∈ (s.procs p).vm.inuseMapped,
    b.mapType ≠ .guest ∧ b.hasPage (addr / pageSize) = true ∧
      ∃ live pt, pallocPaddr s.live (some p) a 1 = some live ∧
        halMapPage (s.procs p).pageTable (addr / pageSize) a = some pt ∧
        s' = { s with live := live }.setProc p { s.procs p with
          vm := (s.procs p).vm.setMapType b.id .owner
          pageTable := pt
          numPallocPages := (s.procs p).numPallocPages + 1 } := by
  unfold Toddler.vmMap at hm
  cases hf : (s.procs p).vm.inuseMapped.find? fun b =>
    b.base ≤ addr && addr < add64 b.base b.size with
  | none =>
    simp only [hf, Option.some.injEq] at hm
    exact .inl hm.symm
  | some b =>
    simp only [hf, Option.bind_eq_bind, Option.bind_eq_some_iff] at hm
    obtain ⟨s₁, hg, hm⟩ := hm
    split_ifs at hm with hguest
    cases hm
    have hb := mem_of_find?_eq_some hf
    have hbmem := mem_blocks_of_inuse hb
    have hal := (h.procs p).aligned b (mem_append_right _ hbmem)
    have hfin := ((h.procs p).parts.bounds b (mem_append_right _ hbmem)).2.trans_lt c.fin_lt
    have hin : b.base ≤ addr ∧ addr < b.fin := by
      have := find?_some hf
      rw [Bool.and_eq_true, decide_eq_true_iff, decide_eq_true_iff, add64_of_lt hfin] at this
      exact this
    have hdvd := dvd_alignDownPage addr
    have hpage : alignDownPage addr / pageSize = addr / pageSize := Nat.mul_div_cancel _ (by decide)
    have hpg : b.hasPage (addr / pageSize) = true := by
      rw [hal.hasPage]
      obtain ⟨⟨i, hi⟩, -⟩ := hal
      simp only [pageSize] at *
      omega
    have hend := (h.procs p).page_lt hbmem hdvd (hpage.symm ▸ hpg)
    obtain ⟨live, pt, hlive, -, hpt, rfl⟩ := growPage_some hdvd (by omega) ha hg
    rw [hpage] at hpt
    refine .inr ⟨b, hb, hguest, hpg, live, pt, hlive, hpt, ?_⟩
    simp [UserPages.setProc]

variable {pt : List Translation}

/-- The block of a fault becomes an owner block before its page is mapped, which comes to the
same. -/
theorem PagesInv.faultPage (h : PagesInv c s) {pg : ℕ}
    (hb : b ∈ (s.procs p).vm.inuseMapped) (hguest : b.mapType ≠ .guest) (hpg : b.hasPage pg = true)
    (ha : a ≠ 0) (hlive : pallocPaddr s.live (some p) a 1 = some live)
    (hpt : halMapPage (s.procs p).pageTable pg a = some pt) :
    ProcInv c { s.procs p with vm := (s.procs p).vm.setMapType b.id .owner } (s.own p) ∧
      { b with mapType := .owner } ∈ ((s.procs p).vm.setMapType b.id .owner).inuseMapped ∧
      translate pt = update (translate (s.procs p).pageTable) pg a ∧
      translate (s.procs p).pageTable pg = 0 ∧
      ProcInv c { s.procs p with
        vm := (s.procs p).vm.setMapType b.id .owner
        pageTable := pt
        numPallocPages := (s.procs p).numPallocPages + 1 } (a :: s.own p) := by
  have hnone : b.mapType = .owner ∨ ∀ pg, b.hasPage pg = true →
      translate (s.procs p).pageTable pg = 0 := by
    cases ht : b.mapType with
    | owner => exact .inl rfl
    | guest => exact absurd ht hguest
    | none =>
      refine .inr fun pg hpg => ?_
      by_contra hne
      exact (h.procs p).not_none (mem_blocks_of_inuse hb) hpg hne ht
  have hre := (h.procs p).retype hb .owner hnone
  have hb' : { b with mapType := .owner } ∈ ((s.procs p).vm.setMapType b.id .owner).inuseMapped := by
    have hmap := mem_map_of_mem (f := retype b.id .owner) hb
    rwa [retype_self] at hmap
  obtain ⟨htr, hold, hinv⟩ := hre.grow hb' rfl (by exact hpg) ha (h.fresh hlive ha p) hpt
  exact ⟨hre, hb', htr, hold, hinv⟩

theorem PagesInv.vmMap (h : PagesInv c s) {addr : ℕ} (ha : a ≠ 0)
    (hm : Toddler.vmMap s p addr a = some s') : PagesInv c s' := by
  obtain rfl | ⟨b, hb, hguest, hpg, live, pt, hlive, hpt, rfl⟩ := h.vmMap_cases ha hm
  · exact h
  · exact h.grown hlive ha (h.faultPage hb hguest hpg ha hlive hpt).2.2.2.2

variable {k : ℕ}

/-- The page of a range within an aligned block. -/
theorem VmBlock.Aligned.hasPage_of_le (h : b.Aligned) (hv : pageSize ∣ v) (hlo : b.base ≤ v)
    (hhi : v + (k + 1) * pageSize ≤ b.fin) : b.hasPage (v / pageSize) = true := by
  rw [h.hasPage, Nat.div_mul_cancel hv]
  refine ⟨hlo, ?_⟩
  simp only [pageSize] at *
  omega

variable {J : UserPages n → Prop}

/-- The loop of `vm_map_kernel` over the block `b`, with whatever else a new page keeps. -/
theorem PagesInv.mapKernelLoop
    (hJ : ∀ s s₁ pg a, PagesInv c s → J s → b ∈ (s.procs p).vm.inuseMapped → b.hasPage pg = true →
      Grew s s₁ p pg a → J s₁)
    (paddrs : List ℕ) : ∀ {s : UserPages n} {v : ℕ}, PagesInv c s → J s →
    b ∈ (s.procs p).vm.inuseMapped → b.mapType = .owner → pageSize ∣ v → b.base ≤ v →
    v + paddrs.length * pageSize ≤ b.fin → Toddler.mapKernelLoop p paddrs v s = some s' →
      PagesInv c s' ∧ J s' := by
  induction paddrs with
  | nil =>
    intro s v h hj _ _ _ _ _ hm
    simp only [Toddler.mapKernelLoop, Option.some.injEq] at hm
    exact hm ▸ ⟨h, hj⟩
  | cons a rest ih =>
    intro s v h hj hb howner hv hlo hhi hm
    rw [Toddler.mapKernelLoop] at hm
    split_ifs at hm with ha
    obtain ⟨s₁, hg, hm⟩ := Option.bind_eq_some_iff.mp hm
    have hbmem := mem_blocks_of_inuse hb
    have hal := (h.procs p).aligned b (mem_append_right _ hbmem)
    have hpg := hal.hasPage_of_le hv hlo hhi
    have hend := (h.procs p).page_lt hbmem hv hpg
    obtain ⟨h₁, hgrew⟩ := h.growPage hb howner hv hpg ha hg
    rw [length_cons, succ_mul] at hhi
    rw [add64_of_lt (by omega)] at hm
    exact ih h₁ (hJ s s₁ _ a h hj hb hpg hgrew) (hgrew.vm p ▸ hb) howner (dvd_add hv dvd_rfl)
      (by omega) (by omega) hm

/-- A rounded size asked for at any address does not wrap. -/
theorem alignUpPage_noWrap (h : pageSize ∣ size) (hlt : size < word) :
    0 + size + (pageSize - 1) < word ∧ alignUpPage (add64 0 size) = size := by
  have h0 : add64 0 size = size := by rw [add64, zero_add, mod_eq_of_lt hlt]
  refine ⟨?_, h0.symm ▸ alignUpPage_of_dvd h hlt⟩
  simp only [pageSize, word] at *
  omega

variable {paddrs : List ℕ}

/-- `vm_map_kernel` fails, or reaches its loop with a new owner block of the right size. -/
theorem PagesInv.vmMapKernel_cases (h : PagesInv c s)
    (hm : Toddler.vmMapKernel s p size paddrs = some s') :
    vmAllocAs s p 0 (alignUpPage size) .owner = (s', none) ∨
    ∃ s₁ b, vmAllocAs s p 0 (alignUpPage size) .owner = (s₁, some b) ∧ pageSize ∣ b.base ∧
      b.base + paddrs.length * pageSize ≤ b.fin ∧ Toddler.mapKernelLoop p paddrs b.base s₁ = some s' := by
  unfold Toddler.vmMapKernel at hm
  obtain ⟨hwrap, hround⟩ := alignUpPage_noWrap (dvd_alignUpPage size) (alignUpPage_lt size)
  rcases ha : vmAllocAs s p 0 (alignUpPage size) .owner with ⟨s₁, r⟩
  simp only [ha] at hm
  cases r with
  | none =>
    simp only [Option.some.injEq] at hm
    exact .inl (by rw [hm])
  | some b =>
    split_ifs at hm with hlen
    obtain ⟨h₁, halloc, hsize, -⟩ := h.vmAllocAs_some hwrap ha
    have hal := (h₁.procs p).aligned _ (mem_append_right _ (mem_blocks_of_inuse halloc.inuse))
    have hsz : b.size = alignUpPage size := by
      rw [hsize, hround, sub64_of_le (by simp [alignDownPage]) (alignUpPage_lt size)]
      simp [alignDownPage]
    refine .inr ⟨s₁, b, rfl, hal.1, ?_, hm⟩
    rw [hlen, Nat.div_mul_cancel (dvd_alignUpPage size), VmBlock.fin, hsz]

theorem PagesInv.vmMapKernel (h : PagesInv c s)
    (hm : Toddler.vmMapKernel s p size paddrs = some s') : PagesInv c s' := by
  have hwrap := (alignUpPage_noWrap (dvd_alignUpPage size) (alignUpPage_lt size)).1
  obtain ha | ⟨s₁, b, ha, hdvd, hend, hloop⟩ := h.vmMapKernel_cases hm
  · exact (h.vmAllocAs_none hwrap ha).1
  · obtain ⟨h₁, halloc, -, -⟩ := h.vmAllocAs_some hwrap ha
    exact (PagesInv.mapKernelLoop (fun _ _ _ _ _ _ _ _ _ => trivial) paddrs h₁ trivial
      halloc.inuse rfl hdvd le_rfl hend hloop).1

/-- Consecutive pages are mapped to different physical pages. -/
theorem halMapPages_injOn {pt' : List Translation} {pg : ℕ} (h : halMapPages pt pg a k = some pt')
    (hk : k * pageSize < word) : Set.InjOn (translate pt') {x | pg ≤ x ∧ x < pg + k} := by
  rintro x ⟨hx, hx'⟩ y ⟨hy, hy'⟩ heq
  obtain ⟨-, hin⟩ := halMapPages_spec k h
  have h1 := hin (x - pg) (by omega)
  have h2 := hin (y - pg) (by omega)
  rw [Nat.add_sub_cancel' hx] at h1
  rw [Nat.add_sub_cancel' hy] at h2
  have hmod : a + (x - pg) * pageSize ≡ a + (y - pg) * pageSize [MOD word] := by
    rw [Nat.ModEq, ← h1, ← h2, heq]
  have hsame := Nat.ModEq.eq_of_lt_of_lt (Nat.ModEq.add_left_cancel' a hmod)
    (lt_of_le_of_lt (Nat.mul_le_mul_right _ (by omega)) hk)
    (lt_of_le_of_lt (Nat.mul_le_mul_right _ (by omega)) hk)
  have := eq_of_mul_eq_mul_right (by decide) hsame
  omega

theorem PagesInv.vmMapGuest (h : PagesInv c s) {paddr mapSize : ℕ} (hdvd : pageSize ∣ mapSize)
    (hlt : mapSize < word) (hm : Toddler.vmMapGuest s p paddr mapSize = some s') :
    PagesInv c s' := by
  unfold Toddler.vmMapGuest at hm
  obtain ⟨hwrap, hround⟩ := alignUpPage_noWrap hdvd hlt
  rcases ha : vmAllocAs s p 0 mapSize .guest with ⟨s₁, r⟩
  simp only [ha] at hm
  cases r with
  | none =>
    simp only [Option.some.injEq] at hm
    exact hm ▸ (h.vmAllocAs_none hwrap ha).1
  | some b =>
    obtain ⟨pt, hpt, hm⟩ := Option.bind_eq_some_iff.mp hm
    cases hm
    obtain ⟨h₁, halloc, -, -⟩ := h.vmAllocAs_some hwrap ha
    have hb := halloc.inuse
    have hbmem := mem_blocks_of_inuse hb
    have haligned := (h₁.procs p).aligned _ (mem_append_right _ hbmem)
    have hal : b.Aligned := haligned
    have hbound := ((h₁.procs p).parts.bounds _ (mem_append_right _ hbmem)).2
    have hfin : b.fin < word := hbound.trans_lt c.fin_lt
    rw [halMapRange, halRangePages_of_dvd hal.1 hal.2 hfin] at hpt
    have hpage : ∀ x, b.hasPage x = true ↔ b.base / pageSize ≤ x ∧
        x < b.base / pageSize + b.size / pageSize := by
      intro x
      rw [hal.hasPage, VmBlock.fin]
      obtain ⟨⟨i, hi⟩, ⟨j, hj⟩⟩ := hal
      rw [hi, hj]
      simp only [pageSize]
      omega
    refine h₁.setProc ((h₁.procs p).remap hb rfl (fun x hx => ?_) ?_)
    · refine (halMapPages_spec _ hpt).1 x ?_
      have hout : ¬ (b.hasPage x = true) := by
        intro hc
        exact Bool.false_ne_true (hx.symm.trans hc)
      rw [hpage] at hout
      omega
    · refine (halMapPages_injOn hpt ?_).mono fun x hx => (hpage x).mp hx.1
      rw [Nat.div_mul_cancel hal.2]
      exact lt_of_le_of_lt (Nat.le_add_left _ _) hfin

/-- Where the loop of `vm_map_cross` is, with `k` pages to go. What it has mapped in the guest's
block are pages of the owner. -/
structure CrossAt (c : PageConfig) (s : UserPages n) (p r : Fin n) (rb lb : VmBlock) (rv lv k : ℕ) :
    Prop where
  inv : PagesInv c s
  remote : rb ∈ (s.procs r).vm.inuseMapped
  owner : rb.mapType = .owner
  loc : lb ∈ (s.procs p).vm.inuseMapped
  guest : lb.mapType = .guest
  shared : ∀ pg, lb.hasPage pg = true → translate (s.procs p).pageTable pg ≠ 0 →
    translate (s.procs p).pageTable pg ∈ s.own r
  remoteDvd : pageSize ∣ rv
  remoteLo : rb.base ≤ rv
  remoteHi : rv + k * pageSize ≤ rb.fin
  localDvd : pageSize ∣ lv
  localLo : lb.base ≤ lv
  localHi : lv + k * pageSize ≤ lb.fin

/-- One round has mapped the page `rpg` of `r` and the page `lpg` of `p` to the fresh `a`. -/
structure CrossRound (s s' : UserPages n) (p r : Fin n) (rpg lpg a : ℕ) : Prop where
  vm : ∀ q, (s'.procs q).vm = (s.procs q).vm
  cleaner : ∀ q, (s'.procs q).cleaner = (s.procs q).cleaner
  tr : ∀ q x, translate (s'.procs q).pageTable x =
    if (q = p ∧ x = lpg) ∨ (q = r ∧ x = rpg) then a else translate (s.procs q).pageTable x
  old : translate (s.procs r).pageTable rpg = 0
  own : s'.own r = a :: s.own r
  fresh : ∀ q, a ∉ s.own q
  crosses : s'.crosses = s.crosses

theorem CrossRound.blocks {rpg lpg : ℕ} (h : CrossRound s s' p r rpg lpg a) (q : Fin n) :
    (s'.procs q).blocks = (s.procs q).blocks := by
  rw [UserProc.blocks, UserProc.blocks, h.vm q, h.cleaner q]

theorem CrossAt.round {rb lb : VmBlock} {rv lv : ℕ} {s₁ : UserPages n}
    (h : CrossAt c s p r rb lb rv lv (k + 1)) (ha : a ≠ 0) (hg : growPage s r rv a = some s₁)
    (hpt : halMapRange (s₁.procs p).pageTable lv a pageSize = some pt) :
    CrossAt c (s₁.setProc p { s₁.procs p with pageTable := pt }) p r rb lb (add64 rv pageSize)
      (add64 lv pageSize) k ∧
      CrossRound s (s₁.setProc p { s₁.procs p with pageTable := pt }) p r (rv / pageSize)
      (lv / pageSize) a := by
  have hral := (h.inv.procs r).aligned rb (mem_append_right _ (mem_blocks_of_inuse h.remote))
  have hlal := (h.inv.procs p).aligned lb (mem_append_right _ (mem_blocks_of_inuse h.loc))
  have hrpg := hral.hasPage_of_le h.remoteDvd h.remoteLo h.remoteHi
  have hlpg := hlal.hasPage_of_le h.localDvd h.localLo h.localHi
  have hrend := (h.inv.procs r).page_lt (mem_blocks_of_inuse h.remote) h.remoteDvd hrpg
  have hlend := (h.inv.procs p).page_lt (mem_blocks_of_inuse h.loc) h.localDvd hlpg
  obtain ⟨h₁, hgrew⟩ := h.inv.growPage h.remote h.owner h.remoteDvd hrpg ha hg
  obtain ⟨-, -, -, hdvd, -, -⟩ := growPage_some h.remoteDvd (by omega) ha hg
  rw [halMapRange_page h.localDvd hdvd (by omega)] at hpt
  obtain ⟨htr, -, -⟩ := halMapPage_spec hpt
  -- the guest's block is not the owner's, also when both are in one process
  have hlocal : ∀ x, lb.hasPage x = true → translate (s₁.procs p).pageTable x =
      translate (s.procs p).pageTable x := by
    intro x hx
    by_cases hpr : p = r
    · subst hpr
      rw [hgrew.tr, update_of_ne]
      rintro rfl
      have hsame := (h.inv.procs p).same_block (mem_blocks_of_inuse h.loc)
        (mem_blocks_of_inuse h.remote) hx hrpg
      have hguest := h.guest
      rw [hsame, h.owner] at hguest
      cases hguest
    · rw [hgrew.procs p hpr]
  have hin₁ : lb ∈ (s₁.procs p).vm.inuseMapped := hgrew.vm p ▸ h.loc
  -- `a` is fresh, so no other page of the guest's block is mapped to it
  have hremap := (h₁.procs p).mapGuestPage hin₁ h.guest hlpg (fun x hx _ hx0 heq => ?_) hpt
  swap
  · rw [hlocal x hx] at hx0 heq
    exact hgrew.fresh r (heq ▸ h.shared x hx hx0)
  have hinv := h₁.setProc hremap
  have htr' : ∀ q x, translate ((s₁.setProc p { s₁.procs p with pageTable := pt }).procs
    q).pageTable x =
      if (q = p ∧ x = lv / pageSize) ∨ (q = r ∧ x = rv / pageSize) then a
      else translate (s.procs q).pageTable x := by
    intro q x
    have h1 : translate (s₁.procs q).pageTable x =
        if q = r ∧ x = rv / pageSize then a else translate (s.procs q).pageTable x := by
      by_cases hq : q = r
      · subst hq
        rw [hgrew.tr, update_apply]
        simp
      · rw [hgrew.procs q hq, if_neg fun hc => hq hc.1]
    by_cases hq : q = p
    · subst hq
      simp only [UserPages.setProc, update_self, htr, update_apply, h1]
      by_cases hx : x = lv / pageSize
      · simp [hx]
      · simp [hx]
    · simp only [UserPages.setProc, update_of_ne hq, h1]
      simp [hq]
  have hvm : ∀ q, ((s₁.setProc p { s₁.procs p with pageTable := pt }).procs q).vm = (s.procs q).vm :=
    fun q => hgrew.vm q ▸ UserPages.setProc_keeps (by rfl) q
  have hr := h.remoteHi
  have hl := h.localHi
  rw [succ_mul] at hr hl
  rw [add64_of_lt (by omega), add64_of_lt (by omega)]
  have hrlo := h.remoteLo
  have hllo := h.localLo
  refine ⟨⟨hinv, hvm r ▸ h.remote, h.owner, hvm p ▸ h.loc, h.guest, fun x hx hx0 => ?_,
    dvd_add h.remoteDvd dvd_rfl, by
    omega, by omega, dvd_add h.localDvd dvd_rfl, by omega, by omega⟩,
    hvm, fun q => hgrew.cleaner q ▸ UserPages.setProc_keeps (by rfl) q, htr', hgrew.old, hgrew.own,
    hgrew.fresh, hgrew.crosses⟩
  · change _ ∈ s₁.own r
    rw [hgrew.own]
    rw [htr'] at hx0 ⊢
    split_ifs at hx0 ⊢ with hcase
    · exact mem_cons_self
    · exact mem_cons_of_mem _ (h.shared x hx hx0)

theorem CrossAt.loop {rb lb : VmBlock}
    (hJ : ∀ s s₁ rv lv k a, CrossAt c s p r rb lb rv lv (k + 1) → J s →
      CrossRound s s₁ p r (rv / pageSize) (lv / pageSize) a → J s₁)
    (paddrs : List ℕ) : ∀ {s : UserPages n} {rv lv : ℕ}, CrossAt c s p r rb lb rv lv paddrs.length → J s →
    0 ∉ paddrs → mapCrossLoop p r paddrs rv lv s = some s' → PagesInv c s' ∧ J s' := by
  induction paddrs with
  | nil =>
    intro s rv lv h hj _ hm
    cases hm
    exact ⟨h.inv, hj⟩
  | cons a rest ih =>
    intro s rv lv h hj h0 hm
    simp only [mapCrossLoop, Option.bind_eq_bind, Option.bind_eq_some_iff] at hm
    obtain ⟨s₁, hg, pt, hpt, hm⟩ := hm
    have ha : a ≠ 0 := fun ha => h0 (ha ▸ mem_cons_self)
    obtain ⟨hat, hround⟩ := h.round ha hg hpt
    exact ih hat (hJ s _ rv lv _ a h hj hround) (fun hin => h0 (mem_cons_of_mem _ hin)) hm

variable {vbase : ℕ}

theorem cross_rounding (h : vbase + size + (pageSize - 1) < word) :
    alignDownPage vbase + kernelMapSize vbase size =
        alignUpPage (add64 vbase size) ∧
      alignDownPage vbase + kernelMapSize vbase size + (pageSize - 1) < word ∧
      pageSize ∣ kernelMapSize vbase size := by
  obtain ⟨hle, hlt, -⟩ := alloc_rounding h
  have hup := dvd_alignUpPage (add64 vbase size)
  have hsub := dvd_sub64 pageSize_dvd_word hup (dvd_alignDownPage vbase)
  rw [kernelMapSize, sub64_of_le hle hlt]
  rw [sub64_of_le hle hlt] at hsub
  rw [Nat.add_sub_cancel' hle]
  refine ⟨rfl, ?_, hsub⟩
  simp only [pageSize, word] at *
  omega

/-- `vm_map_cross` reaches its loop with two new blocks, or with no page to map. -/
theorem PagesInv.vmMapCross_at (h : PagesInv c s) {s₁ s₂ : UserPages n}
    {remote loc : VmBlock} (hwrap : vbase + size + (pageSize - 1) < word)
    (hr : vmAllocAs s r (alignDownPage vbase) (kernelMapSize vbase size) .owner =
      (s₁, some remote))
    (hl : vmAllocAs s₁ p 0 (kernelMapSize vbase size) .guest = (s₂, some loc))
    (hlen : paddrs.length = kernelMapSize vbase size / pageSize)
    (hbase : alignDownPage vbase ≠ 0) :
    CrossAt c { s₂ with crosses := ⟨r, remote.id, p, loc.id⟩ :: s₂.crosses } p r
      { remote with mapType := .owner }
      { loc with mapType := .guest } (alignDownPage vbase) loc.base paddrs.length := by
  obtain ⟨hsum, hwrap', hdvd⟩ := cross_rounding hwrap
  have hup := alignUpPage_lt (add64 vbase size)
  generalize kernelMapSize vbase size = mapSize at *
  have hlt : mapSize < word := by omega
  obtain ⟨hwrap₀, hround⟩ := alignUpPage_noWrap hdvd hlt
  have hdown : alignDownPage (alignDownPage vbase) = alignDownPage vbase :=
    alignDownPage_of_dvd (dvd_alignDownPage vbase)
  obtain ⟨h₁, ha₁, hsize₁, hbase₁⟩ := h.vmAllocAs_some hwrap' hr
  obtain ⟨h₂, ha₂, hsize₂, -⟩ := h₁.vmAllocAs_some hwrap₀ hl
  have hmul : paddrs.length * pageSize = mapSize := by rw [hlen, Nat.div_mul_cancel hdvd]
  have hrb : remote.base = alignDownPage vbase := by rw [hbase₁ (hdown.symm ▸ hbase), hdown]
  have hrs : remote.size = mapSize := by
    rw [hsize₁, add64_of_lt (by omega), hsum, alignUpPage_of_dvd (dvd_alignUpPage _) hup,
      sub64_of_le (by omega) hup]
    omega
  have hls : loc.size = mapSize := by
    rw [hsize₂, hround, sub64_of_le (by simp [alignDownPage]) hlt]
    simp [alignDownPage]
  have hremote : { remote with mapType := .owner } ∈ (s₂.procs r).vm.inuseMapped := by
    by_cases hpr : r = p
    · subst hpr
      exact ha₂.keep _ ha₁.inuse
    · rw [ha₂.procs r hpr]
      exact ha₁.inuse
  have hal : loc.Aligned := by
    have := (h₂.procs p).aligned _ (mem_append_right _ (mem_blocks_of_inuse ha₂.inuse))
    exact this
  refine ⟨⟨h₂.procs, h₂.single, h₂.unique, h₂.nonzero⟩, hremote, rfl, ha₂.inuse, rfl,
    fun pg hpg hne => ?_, dvd_alignDownPage vbase, ?_, ?_, hal.1, le_rfl, ?_⟩
  · refine absurd ?_ hne
    rw [ha₂.pageTable]
    exact ha₂.clear pg hpg
  · exact hrb.le
  · rw [hmul, VmBlock.fin, hrb, hrs]
  · rw [hmul, VmBlock.fin, hls]

/-- A loop at address 0 maps nothing or panics. -/
theorem mapCrossLoop_zero {lv : ℕ} (h0 : 0 ∉ paddrs)
    (hm : mapCrossLoop p r paddrs 0 lv s = some s') : paddrs = [] ∧ s' = s := by
  cases paddrs with
  | nil =>
    cases hm
    exact ⟨rfl, rfl⟩
  | cons a rest =>
    exfalso
    simp only [mapCrossLoop, Option.bind_eq_bind, Option.bind_eq_some_iff] at hm
    obtain ⟨s₁, hg, -⟩ := hm
    have ha : a ≠ 0 := fun ha => h0 (ha ▸ mem_cons_self)
    obtain ⟨live, pt, -, -, hpt, -⟩ := growPage_some (dvd_zero _) (by decide) ha hg
    exact ha ((halMapPage_spec hpt).2.2 (by decide))

/-- `vm_map_cross` fails in the owner, or gets its two blocks. -/
theorem vmMapCross_cases (hm : Toddler.vmMapCross s p r vbase size paddrs = some s') :
    vmAllocAs s r (alignDownPage vbase) (kernelMapSize vbase size) .owner =
      (s', none) ∨
    ∃ s₁ s₂ remote loc,
      vmAllocAs s r (alignDownPage vbase) (kernelMapSize vbase size) .owner =
        (s₁, some remote) ∧
      vmAllocAs s₁ p 0 (kernelMapSize vbase size) .guest = (s₂, some loc) ∧
      paddrs.length = kernelMapSize vbase size / pageSize ∧
      mapCrossLoop p r paddrs (alignDownPage vbase) loc.base
        { s₂ with crosses := ⟨r, remote.id, p, loc.id⟩ :: s₂.crosses } = some s' := by
  simp only [Toddler.vmMapCross, show sub64 (alignUpPage (add64 vbase size)) (alignDownPage vbase) =
    kernelMapSize vbase size from rfl] at hm
  rcases hr : vmAllocAs s r (alignDownPage vbase) (kernelMapSize vbase size) .owner with ⟨s₁, o⟩
  simp only [hr] at hm
  cases o with
  | none =>
    simp only [Option.some.injEq] at hm
    exact .inl (by rw [hm])
  | some remote =>
    rcases hl : vmAllocAs s₁ p 0 (kernelMapSize vbase size) .guest with ⟨s₂, o⟩
    simp only [hl] at hm
    cases o with
    | none => simp at hm
    | some loc =>
      split_ifs at hm with hlen
      exact .inr ⟨s₁, s₂, remote, loc, rfl, hl, hlen, hm⟩

theorem PagesInv.vmMapCross (h : PagesInv c s) (hwrap : vbase + size + (pageSize - 1) < word)
    (h0 : 0 ∉ paddrs) (hm : Toddler.vmMapCross s p r vbase size paddrs = some s') :
    PagesInv c s' := by
  obtain ⟨hsum, hwrap', hdvd⟩ := cross_rounding hwrap
  obtain hr | ⟨s₁, s₂, remote, loc, hr, hl, hlen, hloop⟩ := vmMapCross_cases hm
  · exact (h.vmAllocAs_none hwrap' hr).1
  · by_cases hbase : alignDownPage vbase = 0
    · rw [hbase] at hloop
      obtain ⟨-, rfl⟩ := mapCrossLoop_zero h0 hloop
      have h₁ := (h.vmAllocAs_some hwrap' hr).1
      have h₂ := (h₁.vmAllocAs_some (alignUpPage_noWrap hdvd (by omega)).1 hl).1
      exact ⟨h₂.procs, h₂.single, h₂.unique, h₂.nonzero⟩
    · have hat := h.vmMapCross_at hwrap hr hl hlen hbase
      exact (hat.loop (fun _ _ _ _ _ _ _ _ _ => trivial) paddrs trivial h0 hloop).1

theorem dvd_kernelMapSize (ptr size : ℕ) : pageSize ∣ kernelMapSize ptr size ∧
    kernelMapSize ptr size < word :=
  ⟨dvd_sub64 pageSize_dvd_word (dvd_alignUpPage _) (dvd_alignDownPage _), mod_lt _ (by decide)⟩

theorem pagesInv_step {act : PageAction n} (h : PagesInv c s) (hok : PagesSupplied s act)
    (hs : pageStep c s act = some s') : PagesInv c s' := by
  cases act with
  | loadElf p segs => exact absurd hok id
  | alloc p base size =>
    cases hs
    rcases ha : vmAllocAs s p base size .owner with ⟨s₁, r⟩
    cases r with
    | none => exact (h.vmAllocAs_none hok ha).1
    | some b => exact (h.vmAllocAs_some hok ha).1
  | fault p addr paddr => exact h.vmMap hok hs
  | mapCoreimg p ci size paddr =>
    simp only [pageStep, vmMapCoreimg] at hs
    split_ifs at hs
    · cases hs
      exact h
    · exact h.vmMapGuest (dvd_kernelMapSize ci size).1 (dvd_kernelMapSize ci size).2 hs
  | mapDevtree p dt size paddr =>
    simp only [pageStep, vmMapDevtree] at hs
    split_ifs at hs
    · cases hs
      exact h
    · exact h.vmMapGuest (dvd_kernelMapSize dt size).1 (dvd_kernelMapSize dt size).2 hs
  | mapDev p ppfn size => exact h.vmMapGuest (dvd_alignUpPage size) (alignUpPage_lt size) hs
  | mapKernel p size paddrs => exact h.vmMapKernel hs
  | mapCross p r vbase size paddrs => exact h.vmMapCross hok.1 hok.2 hs
  | free p base =>
    obtain ⟨vm, hvm, rfl⟩ := Option.map_eq_some_iff.mp hs
    exact h.setProc ((h.procs p).moved (vmFree_moved (h.procs p).reuse hvm))
  | purge p =>
    obtain ⟨vm, hvm, rfl⟩ := Option.map_eq_some_iff.mp hs
    exact h.setProc ((h.procs p).moved (vmPurge_moved (h.procs p).reuse hvm))
  | shootdownDone p id =>
    obtain ⟨vm, hvm, rfl⟩ := Option.map_eq_some_iff.mp hs
    exact h.setProc ((h.procs p).moved (vmMoveToSanitUnmapped_moved hvm))
  | cleanerTake p =>
    obtain ⟨u, hu, rfl⟩ := Option.map_eq_some_iff.mp hs
    exact h.setProc (take_inv (h.procs p) hu)
  | cleanerUnmap p =>
    obtain ⟨u, hu, rfl⟩ := Option.map_eq_some_iff.mp hs
    exact h.setProc (unmap_inv (h.procs p) hu)
  | cleanerFree p => exact h.cleanerFree hs
  | cleanerDone p =>
    obtain ⟨u, hu, rfl⟩ := Option.map_eq_some_iff.mp hs
    exact h.setProc (done_inv (h.procs p) hu)

theorem PagesInv.ownership (h : PagesInv c s) : PageOwnership s := by
  intro p
  have hp := h.procs p
  refine ⟨fun a ha => ?_, fun hzero => ?_⟩
  · obtain ⟨k, hk, hka⟩ := Option.bind_eq_some_iff.mp ha
    obtain ⟨r, hr, howner, rfl⟩ := UserPages.mem_own.mp ((hp.cleaner k hk).pending a hka).1
    exact ⟨r, hr, rfl, howner⟩
  · have hblocks : (s.procs p).blocks = [] := by
      have hcount := hp.count
      rw [hzero] at hcount
      exact eq_nil_of_length_eq_zero (by exact_mod_cast hcount.symm)
    -- without blocks there is no cleaner at work, so every page in use is mapped in an owner block
    have hpending : (s.procs p).pending = none := by
      have hcl := (append_eq_nil_iff.mp hblocks).1
      cases hk : (s.procs p).cleaner with
      | none => rw [UserProc.pending, hk]; rfl
      | some k => simp [hk] at hcl
    have hown : s.own p = [] := by
      rw [eq_nil_iff_forall_not_mem]
      intro a ha
      obtain ⟨pg, ⟨-, b, hb, -⟩, -⟩ :=
        hp.owner.surjOn (show a ∈ {a | a ∈ s.own p ∧ a ∉ (s.procs p).pending} from
        ⟨ha, by simp [hpending]⟩)
      simp [hblocks] at hb
    refine ⟨by rw [hp.pages, hown]; rfl, fun r hr howner => ?_⟩
    have : r.paddr ∈ s.own p := UserPages.mem_own.mpr ⟨r, hr, howner, rfl⟩
    simp [hown] at this

theorem pagesInv_of_reach {mem : ℕ → UInt8}
    (h : Reach (pageStep c) PagesSupplied (pagesInit c live mem) s) : PagesInv c s := by
  refine Reach.invariant h (pagesInv_init c live mem) ?_
  intro u act v hu hok hs
  exact pagesInv_step hu hok hs

/-- Pages are returned once, by the process they were obtained for, and all of them. -/
theorem page_ownership (c : PageConfig) (live : List (PageRun n)) (mem : ℕ → UInt8)
    (s : UserPages n) (h : Reach (pageStep c) PagesSupplied (pagesInit c live mem) s) :
    PageOwnership s :=
  (pagesInv_of_reach h).ownership

def sixteenUserPages : PageConfig := ⟨sixteenPages, by decide, by decide⟩

/-- A fault, a kernel mapping and a shared page, all returned by the cleaner. -/
theorem page_ownership_of_a_run :
    ∃ s, execute (pageStep sixteenUserPages) PagesSupplied (pagesInit sixteenUserPages [⟨0x200000,
    4, none⟩] fun _ => 0)
        [.alloc 0 0x14000 0x2000, .fault 0 0x14010 0x100000, .mapKernel 0 0x1000 [0x101000],
          .mapCross 1 0 0x18000 0x1000 [0x102000], .mapDev 1 5 0x1000, .purge 0,
          .cleanerTake 0, .cleanerUnmap 0, .cleanerFree 0, .cleanerDone 0,
          .cleanerTake 0, .cleanerUnmap 0, .cleanerFree 0, .cleanerUnmap 0, .cleanerDone 0,
          .cleanerTake 0, .cleanerUnmap 0, .cleanerFree 0, .cleanerDone 0] = some s ∧
      (s.procs 0).vm.numActiveBlocks = 0 ∧ s.live = [(⟨0x200000, 4, none⟩ : PageRun 2)] ∧
        PageOwnership s := by
  refine exists_execute (P := fun s => (s.procs 0).vm.numActiveBlocks = 0 ∧
    s.live = [⟨0x200000, 4, none⟩]) (by decide +kernel) fun s hs h => ?_
  exact ⟨h.1, h.2, page_ownership _ _ _ s hs⟩

/-- The two pages of a loaded segment are never returned. -/
theorem elf_pages_are_lost : ¬ ∀ (n : ℕ) (c : PageConfig) (live : List (PageRun n)) (mem : ℕ →
    UInt8) (s : UserPages n),
      Reach (pageStep c) anyStep (pagesInit c live mem) s → PageOwnership s := by
  intro h
  obtain ⟨s, hs, hcount, hlive⟩ : ∃ s, Reach (pageStep sixteenUserPages) anyStep
      (pagesInit (n := 1) sixteenUserPages [] fun _ => 0) s ∧ (s.procs 0).vm.numActiveBlocks = 0 ∧
      s.live = [⟨0x100000, 2, some 0⟩] :=
    exists_reach [.loadElf 0 [(⟨1, 0x12000, 0x1800, []⟩, 0x100000)], .purge 0, .cleanerTake 0,
      .cleanerUnmap 0, .cleanerUnmap 0, .cleanerDone 0] (by decide +kernel)
  have hown := (h 1 _ _ _ s hs 0).2 hcount
  exact hown.2 ⟨0x100000, 2, some 0⟩ (by simp [hlive]) rfl

end Toddler
