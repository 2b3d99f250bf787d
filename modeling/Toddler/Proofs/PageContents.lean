import Toddler.Spec.PageContents
import Toddler.Proofs.PageOwnership
import Toddler.Proofs.VmAlloc

/-! No operation that maps a page clears it, so what a process reads in it is what its last user
left there, whenever a page is taken from the allocator at all. -/

namespace Toddler

open Function List Option Nat UserPages

variable {n a v pg : ℕ} {s s' s₀ s₁ : UserPages n} {p r : Fin n}

/-- Runs stay in use and mapped pages stay mapped. -/
structure MapGrows (s s' : UserPages n) : Prop where
  live : s.live ⊆ s'.live
  tr : ∀ p x, translate (s.procs p).pageTable x ≠ 0 →
    translate (s'.procs p).pageTable x = translate (s.procs p).pageTable x

theorem MapGrows.refl (s : UserPages n) : MapGrows s s := ⟨List.Subset.refl _, fun _ _ _ => rfl⟩

theorem MapGrows.trans (h : MapGrows s₀ s) (h' : MapGrows s s') : MapGrows s₀ s' := by
  refine ⟨List.Subset.trans h.live h'.live, fun p x hx => ?_⟩
  have hx' := h.tr p x hx
  rw [h'.tr p x (hx' ▸ hx), hx']

theorem halMapPages_mono (k : ℕ) : ∀ {pt pt' : List Translation} {pg a : ℕ},
    halMapPages pt pg a k = some pt' → ∀ x, translate pt x ≠ 0 →
    translate pt' x = translate pt x := by
  induction k with
  | zero =>
    intro pt pt' pg a h x _
    cases h
    rfl
  | succ k ih =>
    intro pt pt' pg a h x hx
    simp only [halMapPages, bind_eq_bind, bind_eq_some_iff] at h
    obtain ⟨pt₁, h1, h2⟩ := h
    obtain ⟨htr, hold, -⟩ := halMapPage_spec h1
    have hsame : translate pt₁ x = translate pt x := by
      by_cases hxp : x = pg
      · subst hxp
        rw [htr, update_self]
        exact (hold.resolve_left hx).symm
      · rw [htr, update_of_ne hxp]
    rw [ih h2 x (hsame ▸ hx), hsame]

variable {live : List (PageRun n)}

theorem MapGrows.setProc {u : UserProc} (hlive : s.live ⊆ live)
    (htr : ∀ x, translate (s.procs p).pageTable x ≠ 0 →
      translate u.pageTable x = translate (s.procs p).pageTable x) :
    MapGrows s ({ s with live := live }.setProc p u) := by
  refine ⟨hlive, fun q x hx => ?_⟩
  by_cases hq : q = p
  · subst hq
    simpa [UserPages.setProc] using htr x hx
  · simp [UserPages.setProc, hq]

theorem pallocPaddr_subset {live' : List (PageRun n)} {o : Option (Fin n)} {count : ℕ}
    (h : pallocPaddr live o a count = some live') : live ⊆ live' := by
  by_cases ha : a = 0
  · simp only [pallocPaddr, ha, if_pos, some.injEq] at h
    rw [h]
    exact List.Subset.refl _
  · rw [(pallocPaddr_some h ha).1]
    exact subset_cons_self _ _

theorem growPage_grows (h : growPage s p v a = some s') : MapGrows s s' := by
  simp only [growPage, bind_eq_bind, bind_eq_some_iff, some.injEq] at h
  obtain ⟨live, hlive, pt, hpt, rfl⟩ := h
  exact MapGrows.setProc (pallocPaddr_subset hlive) (halMapPages_mono _ hpt)

/-- The page `a` was free in `s`; in `s'` it is in use and mapped by `p`. -/
structure Granted (s s' : UserPages n) (p : Fin n) (pg a : ℕ) : Prop where
  free : FreePage s a
  inUse : ∃ r ∈ s'.live, r.paddr = a ∧ r.count = 1
  mapped : translate (s'.procs p).pageTable pg = a

theorem Granted.mono {t t' : UserPages n} (h : Granted s s' p pg a) (hl : MapGrows t s)
    (hr : MapGrows s' t') : Granted t t' p pg a := by
  obtain ⟨⟨ha, hdvd, hfree⟩, ⟨r, hin, hrest⟩, hm⟩ := h
  refine ⟨⟨ha, hdvd, fun r hr => hfree r (hl.live hr)⟩, ⟨r, hr.live hin, hrest⟩, ?_⟩
  rw [hr.tr p pg (hm ▸ ha), hm]

theorem Granted.not_free (h : Granted s s' p pg a) : ¬ FreePage s' a := by
  rintro ⟨-, -, hfree⟩
  obtain ⟨r, hin, rfl, hone⟩ := h.inUse
  have hpos : 0 < pageSize := by decide
  rcases hfree r hin with hle | hle
  · omega
  · rw [PageRun.fin, hone] at hle
    omega

theorem freePage_of_palloc (h : pallocPaddr s.live (some p) a 1 = some live)
    (ha : a ≠ 0) : FreePage s a ∧ ∃ r ∈ live, r.paddr = a ∧ r.count = 1 := by
  obtain ⟨rfl, hdvd, hfree⟩ := pallocPaddr_some h ha
  exact ⟨⟨ha, hdvd, by simpa using hfree⟩, _, mem_cons_self, rfl, rfl⟩

theorem growPage_granted (hv : pageSize ∣ v) (hlt : v + pageSize < word) (ha : a ≠ 0)
    (h : growPage s p v a = some s') : Granted s s' p (v / pageSize) a := by
  obtain ⟨live, pt, hlive, -, hpt, rfl⟩ := growPage_some hv hlt ha h
  obtain ⟨hfree, hin⟩ := freePage_of_palloc hlive ha
  refine ⟨hfree, hin, ?_⟩
  simp [setProc, (halMapPage_spec hpt).1]

theorem vmMap_granted (hfit : BlocksFit s) {addr : ℕ} (hm : vmMap s p addr a = some s')
    (hno : ¬ TakesNoPage s (.fault p addr a)) : ∃ p pg a, Granted s s' p pg a := by
  simp only [TakesNoPage, not_or, not_forall] at hno
  obtain ⟨ha, d, hd, hin⟩ := hno
  unfold vmMap at hm
  cases hf : (s.procs p).vm.inuseMapped.find? fun b =>
    b.base ≤ addr && addr < add64 b.base b.size with
  | none => exact absurd (find?_eq_none.mp hf d hd) (by simpa using hin)
  | some b =>
    simp only [hf, bind_eq_bind, bind_eq_some_iff] at hm
    obtain ⟨s₁, hg, hm⟩ := hm
    split_ifs at hm
    cases hm
    have hb := mem_of_find?_eq_some hf
    obtain ⟨⟨i, hi⟩, ⟨j, hj⟩⟩ := hfit.inuse p b hb
    have haddr : b.base ≤ addr ∧ addr < add64 b.base b.size := by
      simpa using find?_some hf
    have hlt : alignDownPage addr + pageSize < word := by
      have hdvd : pageSize ∣ add64 b.base b.size :=
        dvd_add64 pageSize_dvd_word (Dvd.intro i hi.symm) (Dvd.intro j hj.symm)
      have hmod : add64 b.base b.size < word := mod_lt _ (by decide)
      simp only [alignDownPage, pageSize] at *
      omega
    refine ⟨p, _, a, (growPage_granted (dvd_alignDownPage addr) hlt ha hg).mono (MapGrows.refl _) ?_⟩
    refine MapGrows.setProc (List.Subset.refl _) fun x _ => rfl

theorem mapKernelLoop_grows (paddrs : List ℕ) : ∀ {s : UserPages n} {v : ℕ},
    mapKernelLoop p paddrs v s = some s' → MapGrows s s' := by
  induction paddrs with
  | nil =>
    intro s v h
    cases h
    exact MapGrows.refl _
  | cons a rest ih =>
    intro s v h
    rw [mapKernelLoop] at h
    split_ifs at h
    obtain ⟨s₁, hg, h⟩ := bind_eq_some_iff.mp h
    exact (growPage_grows hg).trans (ih h)

variable {t : VmMapType} {b : VmBlock}

/-- The block that `vm_alloc` cuts for a caller that lets it choose the address. -/
theorem vmAllocAs_anywhere {mapSize : ℕ} (hdvd : pageSize ∣ mapSize)
    (hlt : mapSize < word) (h : vmAllocAs s p 0 mapSize t = (s', some b)) :
    ∃ d ∈ (s.procs p).vm.availUnmapped, b.base = d.base ∧ mapSize ≤ d.size := by
  unfold vmAllocAs at h
  cases htgt : allocTarget (s.procs p).vm 0 mapSize with
  | none => simp [vmAlloc_none htgt] at h
  | some d =>
    obtain ⟨vm, pre, post, heq, havail, hfits, -⟩ := vmAlloc_some htgt
    simp only [heq] at h
    obtain ⟨-, rfl⟩ := h
    have hround := (alignUpPage_noWrap hdvd hlt).2
    have hzero : alignDownPage 0 = 0 := by simp [alignDownPage]
    refine ⟨d, by simp [havail], by simp [allocBlock, hzero], ?_⟩
    have hsub : sub64 mapSize 0 = mapSize := by simpa using sub64_of_le (zero_le _) hlt
    simpa [allocFits, hzero, hround, hsub] using hfits

variable {base size : ℕ} {o : Option VmBlock}

theorem vmAllocAs_grows (h : vmAllocAs s p base size t = (s', o)) : MapGrows s s' := by
  unfold vmAllocAs at h
  rcases hr : vmAlloc (s.procs p).vm base size with ⟨vm, r⟩
  cases r with
  | none =>
    simp only [hr] at h
    obtain ⟨rfl, -⟩ := h
    exact MapGrows.setProc (List.Subset.refl _) fun x _ => rfl
  | some b =>
    simp only [hr] at h
    obtain ⟨rfl, -⟩ := h
    exact MapGrows.setProc (List.Subset.refl _) fun x _ => rfl

theorem vmMapKernel_granted (hfit : BlocksFit s) {paddrs : List ℕ}
    (hm : vmMapKernel s p size paddrs = some s')
    (hno : ¬ TakesNoPage s (.mapKernel p size paddrs)) : ∃ p pg a, Granted s s' p pg a := by
  simp only [TakesNoPage, not_or] at hno
  obtain ⟨hsize, htgt⟩ := hno
  unfold vmMapKernel at hm
  rcases ha : vmAllocAs s p 0 (alignUpPage size) .owner with ⟨s₁, o⟩
  simp only [ha] at hm
  cases o with
  | none =>
    obtain ⟨d, hd⟩ := ne_none_iff_exists'.mp htgt
    obtain ⟨vm, -, -, heq, -⟩ := vmAlloc_some hd
    simp [vmAllocAs, heq] at ha
  | some b =>
    simp only at hm
    split_ifs at hm with hlen
    obtain ⟨d, hd, hbase, hle⟩ := vmAllocAs_anywhere (dvd_alignUpPage size) (alignUpPage_lt size) ha
    obtain ⟨hdvd, -, hend⟩ := hfit.avail p d hd
    have hpage : pageSize ≤ alignUpPage size :=
      Nat.le_of_dvd (Nat.pos_of_ne_zero hsize) (dvd_alignUpPage size)
    cases paddrs with
    | nil =>
      rw [length_nil, eq_comm, Nat.div_eq_zero_iff] at hlen
      have : 0 < pageSize := by decide
      omega
    | cons a rest =>
      rw [mapKernelLoop] at hm
      split_ifs at hm with h0
      obtain ⟨s₂, hg, hm⟩ := bind_eq_some_iff.mp hm
      have hgrant := growPage_granted (hbase ▸
        hdvd) (by rw [hbase]; simp only [VmBlock.fin] at hend; omega) h0 hg
      exact ⟨p, _, a, hgrant.mono (vmAllocAs_grows ha) (mapKernelLoop_grows rest hm)⟩

/-- What is left of an available block ends below `word`, also when the request wraps. -/
theorem allocCarve_fits {fin extraId : ℕ} {t : VmBlock} (ht : t.Aligned ∧ t.fin < word)
    (hbase : base < word) (hfin : fin < word) (hb : pageSize ∣ base) (hf : pageSize ∣ fin)
    (hfits : allocFits base fin (sub64 fin base) t = true) :
    ∀ d ∈ allocCarve base fin (sub64 fin base) extraId t, d.Aligned ∧ d.fin < word := by
  obtain ⟨hal, hend⟩ := ht
  have hpiece : ∀ d ∈ allocCarve base fin (sub64 fin base) extraId t, d.Aligned :=
    allocCarve_aligned hb hf (dvd_sub64 pageSize_dvd_word hf hb) hal
  intro d hd
  refine ⟨hpiece d hd, ?_⟩
  have htEnd : add64 t.base t.size = t.fin := add64_of_lt hend
  unfold allocFits at hfits
  unfold allocCarve at hd
  simp only [htEnd] at hfits hd
  have htfin : t.fin = t.base + t.size := rfl
  -- the size of the request, also when its end has wrapped
  have hsize : (base ≤ fin ∧ sub64 fin base = fin - base) ∨
      (fin < base ∧ sub64 fin base = word - (base - fin)) := by
    rcases lt_or_ge fin base with hlt | hle
    · exact .inr ⟨hlt, sub64_of_gt hlt hbase⟩
    · exact .inl ⟨hle, sub64_of_le hle hfin⟩
  have hlt : sub64 fin base < word := mod_lt _ (by decide)
  have hrest : sub64 t.size (sub64 fin base) = t.size - sub64 fin base ∨
      (t.size < sub64 fin base ∧ sub64 t.size (sub64 fin base) = word - (sub64 fin base - t.size)) := by
    rcases lt_or_ge t.size (sub64 fin base) with h | h
    · exact .inr ⟨h, sub64_of_gt h hlt⟩
    · exact .inl (sub64_of_le h (by omega))
  have hfront := add64_cases (show t.base < word by omega) hlt
  by_cases h0 : base ≠ 0
  · rw [if_pos h0] at hfits
    simp only [Bool.and_eq_true, decide_eq_true_eq] at hfits
    split_ifs at hd
    · simp at hd
    · rw [mem_singleton.mp hd]
      change add64 t.base (sub64 fin base) + sub64 t.size (sub64 fin base) < word
      omega
    · rw [mem_singleton.mp hd]
      change t.base + sub64 t.size (sub64 fin base) < word
      omega
    · have h1 := sub64_of_le hfits.1 hbase
      have h2 := sub64_of_le hfits.2 hend
      rcases mem_pair.mp hd with rfl | rfl
      · change t.base + sub64 base t.base < word
        omega
      · change fin + sub64 t.fin fin < word
        omega
  · rw [if_neg h0] at hfits
    simp only [decide_eq_true_eq] at hfits
    split_ifs at hd
    · simp at hd
    · rw [mem_singleton.mp hd]
      change add64 t.base (sub64 fin base) + sub64 t.size (sub64 fin base) < word
      omega

/-- The available blocks after `vm_alloc`, whatever was asked for. -/
theorem vmAlloc_fits {vm : Vm} (hbase : base < word)
    (h : ∀ b ∈ vm.availUnmapped, b.Aligned ∧ b.fin < word) :
    ∀ b ∈ (vmAlloc vm base size).1.availUnmapped, b.Aligned ∧ b.fin < word := by
  cases htgt : allocTarget vm base size with
  | none =>
    rw [vmAlloc_none htgt]
    exact h
  | some t =>
    obtain ⟨vm', pre, post, heq, havail, hfits, havail'⟩ := vmAlloc_some htgt
    rw [heq]
    intro d hd
    rw [havail'] at hd
    rcases mem_append.mp hd with hd | hd
    · rcases mem_append.mp hd with hd | hd
      · exact h d (by simp [havail, hd])
      · exact allocCarve_fits (h t (by simp [havail])) ((div_mul_le_self _ _).trans_lt hbase)
          (alignUpPage_lt _) (dvd_alignDownPage _) (dvd_alignUpPage _) hfits d hd
    · exact h d (by simp [havail, hd])

theorem vmAllocAs_avail (h : vmAllocAs s r base size t = (s', o)) (q : Fin n) :
    (s'.procs q).vm.availUnmapped =
      if q = r then (vmAlloc (s.procs r).vm base size).1.availUnmapped
      else (s.procs q).vm.availUnmapped := by
  unfold vmAllocAs at h
  rcases hr : vmAlloc (s.procs r).vm base size with ⟨vm, b⟩
  have hset : ∀ u : UserProc, u.vm.availUnmapped = vm.availUnmapped →
    ((s.setProc r u).procs q).vm.availUnmapped =
        if q = r then vm.availUnmapped else (s.procs q).vm.availUnmapped := by
    intro u hu
    by_cases hq : q = r
    · subst hq
      simpa [setProc] using hu
    · simp [setProc, hq]
  cases b with
  | none =>
    simp only [hr] at h
    obtain ⟨rfl, -⟩ := h
    exact hset _ rfl
  | some b =>
    simp only [hr] at h
    obtain ⟨rfl, -⟩ := h
    exact hset _ rfl

theorem mapCrossLoop_granted (paddrs : List ℕ) : ∀ {s : UserPages n} {rv lv : ℕ}, pageSize ∣ lv →
    lv + paddrs.length * pageSize < word → mapCrossLoop p r paddrs rv lv s = some s' →
    MapGrows s s' ∧ ∀ a ∈ paddrs, a ≠ 0 → ∃ pg, Granted s s' p pg a := by
  induction paddrs with
  | nil =>
    intro s rv lv _ _ h
    cases h
    exact ⟨MapGrows.refl _, by simp⟩
  | cons a rest ih =>
    intro s rv lv hdvd hlt h
    simp only [mapCrossLoop, bind_eq_bind, bind_eq_some_iff] at h
    obtain ⟨s₁, hg, pt, hpt, h⟩ := h
    rw [length_cons, succ_mul] at hlt
    rw [add64_of_lt (show lv + pageSize < word by omega)] at h
    have hgrow := growPage_grows hg
    have hlocal : MapGrows s₁ (s₁.setProc p { s₁.procs p with pageTable := pt }) :=
      MapGrows.setProc (List.Subset.refl _) (halMapPages_mono _ hpt)
    obtain ⟨hrest, hgrant⟩ := ih (dvd_add hdvd dvd_rfl) (by omega) h
    refine ⟨(hgrow.trans hlocal).trans hrest, fun x hx hx0 => ?_⟩
    rcases mem_cons.mp hx with rfl | hx
    · simp only [growPage, bind_eq_bind, bind_eq_some_iff, some.injEq] at hg
      obtain ⟨live, hlive, pt₁, -, rfl⟩ := hg
      obtain ⟨hfree, hin⟩ := freePage_of_palloc hlive hx0
      rw [halMapRange_page hdvd hfree.2.1 (by omega)] at hpt
      refine ⟨lv / pageSize, Granted.mono ⟨hfree, hin, ?_⟩ (MapGrows.refl _) hrest⟩
      simp [setProc, (halMapPage_spec hpt).1]
    · obtain ⟨pg, hpg⟩ := hgrant x hx hx0
      exact ⟨pg, hpg.mono (hgrow.trans hlocal) (MapGrows.refl _)⟩

theorem vmMapCross_granted (hfit : BlocksFit s) {vbase : ℕ} {paddrs : List ℕ} (hword : vbase < word)
    (hm : vmMapCross s p r vbase size paddrs = some s')
    (hno : ¬ TakesNoPage s (.mapCross p r vbase size paddrs)) : ∃ p pg a, Granted s s' p pg a := by
  simp only [TakesNoPage, not_or, not_forall] at hno
  obtain ⟨⟨a, ha, ha0⟩, htgt⟩ := hno
  obtain ⟨hdvd, hlt⟩ := dvd_kernelMapSize vbase size
  obtain hr | ⟨s₁, s₂, remote, loc, hr, hl, hlen, hloop⟩ := vmMapCross_cases hm
  · obtain ⟨d, hd⟩ := ne_none_iff_exists'.mp htgt
    obtain ⟨vm, -, -, heq, -⟩ := vmAlloc_some hd
    change vmAlloc _ _ (kernelMapSize vbase size) = _ at heq
    simp [vmAllocAs, heq] at hr
  · obtain ⟨d, hd, hbase, hle⟩ := vmAllocAs_anywhere hdvd hlt hl
    -- the guest's available blocks are those of before, or what the owner's block left of them
    have hd' : d.Aligned ∧ d.fin < word := by
      have havail : ∀ q, ∀ b ∈ (s.procs q).vm.availUnmapped, b.Aligned ∧ b.fin < word := by
        intro q b hb
        obtain ⟨h1, h2, h3⟩ := hfit.avail q b hb
        exact ⟨⟨h1, h2⟩, by omega⟩
      rw [vmAllocAs_avail hr p] at hd
      split_ifs at hd
      · exact vmAlloc_fits ((div_mul_le_self vbase pageSize).trans_lt hword) (havail r) d hd
      · exact havail p d hd
    rw [hbase] at hloop
    obtain ⟨-, hgrant⟩ := mapCrossLoop_granted paddrs hd'.1.1 (by
      rw [hlen, Nat.div_mul_cancel hdvd]
      have := hd'.2
      rw [VmBlock.fin] at this
      omega) hloop
    obtain ⟨pg, hpg⟩ := hgrant a ha ha0
    have hgrow := (vmAllocAs_grows hr).trans (vmAllocAs_grows hl)
    exact ⟨p, pg, a, hpg.mono ⟨hgrow.live, hgrow.tr⟩ (MapGrows.refl _)⟩

theorem vmAllocThread_fresh {vm vm' : Vm} {blockSize : ℕ} (hreuse : vm.reuseMapped = [])
    (h : vmAllocThread vm blockSize = some (vm', some b)) :
    ∃ d ∈ vm.availUnmapped, blockSize ≤ d.size ∧ b.base = add64 d.base (d.size - blockSize) ∧
      b.base ≠ 0 := by
  have hlast : vm.reuseMapped.getLast? = none := by simp [hreuse]
  unfold vmAllocThread at h
  rw [hlast] at h
  cases hl : vm.availUnmapped.getLast? with
  | none => simp [hl] at h
  | some d =>
    simp only [hl] at h
    by_cases hsmall : d.size < blockSize
    · simp [if_pos hsmall] at h
    rw [if_neg hsmall] at h
    by_cases hbase : add64 d.base (d.size - blockSize) ≠ 0
    · rw [if_pos hbase] at h
      obtain ⟨-, rfl⟩ := h
      exact ⟨d, mem_of_getLast? hl, by omega, rfl, hbase⟩
    · rw [if_neg hbase] at h
      simp at h

theorem threadSize_dvd (size : ℕ) : pageSize ∣ threadSize size := by
  unfold threadSize
  split_ifs
  · exact dvd_mul_left _ _
  · exact dvd_alignUpPage size

/-- The two pages of a thread block are mapped at its start and at the top of its stack. -/
theorem threadBlockMapper_granted {stackTop tls stack : ℕ} (hb : pageSize ∣ base) (hbase : base ≠ 0)
    (htop : pageSize ∣ stackTop) (hend : base + stackTop + pageSize < word)
    (hm : threadBlockMapper s p base stackTop tls stack = some s') (hsome : ¬ (tls = 0 ∧ stack = 0)) :
    ∃ p pg a, Granted s s' p pg a ∧ (a = tls ∨ a = stack) := by
  simp only [threadBlockMapper, bind_eq_bind, bind_eq_some_iff, some.injEq] at hm
  obtain ⟨live₁, hlive₁, live₂, hlive₂, pt₁, hpt₁, pt₂, hpt₂, rfl⟩ := hm
  have hpos : pageSize ≤ base := le_of_dvd (pos_of_ne_zero hbase) hb
  have htopaddr : sub64 (add64 base stackTop) pageSize = base + stackTop - pageSize := by
    rw [add64_of_lt (by omega), sub64_of_le (by omega) (by omega)]
  have hsub₁ := pallocPaddr_subset hlive₁
  have hsub₂ := pallocPaddr_subset hlive₂
  by_cases htls : tls = 0
  · have hstack : stack ≠ 0 := fun h => hsome ⟨htls, h⟩
    obtain ⟨hfree, hin⟩ := freePage_of_palloc (s := { s with live := live₁ }) hlive₂ hstack
    rw [htopaddr, halMapRange_page (dvd_sub (dvd_add hb htop) dvd_rfl) hfree.2.1 (by omega)] at hpt₂
    refine ⟨p, (base + stackTop - pageSize) / pageSize, stack, ⟨⟨hfree.1, hfree.2.1, fun r hr =>
      hfree.2.2 r (hsub₁ hr)⟩, hin, ?_⟩, .inr rfl⟩
    simp only [setProc, update_self]
    rw [(halMapPage_spec hpt₂).1, update_self]
  · obtain ⟨hfree, r, hr, hrest⟩ := freePage_of_palloc hlive₁ htls
    rw [halMapRange_page hb hfree.2.1 (by omega)] at hpt₁
    have hval : translate pt₁ (base / pageSize) = tls := by
      rw [(halMapPage_spec hpt₁).1, update_self]
    refine ⟨p, base / pageSize, tls, ⟨hfree, ⟨r, hsub₂ hr, hrest⟩, ?_⟩, .inl rfl⟩
    simp only [setProc, update_self]
    rw [halMapPages_mono _ hpt₂ _ (hval ▸ htls), hval]

theorem memcpy_outside {mem : ℕ → UInt8} {q : ℕ} {data : List UInt8}
    (h : a < q ∨ q + data.length ≤ a) : memcpy mem q data a = mem a := by
  unfold memcpy
  split_ifs with hle
  · rw [getElem?_eq_none (by omega)]
    rfl
  · rfl

/-- Nothing is written at the start of a page. -/
theorem writeThread_page (mem : ℕ → UInt8) (t : ThreadRequest) {tls stack : ℕ}
    (htls : pageSize ∣ tls) (hstack : pageSize ∣ stack) (ha : pageSize ∣ a) :
    writeThread mem t tls stack a = mem a := by
  obtain ⟨i, rfl⟩ := htls
  obtain ⟨j, rfl⟩ := hstack
  obtain ⟨k, rfl⟩ := ha
  have htib : (t.tib.take tibSize).length ≤ 56 := length_take_le _ _
  have hparam : (t.param.take 8).length ≤ 8 := length_take_le _ _
  unfold writeThread
  simp only [pageSize, maxMsgSize]
  rw [memcpy_outside (by omega), memcpy_outside (by omega), memzero, if_neg]
  simp only [tibSize]
  omega

section Mem

variable (m : ℕ → UInt8)

theorem growPage_mem : growPage { s with mem := m } p v a = (growPage s p v a).map fun t =>
    { t with mem := m } := by
  unfold growPage
  cases pallocPaddr s.live (some p) a 1 with
  | none => rfl
  | some live => cases halMapRange (s.procs p).pageTable v a pageSize <;> rfl

theorem vmMap_mem (s : UserPages n) (p : Fin n) (addr a : ℕ) :
    vmMap { s with mem := m } p addr a = (vmMap s p addr a).map fun t => { t with mem := m } := by
  unfold vmMap
  simp only [growPage_mem]
  cases (s.procs p).vm.inuseMapped.find? fun b => b.base ≤ addr && addr < add64 b.base b.size with
  | none => rfl
  | some b =>
    cases growPage s p (alignDownPage addr) a with
    | none => rfl
    | some t =>
      by_cases hg : b.mapType = .guest
      · simp [hg]
      · simp [hg, setProc]

theorem mapKernelLoop_mem (paddrs : List ℕ) : ∀ (v : ℕ) (s : UserPages n),
    mapKernelLoop p paddrs v { s with mem := m } = (mapKernelLoop p paddrs v s).map fun t =>
    { t with mem := m } := by
  induction paddrs with
  | nil => exact fun _ _ => rfl
  | cons a rest ih =>
    intro v s
    simp only [mapKernelLoop, growPage_mem]
    by_cases ha : a = 0
    · simp [ha]
    · simp only [if_neg ha]
      cases growPage s p v a with
      | none => rfl
      | some t => exact ih _ t

theorem vmAllocAs_mem : vmAllocAs { s with mem := m } p base size t =
      ({ (vmAllocAs s p base size t).1 with mem := m }, (vmAllocAs s p base size t).2) := by
  unfold vmAllocAs
  rcases vmAlloc (s.procs p).vm base size with ⟨vm, b⟩
  cases b <;> rfl

theorem vmMapKernel_mem (s : UserPages n) (p : Fin n) (size : ℕ) (paddrs : List ℕ) :
    vmMapKernel { s with mem := m } p size paddrs = (vmMapKernel s p size paddrs).map fun t =>
    { t with mem := m } := by
  unfold vmMapKernel
  simp only [vmAllocAs_mem]
  rcases vmAllocAs s p 0 (alignUpPage size) .owner with ⟨s₁, b⟩
  cases b with
  | none => rfl
  | some b =>
    by_cases hlen : paddrs.length = alignUpPage size / pageSize
    · simp only [if_pos hlen, mapKernelLoop_mem]
    · simp [if_neg hlen]

theorem mapCrossLoop_mem (p r : Fin n) (paddrs : List ℕ) : ∀ (rv lv : ℕ) (s : UserPages n),
    mapCrossLoop p r paddrs rv lv { s with mem := m } =
      (mapCrossLoop p r paddrs rv lv s).map fun t => { t with mem := m } := by
  induction paddrs with
  | nil => exact fun _ _ _ => rfl
  | cons a rest ih =>
    intro rv lv s
    simp only [mapCrossLoop, growPage_mem]
    cases growPage s r rv a with
    | none => rfl
    | some t =>
      simp only [map_some, bind_eq_bind, bind_some]
      cases halMapRange (t.procs p).pageTable lv a pageSize with
      | none => rfl
      | some pt => exact ih _ _ (t.setProc p { t.procs p with pageTable := pt })

theorem vmMapCross_mem (s : UserPages n) (p r : Fin n) (vbase size : ℕ) (paddrs : List ℕ) :
    vmMapCross { s with mem := m } p r vbase size paddrs =
      (vmMapCross s p r vbase size paddrs).map fun t => { t with mem := m } := by
  unfold vmMapCross
  simp only [vmAllocAs_mem]
  rcases vmAllocAs s r (alignDownPage vbase) (sub64 (alignUpPage (add64 vbase size))
    (alignDownPage vbase)) .owner with ⟨s₁, remote⟩
  cases remote with
  | none => rfl
  | some remote =>
    simp only [vmAllocAs_mem]
    rcases vmAllocAs s₁ p 0 (sub64 (alignUpPage (add64 vbase size)) (alignDownPage vbase))
      .guest with ⟨s₂, loc⟩
    cases loc with
    | none => rfl
    | some loc =>
      by_cases hlen : paddrs.length = sub64 (alignUpPage (add64 vbase size)) (alignDownPage vbase) /
        pageSize
      · simp only [if_pos hlen]
        exact mapCrossLoop_mem m p r paddrs _ _
          { s₂ with crosses := ⟨r, remote.id, p, loc.id⟩ :: s₂.crosses }
      · simp [if_neg hlen]

theorem threadBlockMapper_mem (s : UserPages n) (p : Fin n) (base top tls stack : ℕ) :
    threadBlockMapper { s with mem := m } p base top tls stack =
      (threadBlockMapper s p base top tls stack).map fun t => { t with mem := m } := by
  unfold threadBlockMapper
  cases pallocPaddr s.live (some p) tls 1 with
  | none => rfl
  | some live₁ =>
    simp only [bind_eq_bind, bind_some]
    cases pallocPaddr live₁ (some p) stack 1 with
    | none => rfl
    | some live₂ =>
      simp only [bind_some]
      cases halMapRange (s.procs p).pageTable base tls pageSize with
      | none => rfl
      | some pt₁ =>
        rw [bind_some, bind_some]
        cases halMapRange pt₁ (sub64 (add64 base top) pageSize) stack pageSize <;> rfl

end Mem

variable {op : MapOp n}

/-- A page that is taken and not overwritten at its start shows what it held. -/
theorem Granted.reads_differ {w : (ℕ → UInt8) → ℕ → UInt8} (h : Granted s s' p pg a)
    (hs : mapOp s op = some s') (hw : ∀ m, mapOp { s with mem := m } op =
    some { s' with mem := w m }) (hwa : ∀ m, w m a = m a) : ¬ ReadsTheSame s op := by
  intro hsame
  have hmem : s'.mem = w s.mem := by
    have hself := hw s.mem
    rw [hs] at hself
    exact congrArg mem (some.inj hself)
  have hne : (if s.mem a = 0 then 1 else 0) ≠ s.mem a := by
    split_ifs with h0
    · rw [h0]
      decide
    · exact Ne.symm h0
  have hdiff : DiffersOnFree s (update s.mem a (if s.mem a = 0 then 1 else 0)) := by
    intro x hx
    by_cases hxa : x = a
    · rw [hxa, alignDownPage_of_dvd h.free.2.1]
      exact h.free
    · exact absurd (update_of_ne hxa ..) hx
  have hfree : FreePage s (translate (s'.procs p).pageTable pg) := by
    rw [h.mapped]
    exact h.free
  have hnot : ¬ FreePage s' (translate (s'.procs p).pageTable pg) := by
    rw [h.mapped]
    exact h.not_free
  have hread := hsame _ hdiff s' _ hs (hw _) p pg hfree hnot 0 (by decide)
  simp only [h.mapped, add_zero, hmem, hwa, update_self] at hread
  exact hne hread.symm

theorem createUserThread_cases {t : ThreadRequest} (h : createUserThread s p t = some s') :
    ∃ vm b, vmAllocThread (s.procs p).vm t.blockSize = some (vm, some b) ∧
      (((s.procs p).vm.reuseMapped ≠ [] ∧ s'.live = s.live) ∨ ((s.procs p).vm.reuseMapped = [] ∧ ∃ s₁,
          threadBlockMapper (s.setProc p { s.procs p with vm := vm }) p b.base t.blockSize
          t.tlsPaddr t.stackPaddr =
            some s₁ ∧ s' = { s₁ with mem := writeThread s₁.mem t t.tlsPaddr t.stackPaddr })) := by
  unfold createUserThread at h
  cases hv : vmAllocThread (s.procs p).vm t.blockSize with
  | none => simp [hv] at h
  | some r =>
    obtain ⟨vm, b⟩ := r
    cases b with
    | none => simp [hv] at h
    | some b =>
      simp only [hv] at h
      refine ⟨vm, b, rfl, ?_⟩
      by_cases hreuse : (s.procs p).vm.reuseMapped ≠ []
      · rw [if_pos hreuse] at h
        cases h
        exact .inl ⟨hreuse, rfl⟩
      · rw [if_neg hreuse] at h
        obtain ⟨s₁, hm, h⟩ := bind_eq_some_iff.mp h
        cases h
        exact .inr ⟨not_not.mp hreuse, s₁, hm, rfl⟩

theorem createUserThread_differ (hfit : BlocksFit s) {t : ThreadRequest}
    (hs : createUserThread s p t = some s')
    (hno : ¬ TakesNoPage s (.thread p t)) : ¬ ReadsTheSame s (.thread p t) := by
  simp only [TakesNoPage, not_or, not_not] at hno
  obtain ⟨hreuse, hsome⟩ := hno
  obtain ⟨vm, b, hv, ⟨hne, -⟩ | ⟨-, s₁, hm, rfl⟩⟩ := createUserThread_cases hs
  · exact absurd hreuse hne
  obtain ⟨d, hd, hle, hbase, hb0⟩ := vmAllocThread_fresh hreuse hv
  obtain ⟨h1, h2, h3⟩ := hfit.avail p d hd
  have hsize : pageSize ∣ t.blockSize :=
    dvd_add64 pageSize_dvd_word (threadSize_dvd _) (threadSize_dvd _)
  rw [VmBlock.fin] at h3
  rw [add64_of_lt (by omega)] at hbase
  have hbdvd : pageSize ∣ b.base := hbase ▸ dvd_add h1 (dvd_sub h2 hsize)
  obtain ⟨q, pg, a, hgrant, -⟩ := threadBlockMapper_granted hbdvd hb0 hsize (by omega) hm hsome
  have hbefore : MapGrows s (s.setProc p { s.procs p with vm := vm }) :=
    MapGrows.setProc (List.Subset.refl _) fun x _ => rfl
  have hg := hgrant.mono hbefore (MapGrows.refl s₁)
  have hdvd : pageSize ∣ t.tlsPaddr ∧ pageSize ∣ t.stackPaddr := by
    simp only [threadBlockMapper, bind_eq_bind, bind_eq_some_iff] at hm
    obtain ⟨live₁, hlive₁, live₂, hlive₂, -⟩ := hm
    refine ⟨?_, ?_⟩
    · by_cases h0 : t.tlsPaddr = 0
      · simp [h0]
      · exact (pallocPaddr_some hlive₁ h0).2.1
    · by_cases h0 : t.stackPaddr = 0
      · simp [h0]
      · exact (pallocPaddr_some hlive₂ h0).2.1
  have hg' : Granted s { s₁ with mem := writeThread s₁.mem t t.tlsPaddr t.stackPaddr } q pg a :=
    ⟨hg.free, hg.inUse, hg.mapped⟩
  refine hg'.reads_differ (w := fun m => writeThread m t t.tlsPaddr t.stackPaddr) hs (fun m => ?_)
    fun m => ?_
  · have hmapper := threadBlockMapper_mem m (s.setProc p { s.procs p with vm := vm }) p b.base
      t.blockSize t.tlsPaddr t.stackPaddr
    rw [hm] at hmapper
    change createUserThread { s with mem := m } p t = _
    unfold createUserThread
    simp only [hv, if_neg (not_not.mpr hreuse)]
    change (threadBlockMapper { s.setProc p { s.procs p with vm := vm } with mem := m } p b.base
      t.blockSize t.tlsPaddr t.stackPaddr).bind _ = _
    rw [hmapper]
    rfl
  · exact writeThread_page m t hdvd.1 hdvd.2 hg.free.2.1

theorem growPage_zero (h : growPage s p v 0 = some s') : s'.live = s.live := by
  simp only [growPage, pallocPaddr, if_pos, bind_eq_bind, bind_some, bind_eq_some_iff,
    some.injEq] at h
  obtain ⟨pt, -, rfl⟩ := h
  rfl

theorem mapCrossLoop_zeros (paddrs : List ℕ) :
    ∀ {s : UserPages n} {rv lv : ℕ}, (∀ a ∈ paddrs, a = 0) →
    mapCrossLoop p r paddrs rv lv s = some s' → s'.live = s.live := by
  induction paddrs with
  | nil =>
    intro s rv lv _ h
    cases h
    rfl
  | cons a rest ih =>
    intro s rv lv h0 h
    simp only [mapCrossLoop, bind_eq_bind, bind_eq_some_iff] at h
    obtain ⟨s₁, hg, pt, -, h⟩ := h
    rw [h0 a mem_cons_self] at hg
    have hlive : s₁.live = s.live := growPage_zero hg
    exact (ih (fun x hx => h0 x (mem_cons_of_mem _ hx)) h).trans hlive

theorem vmAllocAs_live (h : vmAllocAs s p base size t = (s', o)) : s'.live = s.live := by
  unfold vmAllocAs at h
  rcases hr : vmAlloc (s.procs p).vm base size with ⟨vm, b⟩
  cases b with
  | none =>
    simp only [hr] at h
    obtain ⟨rfl, -⟩ := h
    rfl
  | some b =>
    simp only [hr] at h
    obtain ⟨rfl, -⟩ := h
    rfl

theorem vmAllocAs_target_none
    (hno : allocTarget (s.procs p).vm base size = none)
    (h : vmAllocAs s p base size t = (s', some b)) : False := by
  simp [vmAllocAs, vmAlloc_none hno] at h

theorem live_of_takesNoPage (hs : mapOp s op = some s') (h : TakesNoPage s op) :
    s'.live = s.live := by
  cases op with
  | fault p addr a =>
    simp only [mapOp, vmMap] at hs
    rcases h with rfl | hout
    · cases hf : (s.procs p).vm.inuseMapped.find? fun b =>
        b.base ≤ addr && addr < add64 b.base b.size with
      | none =>
        simp only [hf, some.injEq] at hs
        rw [hs]
      | some b =>
        simp only [hf, bind_eq_bind, bind_eq_some_iff] at hs
        obtain ⟨s₁, hg, hs⟩ := hs
        split_ifs at hs
        cases hs
        have hlive : s₁.live = s.live := growPage_zero hg
        exact hlive
    · have hf : ((s.procs p).vm.inuseMapped.find? fun b => b.base ≤ addr &&
          addr < add64 b.base b.size) = none := by
        rw [find?_eq_none]
        intro b hb
        simpa using hout b hb
      simp only [hf, some.injEq] at hs
      rw [hs]
  | mapKernel p size paddrs =>
    simp only [mapOp, vmMapKernel] at hs
    rcases ha : vmAllocAs s p 0 (alignUpPage size) .owner with ⟨s₁, o⟩
    have hlive := vmAllocAs_live ha
    simp only [ha] at hs
    cases o with
    | none =>
      simp only [some.injEq] at hs
      rw [← hs, hlive]
    | some b =>
      split_ifs at hs with hlen
      rcases h with h0 | h0
      · rw [h0, Nat.zero_div, length_eq_zero_iff] at hlen
        subst hlen
        cases hs
        exact hlive
      · exact absurd ha fun ha => vmAllocAs_target_none h0 ha
  | mapCross p r vbase size paddrs =>
    obtain hr | ⟨s₁, s₂, remote, loc, hr, hl, -, hloop⟩ := vmMapCross_cases hs
    · exact vmAllocAs_live hr
    · rcases h with h0 | h0
      · rw [mapCrossLoop_zeros paddrs h0 hloop]
        exact (vmAllocAs_live hl).trans (vmAllocAs_live hr)
      · exact absurd hr fun hr => vmAllocAs_target_none h0 hr
  | thread p t =>
    obtain ⟨vm, b, -, ⟨-, hlive⟩ | ⟨hreuse, s₁, hm, rfl⟩⟩ := createUserThread_cases hs
    · exact hlive
    · rcases h with h0 | ⟨h1, h2⟩
      · exact absurd hreuse h0
      · simp only [threadBlockMapper, h1, h2, pallocPaddr, if_pos, bind_eq_bind, bind_some,
          bind_eq_some_iff, some.injEq] at hm
        obtain ⟨pt₁, -, pt₂, -, rfl⟩ := hm
        rfl

theorem readsTheSame_of_takesNoPage (hno : TakesNoPage s op) : ReadsTheSame s op := by
  intro m _ s₁ t' hs₁ _ p pg hfree hnot
  have hlive := live_of_takesNoPage hs₁ hno
  refine absurd ⟨hfree.1, hfree.2.1, fun r hr => hfree.2.2 r ?_⟩ hnot
  rwa [hlive] at hr

theorem takesNoPage_of_readsTheSame (hfit : BlocksFit s) (hword : op.IsWord)
    (hsome : (mapOp s op).isSome) (hsame : ReadsTheSame s op) : TakesNoPage s op := by
  obtain ⟨s', hs⟩ := isSome_iff_exists.mp hsome
  by_contra hno
  have hid : ∀ {p : Fin n} {pg a : ℕ}, Granted s s' p pg a →
      (∀ m, mapOp { s with mem := m } op = (mapOp s op).map fun t => { t with mem := m }) → False := by
    intro p pg a hg hm
    refine hg.reads_differ hs (fun m => ?_) (fun _ => rfl) hsame
    rw [hm, hs]
    rfl
  cases op with
  | fault p addr a =>
    obtain ⟨q, pg, x, hg⟩ := vmMap_granted hfit hs hno
    exact hid hg fun m => vmMap_mem m s p addr a
  | mapKernel p size paddrs =>
    obtain ⟨q, pg, x, hg⟩ := vmMapKernel_granted hfit hs hno
    exact hid hg fun m => vmMapKernel_mem m s p size paddrs
  | mapCross p r vbase size paddrs =>
    obtain ⟨q, pg, x, hg⟩ := vmMapCross_granted hfit hword hs hno
    exact hid hg fun m => vmMapCross_mem m s p r vbase size paddrs
  | thread p t => exact createUserThread_differ hfit hs hno hsame

theorem PagesInv.blocksFit {c : PageConfig} (h : PagesInv c s) (hend : c.fin + pageSize < word) :
    BlocksFit s := by
  refine ⟨fun p b hb => ?_, fun p b hb => ?_⟩
  · exact (h.procs p).aligned b (mem_append_right _ (mem_blocks_of_inuse hb))
  · obtain ⟨h1, h2⟩ := (h.procs p).aligned b (mem_append_left _ hb)
    have hfin := ((h.procs p).parts.bounds b (mem_append_left _ hb)).2
    exact ⟨h1, h2, by omega⟩

/-- A process reads the same in new pages, whatever the free pages held, when no page is taken, and
in no other case. -/
theorem new_page_contents (s : UserPages n) (op : MapOp n) :
    (TakesNoPage s op → ReadsTheSame s op) ∧
      (BlocksFit s → op.IsWord → (mapOp s op).isSome → ReadsTheSame s op → TakesNoPage s op) :=
  ⟨readsTheSame_of_takesNoPage, takesNoPage_of_readsTheSame⟩

/-- With one block in use: a fault outside of it, and one inside of it. -/
theorem new_page_contents_of_a_fault :
    ∃ s, execute (pageStep sixteenUserPages) PagesSupplied (pagesInit sixteenUserPages [] fun _ =>
    7)
        [.alloc (0 : Fin 1) 0x14000 0x2000] = some s ∧
      ReadsTheSame s (.fault 0 0x18000 0x100000) ∧ ¬ ReadsTheSame s (.fault 0 0x14010 0x100000) := by
  refine exists_execute (P := fun s => TakesNoPage s (.fault 0 0x18000 0x100000) ∧
    ¬ TakesNoPage s (.fault 0 0x14010 0x100000) ∧ (mapOp s (.fault 0 0x14010 0x100000)).isSome)
    (by decide +kernel)
    fun s hs hP => ?_
  obtain ⟨houtside, hinside, hsome⟩ := hP
  have hfit : BlocksFit s := (pagesInv_of_reach hs).blocksFit (by decide)
  refine ⟨(new_page_contents s _).1 houtside, fun hsame => hinside ?_⟩
  exact (new_page_contents s _).2 hfit trivial hsome hsame

/-- A fault shows the process what was left in the page it gets. -/
theorem fault_page_shows_old_contents :
    ¬ ∀ (n : ℕ) (c : PageConfig) (live : List (PageRun n)) (mem : ℕ → UInt8) (s : UserPages n),
      Reach (pageStep c) anyStep (pagesInit c live mem) s → ∀ op, ReadsTheSame s op := by
  intro h
  obtain ⟨s, hs, htakes, hsome⟩ : ∃ s, Reach (pageStep sixteenUserPages) PagesSupplied
      (pagesInit (n := 1) sixteenUserPages [] fun _ => 7) s ∧
      ¬ TakesNoPage s (.fault 0 0x14010 0x100000) ∧
      (mapOp s (.fault 0 0x14010 0x100000)).isSome :=
    exists_reach [.alloc 0 0x14000 0x2000] (by decide +kernel)
  have hfit : BlocksFit s := (pagesInv_of_reach hs).blocksFit (by decide)
  have hsame := h 1 _ _ _ s (hs.mono fun _ _ _ => trivial) (.fault 0 0x14010 0x100000)
  exact htakes (takesNoPage_of_readsTheSame hfit trivial hsome hsame)

end Toddler
