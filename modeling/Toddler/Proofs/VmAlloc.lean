import Toddler.Proofs.Vm

/-! `vm_alloc` for every pair of words: it is safe exactly under `AllocFits`. -/

namespace Toddler

theorem replaceFirst_find {α : Type} (p : α → Bool) (f : α → List α) (l : List α) :
    (replaceFirst p f l).map Prod.fst = l.find? p := by
  induction l with
  | nil => rfl
  | cons a l ih =>
    rw [replaceFirst, List.find?_cons]
    cases hp : p a with
    | true => rfl
    | false =>
      rw [if_neg (by simp), Option.map_map, ← ih]
      rfl

section Request

variable {s : Vm} {base size : ℕ} {t : VmBlock}

def allocBlock (s : Vm) (base size : ℕ) (t : VmBlock) : VmBlock :=
  ⟨s.nextId, if alignDownPage base ≠ 0 then alignDownPage base else t.base,
    sub64 (alignUpPage (add64 base size)) (alignDownPage base), .generic, .none⟩

theorem vmAlloc_none (h : allocTarget s base size = none) :
    vmAlloc s base size = ({ s with nextId := s.nextId + 2 }, none) := by
  unfold allocTarget at h
  rw [← replaceFirst_find _ (allocCarve (alignDownPage base) (alignUpPage (add64 base size))
    (sub64 (alignUpPage (add64 base size)) (alignDownPage base)) (s.nextId + 1)),
    Option.map_eq_none_iff] at h
  unfold vmAlloc
  simp only [h]

theorem vmAlloc_some (h : allocTarget s base size = some t) :
    ∃ s' pre post, vmAlloc s base size = (s', some (allocBlock s base size t)) ∧
    s.availUnmapped = pre ++ t :: post ∧
      allocFits (alignDownPage base) (alignUpPage (add64 base size))
        (sub64 (alignUpPage (add64 base size)) (alignDownPage base)) t = true ∧
      s'.availUnmapped = pre ++ allocCarve (alignDownPage base) (alignUpPage (add64 base size))
        (sub64 (alignUpPage (add64 base size)) (alignDownPage base)) (s.nextId + 1) t ++ post := by
  unfold allocTarget at h
  rw [← replaceFirst_find _ (allocCarve (alignDownPage base) (alignUpPage (add64 base size))
    (sub64 (alignUpPage (add64 base size)) (alignDownPage base)) (s.nextId + 1)),
    Option.map_eq_some_iff] at h
  obtain ⟨⟨t', avail⟩, hr, rfl⟩ := h
  obtain ⟨pre, post, havail, hfit, rfl⟩ := replaceFirst_some _ hr
  unfold vmAlloc
  simp only [hr]
  exact ⟨_, pre, post, rfl, havail, hfit, rfl⟩

/-- With a request that does not wrap, the block has the base and the end of the request. -/
theorem allocGiven_of_fits {s' : Vm} {pre post : List VmBlock} (hok : AvailOk s.availUnmapped)
    (hwrap : base + size + (pageSize - 1) < word) (hlow : base = 0 ∨ pageSize ≤ base ∨ t.base = 0)
    (havail : s.availUnmapped = pre ++ t :: post)
    (hfit : allocFits (alignDownPage base) (alignUpPage (add64 base size))
      (sub64 (alignUpPage (add64 base size)) (alignDownPage base)) t = true)
    (havail' : s'.availUnmapped = pre ++ allocCarve (alignDownPage base) (alignUpPage (add64 base size))
      (sub64 (alignUpPage (add64 base size)) (alignDownPage base)) (s.nextId + 1) t ++ post) :
    AllocGiven s s' base size (allocBlock s base size t) := by
  obtain ⟨hle, hfw, -⟩ := alloc_rounding hwrap
  have hmem : t ∈ s.availUnmapped := by
    rw [havail]
    exact List.mem_append_right pre List.mem_cons_self
  have hsub := sub64_of_le hle hfw
  obtain ⟨hcut, -⟩ := allocCarve_cut (s.nextId + 1) (b := allocBlock s base size t) hle hsub hfw
    (hok.noWrap t hmem) hfit rfl rfl
  have hround : alignDownPage base ≤ base ∧ base < alignDownPage base + pageSize ∧
      base + size ≤ alignUpPage (add64 base size) ∧ (base < pageSize → alignDownPage base = 0) ∧
      (pageSize ≤ base → alignDownPage base ≠ 0) := by
    have hps : pageSize = 4096 := rfl
    rw [alignUpPage, alignDownPage, add64_of_lt (show base + size < word by omega),
      add64_of_lt (show base + size + (pageSize - 1) < word by omega), hps]
    omega
  have hsize : (allocBlock s base size t).size =
    alignUpPage (add64 base size) - alignDownPage base := hsub
  refine ⟨by omega, fun hbase => ?_, ⟨t, hmem, hcut.bounds _ List.mem_cons_self⟩, fun x => ?_⟩
  · have hb : (allocBlock s base size t).base = alignDownPage base := by
      unfold allocBlock
      rcases Nat.lt_or_ge base pageSize with h | h
      · rw [if_neg (by simpa using hround.2.2.2.1 h)]
        change t.base = alignDownPage base
        omega
      · rw [if_pos (hround.2.2.2.2 h)]
    rw [VmBlock.fin]
    omega
  · have htiles := hcut.tiles x
    rw [havail', havail]
    simp only [cover_block, cover_append, cover_nil] at htiles ⊢
    omega

/-- A block that contains the request ends on the last page at the latest, so the request does not
wrap. -/
theorem fits_of_allocGiven {s' : Vm} (hok : AvailOk s.availUnmapped) (ht : t ∈ s.availUnmapped)
    (h : AllocGiven s s' base size (allocBlock s base size t)) :
    base + size + (pageSize - 1) < word ∧ (base = 0 ∨ pageSize ≤ base ∨ t.base = 0) := by
  have hps : pageSize = 4096 := rfl
  have hword : word = 4503599627370496 * 4096 := rfl
  obtain ⟨u, hu, -, hend⟩ := h.inside
  have hlast : u.fin + pageSize ≤ word := by
    obtain ⟨⟨k, hk⟩, j, hj⟩ := hok.aligned u hu
    have hnowrap := hok.noWrap u hu
    rw [VmBlock.fin, hps] at *
    omega
  have henough := h.enough
  have hfin : (allocBlock s base size t).fin =
    (allocBlock s base size t).base + (allocBlock s base size t).size := rfl
  rcases Nat.eq_zero_or_pos base with hzero | hpos
  · exact ⟨by omega, .inl hzero⟩
  obtain ⟨hle, hge⟩ := h.contains (by omega)
  refine ⟨by omega, ?_⟩
  rcases Nat.lt_or_ge base pageSize with hlow | hhigh
  · have hdown : alignDownPage base = 0 := by
      rw [alignDownPage, Nat.div_eq_of_lt hlow, Nat.zero_mul]
    have hb : (allocBlock s base size t).base = t.base := by
      unfold allocBlock
      rw [if_neg (by simpa using hdown)]
    obtain ⟨⟨k, hk⟩, -⟩ := hok.aligned t ht
    right; right
    rw [hps] at hk
    omega
  · exact .inr (.inl hhigh)

end Request

theorem vm_alloc_safe_iff (s : Vm) (base size : ℕ) (hok : AvailOk s.availUnmapped) :
    AllocSafe s base size ↔ AllocFits s base size := by
  unfold AllocSafe AllocFits
  cases h : allocTarget s base size with
  | none => simp [vmAlloc_none h]
  | some t =>
    obtain ⟨s', pre, post, heq, havail, hfit, havail'⟩ := vmAlloc_some h
    rw [heq]
    have hmem : t ∈ s.availUnmapped := List.mem_of_find?_eq_some h
    constructor
    · rintro hgiven u hu
      obtain rfl := Option.some.inj hu
      exact fits_of_allocGiven hok hmem hgiven
    · intro hfits
      obtain ⟨hwrap, hlow⟩ := hfits t rfl
      exact allocGiven_of_fits hok hwrap hlow havail hfit havail'

def twoAvail : Vm where
  availUnmapped := [⟨0, 0x10000, 0x8000, .avail, .none⟩, ⟨1, 0x20000, 0x4000, .avail, .none⟩]
  inuseMapped := []
  reuseMapped := []
  sanitMapped := []
  sanitUnmapped := []
  numActiveBlocks := 0
  numSallocObjs := 2
  refCount := 1
  nextId := 2

theorem twoAvail_ok : AvailOk twoAvail.availUnmapped := by
  refine ⟨by simp [twoAvail], ?_, by simp [twoAvail, pageSize], by
    simp [twoAvail, VmBlock.fin, word]⟩
  simp only [twoAvail, VmBlock.fin, List.pairwise_pair]
  omega

/-- A request in the middle of the second block. -/
theorem vm_alloc_safe_middle : AllocSafe twoAvail 0x21234 0x1000 :=
  (vm_alloc_safe_iff twoAvail 0x21234 0x1000 twoAvail_ok).mpr fun _ _ =>
    ⟨by decide, .inr (.inl (by decide))⟩

/-- The end of the request wraps to `0x10000`, so the search stops at the first block, which the
given block is not in. -/
theorem vm_alloc_wrapped_end_unsafe :
    ¬ ∀ (s : Vm) (base size : ℕ), AvailOk s.availUnmapped → base < word → size < word →
    AllocSafe s base size := by
  intro h
  have hsafe := h twoAvail 0x20000 0xffffffffffff0000 twoAvail_ok (by decide) (by decide)
  have hrun : (vmAlloc twoAvail 0x20000 0xffffffffffff0000).2.map VmBlock.fin =
      some 0x10000000000010000 := by
    decide +kernel
  obtain ⟨b, hb, hfin⟩ := Option.map_eq_some_iff.mp hrun
  unfold AllocSafe at hsafe
  generalize vmAlloc twoAvail 0x20000 0xffffffffffff0000 = r at hsafe hb
  obtain ⟨s', r⟩ := r
  subst hb
  obtain ⟨t, ht, -, hle⟩ := hsafe.inside
  have hnowrap := twoAvail_ok.noWrap t ht
  have hword : word = 0x10000000000000000 := rfl
  omega

end Toddler
