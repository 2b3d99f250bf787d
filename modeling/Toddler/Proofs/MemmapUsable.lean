import Toddler.Proofs.Memmap

/-! The usability check of the boot memory map. `check_memmap_region_usable` looks for an entry that
holds the first or the last address of the range, so it does not see an entry in between. An entry
that reaches the end of the address space has the end 0 in 64 bits and is not seen either. -/

namespace Toddler

def MemmapEntry.Overlaps (start fin : ℕ) (entry : MemmapEntry) : Prop :=
  ∃ x, (start ≤ x ∧ x < fin) ∧ entry.start ≤ x ∧ x < entry.fin

/-- No entry that overlaps the range is in use. -/
def UsableRange (l : List MemmapEntry) (start fin : ℕ) : Prop :=
  ∀ e ∈ l, e.Overlaps start fin → e.flags = memmapUsable

/-- An entry in use lies strictly between the two ends of the range, or overlaps it and reaches the
end of the address space. -/
def UseInside (l : List MemmapEntry) (start fin : ℕ) : Prop :=
  ∃ e ∈ l, e.flags ≠ memmapUsable ∧ e.Overlaps start fin ∧
    ((start < e.start ∧ e.fin < fin) ∨ word ≤ e.fin)

/-- An entry in use that ends inside the address space holds the first or the last address of the
range. -/
def UseAtEnds (l : List MemmapEntry) (start fin : ℕ) : Prop :=
  ∃ e ∈ l, e.flags ≠ memmapUsable ∧ e.fin < word ∧
    ((e.start ≤ start ∧ start < e.fin) ∨ (e.start < fin ∧ fin ≤ e.fin))

variable {e : MemmapEntry} {l : List MemmapEntry} {start fin : ℕ}

theorem overlaps_iff (h : start < fin) : e.Overlaps start fin ↔
    e.start < fin ∧ start < e.fin ∧ e.start < e.fin := by
  constructor
  · rintro ⟨x, hx, hex⟩
    omega
  · intro he
    refine ⟨max start e.start, ⟨le_max_left .., ?_⟩, le_max_right .., ?_⟩
    · exact max_lt h he.1
    · exact max_lt he.2.1 he.2.2

/-- An entry that ends at or past the end of the address space never passes the test. -/
theorem hasEnd_iff (hu : e.start < word ∧ e.size < word) :
    e.hasEnd start fin ↔ e.fin < word ∧
    ((e.start ≤ start ∧ start < e.fin) ∨ (e.start < fin ∧ fin ≤ e.fin)) := by
  have hfin : e.fin = e.start + e.size := rfl
  rcases add64_cases hu.1 hu.2 with ⟨hlt, hend⟩ | ⟨hge, hend⟩
  · rw [MemmapEntry.hasEnd, hend]
    tauto
  · unfold MemmapEntry.hasEnd
    omega

theorem check_eq_true_iff {m : Memmap} {size : ℕ}
    (hu : ∀ e ∈ m.entries, e.start < word ∧ e.size < word) :
    checkMemmapRegionUsable m start size = true ↔
    ¬ UseAtEnds m.entries start (add64 start size) := by
  rw [checkMemmapRegionUsable, List.all_eq_true]
  constructor
  · rintro hall ⟨e, he, hflags, hend⟩
    have htest := hall e he
    rw [← hasEnd_iff (hu e he)] at hend
    simp [hend, hflags] at htest
  · intro hnone e he
    by_contra htest
    simp only [Bool.not_eq_true', Bool.not_eq_false, Bool.and_eq_true, decide_eq_true_eq,
      bne_iff_ne] at htest
    exact hnone ⟨e, he, htest.2, (hasEnd_iff (hu e he)).mp htest.1⟩

theorem UsableRange.not_useAtEnds (h : UsableRange l start fin) (hlt : start < fin) :
    ¬ UseAtEnds l start fin := by
  rintro ⟨e, he, hflags, -, hend⟩
  apply hflags
  apply h e he
  rw [overlaps_iff hlt]
  omega

/-- An entry that overlaps a range without holding one of its ends lies between them. -/
theorem usableRange_of_not_use (hlt : start < fin) (hinside : ¬ UseInside l start fin)
    (hends : ¬ UseAtEnds l start fin) : UsableRange l start fin := by
  intro e he hov
  by_contra hflags
  have hpos := (overlaps_iff hlt).mp hov
  by_cases hbetween : (start < e.start ∧ e.fin < fin) ∨ word ≤ e.fin
  · exact hinside ⟨e, he, hflags, hov, hbetween⟩
  · exact hends ⟨e, he, hflags, by omega, by omega⟩

theorem UseInside.not_usableRange (h : UseInside l start fin) : ¬ UsableRange l start fin := by
  obtain ⟨e, he, hflags, hov, -⟩ := h
  exact fun hrange => hflags (hrange e he hov)

/-- The check answers for the range, and an image is placed on usable memory only, exactly when an
entry in use that lies between the ends of the range comes with one that holds an end. -/
theorem check_usable_iff (m : Memmap) (start size : ℕ) (hm : MemmapDisjoint m.entries)
    (hsize : 0 < size) (hwrap : start + size < word) :
    ((checkMemmapRegionUsable m start size = true ↔ UsableRange m.entries start (start + size)) ∧
        ∀ m', placeImage m start size = some m' → UsableRange m.entries start (start + size)) ↔
      (UseInside m.entries start (start + size) → UseAtEnds m.entries start (start + size)) := by
  have hlt : start < start + size := by omega
  have hcheck : checkMemmapRegionUsable m start size = true ↔
      ¬ UseAtEnds m.entries start (start + size) := by
    rw [check_eq_true_iff hm.u64, add64_of_lt hwrap]
  constructor
  · rintro ⟨hright, -⟩ hinside
    by_contra hends
    exact hinside.not_usableRange (hright.mp (hcheck.mpr hends))
  · intro hshown
    have hright : checkMemmapRegionUsable m start size = true ↔
        UsableRange m.entries start (start + size) := by
      rw [hcheck]
      refine ⟨fun hends => usableRange_of_not_use hlt (mt hshown hends) hends,
        fun h => h.not_useAtEnds hlt⟩
    refine ⟨hright, fun m' hplace => hright.mp ?_⟩
    by_contra hfalse
    simp [placeImage, hfalse] at hplace

/-- The first half of the range is in use. -/
theorem check_usable_iff_of_front_used : let m : Memmap :=
  ⟨[⟨0x1000, 0x1000, 2, 0⟩, ⟨0x2000, 0x2000, 1, 0⟩], []⟩
    checkMemmapRegionUsable m 0x1800 0x1000 = false ∧
      ((checkMemmapRegionUsable m 0x1800 0x1000 = true ↔ UsableRange m.entries 0x1800 0x2800) ∧
        ∀ m', placeImage m 0x1800 0x1000 = some m' → UsableRange m.entries 0x1800 0x2800) := by
  intro m
  have hm : MemmapDisjoint m.entries := Tidy.memmapDisjoint ⟨by decide, by decide, by decide⟩
  refine ⟨by decide, (check_usable_iff m 0x1800 0x1000 hm (by decide) (by decide)).mpr fun _ => ?_⟩
  exact ⟨⟨0x1000, 0x1000, 2, 0⟩, by simp [m], by decide, by decide, by decide⟩

/-- The second of three entries is in use, and an image is placed on all of it. -/
theorem check_misses_inner_use :
    ¬ ∀ (m : Memmap) (start size : ℕ), MemmapDisjoint m.entries → 0 < size → start + size < word →
      ((checkMemmapRegionUsable m start size = true ↔ UsableRange m.entries start (start + size)) ∧
        ∀ m', placeImage m start size = some m' → UsableRange m.entries start (start + size)) := by
  intro hall
  let m : Memmap := ⟨[⟨0x1000, 0x1000, 1, 0⟩, ⟨0x2000, 0x1000, 2, 0⟩, ⟨0x3000, 0x2000, 1, 0⟩],
    [⟨0, 0, 0, 0⟩]⟩
  have hm : MemmapDisjoint m.entries := Tidy.memmapDisjoint ⟨by decide, by decide, by decide⟩
  have hplaced : placeImage m 0x1000 0x3000 =
      some ⟨[⟨0x1000, 0x3000, 2, 0⟩, ⟨0x4000, 0x1000, 1, 0⟩], [⟨0, 0, 0, 0⟩, ⟨0, 0, 0, 0⟩]⟩ := by decide
  have hrange := (hall m 0x1000 0x3000 hm (by decide) (by decide)).2 _ hplaced
  have hused := hrange ⟨0x2000, 0x1000, 2, 0⟩ (by simp [m]) ⟨0x2000, by decide, by decide⟩
  exact absurd hused (by decide)

end Toddler
