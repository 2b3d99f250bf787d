import Mathlib.Data.List.Nodup
import Mathlib.Data.List.Perm.Subperm
import Mathlib.Tactic

/-! Chunks cut into blocks, each of which is in use or on the free list of its chunk. -/

namespace Toddler

open Function List

variable {γ β : Type*}

structure Slab (chunks : List γ) (blocks free : γ → List β) (used : β → Prop) : Prop where
  unique : ∀ c ∈ chunks, ∀ d ∈ chunks, ∀ x, x ∈ blocks c → x ∈ blocks d → c = d
  nodup : ∀ c ∈ chunks, (free c).Nodup
  mem_free : ∀ c ∈ chunks, ∀ x, x ∈ free c ↔ x ∈ blocks c ∧ ¬ used x
  mem_used : ∀ x, used x → ∃ c ∈ chunks, x ∈ blocks c

namespace Slab

variable {chunks : List γ} {blocks free : γ → List β} {used used' : β → Prop} {c d : γ} {x : β}
  {rest : List β}

theorem mem_blocks_of_cons (h : Slab chunks blocks free used) (hc : c ∈ chunks)
    (hfree : free c = x :: rest) : x ∈ blocks c ∧ ¬ used x :=
  (h.mem_free c hc x).mp (hfree ▸ mem_cons_self ..)

/-- A free list of full length holds every block. -/
theorem none_used (h : Slab chunks blocks free used) (hc : c ∈ chunks)
    (hlen : (blocks c).length ≤ (free c).length) : ∀ x ∈ blocks c, ¬ used x := by
  have hsub : free c ⊆ blocks c := fun x hx => ((h.mem_free c hc x).mp hx).1
  have hperm := ((h.nodup c hc).subperm hsub).perm_of_length_le hlen
  intro x hx
  exact ((h.mem_free c hc x).mp (hperm.mem_iff.mpr hx)).2

theorem congr {blocks' : γ → List β} (h : Slab chunks blocks free used)
    (hblocks : ∀ c ∈ chunks, blocks' c = blocks c) : Slab chunks blocks' free used := by
  refine ⟨fun c hc d hd x => ?_, h.nodup, fun c hc x => ?_, fun x hx => ?_⟩
  · rw [hblocks c hc, hblocks d hd]
    exact h.unique c hc d hd x
  · rw [hblocks c hc]
    exact h.mem_free c hc x
  · obtain ⟨c, hc, hxc⟩ := h.mem_used x hx
    exact ⟨c, hc, by rwa [hblocks c hc]⟩

variable [DecidableEq γ]

section

variable (h : Slab chunks blocks free used)
include h

theorem take (hc : c ∈ chunks) (hfree : free c = x :: rest)
    (hused : ∀ y, used' y ↔ y = x ∨ used y) : Slab chunks blocks (update free c rest) used' := by
  obtain ⟨hx, hxu⟩ := h.mem_blocks_of_cons hc hfree
  have hnd := h.nodup c hc
  rw [hfree, nodup_cons] at hnd
  refine ⟨h.unique, ?_, ?_, ?_⟩
  · intro d hd
    by_cases hdc : d = c
    · rw [hdc, update_self]
      exact hnd.2
    · rw [update_of_ne hdc]
      exact h.nodup d hd
  · intro d hd y
    rw [hused, not_or]
    by_cases hdc : d = c
    · subst hdc
      have hmem := h.mem_free d hd y
      rw [hfree, mem_cons] at hmem
      rw [update_self]
      constructor
      · intro hy
        obtain ⟨h1, h2⟩ := hmem.mp (Or.inr hy)
        exact ⟨h1, fun he => hnd.1 (he ▸ hy), h2⟩
      · rintro ⟨h1, h2, h3⟩
        exact (hmem.mpr ⟨h1, h3⟩).resolve_left h2
    · rw [update_of_ne hdc, h.mem_free d hd y]
      exact and_congr_right fun hy =>
        ⟨fun hu => ⟨fun he => hdc (h.unique d hd c hc y hy (he ▸ hx)), hu⟩, And.right⟩
  · intro y hy
    rcases (hused y).mp hy with rfl | hy
    · exact ⟨c, hc, hx⟩
    · exact h.mem_used y hy

theorem put (hc : c ∈ chunks) (hx : x ∈ blocks c) (hxu : used x)
    (hused : ∀ y, used' y ↔ used y ∧ y ≠ x) :
    Slab chunks blocks (update free c (x :: free c)) used' := by
  have hxf : x ∉ free c := fun hxf => ((h.mem_free c hc x).mp hxf).2 hxu
  refine ⟨h.unique, ?_, ?_, fun y hy => h.mem_used y ((hused y).mp hy).1⟩
  · intro d hd
    by_cases hdc : d = c
    · rw [hdc, update_self]
      exact nodup_cons.mpr ⟨hxf, h.nodup c hc⟩
    · rw [update_of_ne hdc]
      exact h.nodup d hd
  · intro d hd y
    rw [hused, not_and_or, not_not, or_comm]
    by_cases hdc : d = c
    · subst hdc
      rw [update_self, mem_cons, h.mem_free d hd y, and_or_left]
      exact or_congr_left ⟨fun he => ⟨he ▸ hx, he⟩, And.right⟩
    · rw [update_of_ne hdc, h.mem_free d hd y]
      exact and_congr_right fun hy =>
        ⟨Or.inr, fun hu => hu.resolve_left fun he => hdc (h.unique d hd c hc y hy (he ▸ hx))⟩

/-- A new chunk, all of whose blocks are free. -/
theorem grow (hc : c ∉ chunks) (hfresh : ∀ d ∈ chunks, ∀ x ∈ blocks d, x ∉ blocks c) {l : List β}
    (hnd : l.Nodup) (hl : ∀ x, x ∈ l ↔ x ∈ blocks c) :
    Slab (c :: chunks) blocks (update free c l) used := by
  have hne : ∀ d ∈ chunks, d ≠ c := fun d hd he => hc (he ▸ hd)
  refine ⟨?_, ?_, ?_, ?_⟩
  · intro d hd e he y hyd hye
    rcases mem_cons.mp hd with rfl | hd' <;> rcases mem_cons.mp he with rfl | he'
    · rfl
    · exact absurd hyd (hfresh e he' y hye)
    · exact absurd hye (hfresh d hd' y hyd)
    · exact h.unique d hd' e he' y hyd hye
  · refine forall_mem_cons.mpr ⟨?_, fun d hd => ?_⟩
    · rwa [update_self]
    · rw [update_of_ne (hne d hd)]
      exact h.nodup d hd
  · refine forall_mem_cons.mpr ⟨fun y => ?_, fun d hd => ?_⟩
    · rw [update_self, hl]
      refine (and_iff_left_of_imp fun hy hu => ?_).symm
      obtain ⟨d, hd, hyd⟩ := h.mem_used y hu
      exact hfresh d hd y hyd hy
    · rw [update_of_ne (hne d hd)]
      exact h.mem_free d hd
  · intro y hy
    obtain ⟨d, hd, hyd⟩ := h.mem_used y hy
    exact ⟨d, mem_cons_of_mem c hd, hyd⟩

/-- A chunk of which no block is in use is given up. -/
theorem drop (hfree : ∀ x ∈ blocks c, ¬ used x) : Slab (chunks.erase c) blocks free used := by
  have hsub : ∀ d ∈ chunks.erase c, d ∈ chunks := fun d hd => mem_of_mem_erase hd
  refine ⟨fun d hd e he => h.unique d (hsub d hd) e (hsub e he), fun d hd => h.nodup d (hsub d hd),
    fun d hd => h.mem_free d (hsub d hd), fun y hy => ?_⟩
  obtain ⟨d, hd, hyd⟩ := h.mem_used y hy
  refine ⟨d, (mem_erase_of_ne ?_).mpr hd, hyd⟩
  rintro rfl
  exact hfree y hyd hy

end

end Slab

end Toddler
