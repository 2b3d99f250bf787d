import Toddler.Lib.Chain

/-! Free lists whose cells stand for runs of blocks: a cell `b` with `span b = k` is the blocks
`b, b + size, …, b + (k - 1) * size`. -/

namespace Toddler

open Function List

def spanBlocks (size : ℕ) (span : ℕ → ℕ) (cells : List ℕ) : List ℕ :=
  cells.flatMap fun b => (range (span b)).map fun i => b + i * size

/-- The list from `head` stands for the blocks `l`. -/
def SpanList (next : ℕ → Option ℕ) (span : ℕ → ℕ) (size : ℕ) (head : Option ℕ)
    (l : List ℕ) : Prop :=
  ∃ cells, Chain next head cells ∧ (∀ b ∈ cells, 0 < span b) ∧ spanBlocks size span cells = l

variable {next next' : ℕ → Option ℕ} {span span' : ℕ → ℕ} {size b k : ℕ} {head : Option ℕ}
  {l : List ℕ}

theorem spanBlocks_cons (hb : span b = k + 1) (cells : List ℕ) : spanBlocks size span (b :: cells) =
      b :: ((range k).map fun i => b + size + i * size) ++ spanBlocks size span cells := by
  have hrun : (range (k + 1)).map (fun i => b + i * size) =
      b :: (range k).map fun i => b + size + i * size := by
    rw [range_succ_eq_map, map_cons, map_map, Nat.zero_mul, Nat.add_zero]
    refine congrArg (b :: ·) (map_congr_left fun i _ => ?_)
    simp only [Function.comp_apply, Nat.succ_mul]
    omega
  rw [spanBlocks, flatMap_cons, hb, hrun, ← spanBlocks]

theorem mem_spanBlocks {cells : List ℕ} (hb : b ∈ cells) (hpos : 0 < span b) :
    b ∈ spanBlocks size span cells := by
  refine mem_flatMap.mpr ⟨b, hb, mem_map.mpr ⟨0, mem_range.mpr hpos, ?_⟩⟩
  rw [Nat.zero_mul, Nat.add_zero]

theorem spanBlocks_congr {cells : List ℕ} (h : ∀ b ∈ cells, span' b = span b) :
    spanBlocks size span' cells = spanBlocks size span cells :=
  flatMap_congr fun b hb => by rw [h b hb]

/-- Links and spans of blocks outside the list do not matter. -/
theorem SpanList.congr (h : SpanList next span size head l)
    (heq : ∀ b ∈ l, next' b = next b ∧ span' b = span b) : SpanList next' span' size head l := by
  obtain ⟨cells, hc, hpos, rfl⟩ := h
  have hmem : ∀ b ∈ cells, next' b = next b ∧ span' b = span b :=
    fun b hb => heq b (mem_spanBlocks hb (hpos b hb))
  refine ⟨cells, ?_, fun b hb => (hmem b hb).2 ▸ hpos b hb, spanBlocks_congr fun b hb =>
    (hmem b hb).2⟩
  exact hc.congr fun b hb => (hmem b hb).1

theorem SpanList.push (h : SpanList next span size head l) (hb : b ∉ l) :
    SpanList (update next b head) (update span b 1) size (some b) (b :: l) := by
  obtain ⟨cells, hc, hpos, rfl⟩ := h
  have hne : ∀ a ∈ cells, a ≠ b := fun a ha he => hb (he ▸ mem_spanBlocks ha (hpos a ha))
  have hnot : b ∉ cells := fun hmem => hne b hmem rfl
  have hspan : ∀ a ∈ cells, update span b 1 a = span a := fun a ha => update_of_ne (hne a ha) ..
  refine ⟨b :: cells, hc.push hnot, ?_, ?_⟩
  · refine forall_mem_cons.mpr ⟨?_, fun a ha => hspan a ha ▸ hpos a ha⟩
    rw [update_self]
    exact one_pos
  · rw [spanBlocks_cons (k := 0) (update_self ..), spanBlocks_congr hspan]
    rfl

/-- One cell for a run of blocks. -/
theorem spanList_run (hk : 0 < k) (b : ℕ) :
    SpanList (update next b none) (update span b k) size (some b)
      ((range k).map fun i => b + i * size) := by
  refine ⟨[b], ⟨rfl, update_self ..⟩, ?_, ?_⟩
  · simpa using hk
  · simp [spanBlocks]

/-- The first block leaves: the cell goes, or the next block becomes the cell. -/
theorem SpanList.pop (h : SpanList next span size head (b :: l)) (hnd : (b :: l).Nodup) :
    head = some b ∧ 0 < span b ∧ span b ≤ l.length + 1 ∧
    (span b = 1 → SpanList next span size (next b) l) ∧
      (span b ≠ 1 → b + size ∈ l ∧ SpanList (update next (b + size) (next b))
        (update span (b + size) (span b - 1)) size (some (b + size)) l) := by
  obtain ⟨cells, hc, hpos, hl⟩ := h
  obtain _ | ⟨a, cells⟩ := cells
  · cases hl
  obtain ⟨rfl, hc⟩ := hc
  obtain ⟨hposa, hpos⟩ := forall_mem_cons.mp hpos
  obtain ⟨k, hk⟩ : ∃ k, span a = k + 1 := ⟨span a - 1, by omega⟩
  rw [spanBlocks_cons hk, cons_append] at hl
  obtain ⟨rfl, hrest⟩ := cons.inj hl
  have hlen := congrArg length hrest
  rw [length_append, length_map, length_range] at hlen
  refine ⟨rfl, hposa, by omega, fun hone => ?_, fun hone => ?_⟩
  · obtain rfl : k = 0 := by omega
    exact ⟨cells, hc, hpos, hrest⟩
  · obtain ⟨m, rfl⟩ : ∃ m, k = m + 1 := ⟨k - 1, by omega⟩
    have hmem : a + size ∈ (range (m + 1)).map fun i => a + size + i * size :=
      mem_map.mpr ⟨0, mem_range.mpr (Nat.succ_pos m), by omega⟩
    have hnd' := (nodup_cons.mp hnd).2
    rw [← hrest] at hnd'
    have hne : ∀ e ∈ cells, e ≠ a + size := fun e he heq =>
      disjoint_of_nodup_append hnd' hmem (heq ▸ mem_spanBlocks he (hpos e he))
    have hspan : ∀ e ∈ cells, update span (a + size) (span a - 1) e = span e := fun e he =>
      update_of_ne (hne e he) ..
    refine ⟨hrest ▸ mem_append_left _ hmem, (a + size) :: cells, hc.push fun he => hne _ he rfl, ?_, ?_⟩
    · refine forall_mem_cons.mpr ⟨?_, fun e he => hspan e he ▸ hpos e he⟩
      rw [update_self, hk]
      omega
    · rw [spanBlocks, flatMap_cons, update_self, ← spanBlocks, spanBlocks_congr hspan, ← hrest, hk]
      rfl

end Toddler
