import Mathlib.Data.List.TakeWhile
import Mathlib.Tactic

/-! First occurrences of a word in a text, and the fields of a text between separators. A field may
start with a label that a mark ends. -/

namespace Toddler

open List

variable {α : Type*} {w s t : List α} {i j n : ℕ}

/-- The word `w`, which is not empty, stands in `s` at `i`. -/
def OccursAt (w s : List α) (i : ℕ) : Prop := w ≠ [] ∧ w <+: s.drop i

def FirstAt (w s : List α) (n i : ℕ) : Prop :=
  n ≤ i ∧ OccursAt w s i ∧ ∀ j, n ≤ j → j < i → ¬OccursAt w s j

theorem OccursAt.add_length_le (h : OccursAt w s i) : i + w.length ≤ s.length := by
  obtain ⟨hne, hpre⟩ := h
  have hlen := hpre.length_le
  have hpos := length_pos_iff.mpr hne
  rw [length_drop] at hlen
  omega

variable {k : ℕ}

theorem OccursAt.getElem? (h : OccursAt w s i) (hk : k < w.length) : s[i + k]? = w[k]? := by
  obtain ⟨_, u, hu⟩ := h
  rw [← getElem?_drop, ← hu, getElem?_append_left hk]

theorem OccursAt.of_prefix (h : OccursAt w t i) (ht : t <+: s) : OccursAt w s i :=
  ⟨h.1, h.2.trans (ht.drop i)⟩

theorem occursAt_drop {a : ℕ} : OccursAt w (s.drop a) i ↔ OccursAt w s (a + i) := by
  rw [OccursAt, OccursAt, drop_drop]

theorem OccursAt.firstAt (h : OccursAt w s n) : FirstAt w s n n :=
  ⟨le_rfl, h, fun j hj hlt => absurd hlt (by omega)⟩

theorem FirstAt.unique (hi : FirstAt w s n i) (hj : FirstAt w s n j) : i = j := by
  rcases lt_trichotomy i j with h | h | h
  · exact absurd hi.2.1 (hj.2.2 i hi.1 h)
  · exact h
  · exact absurd hj.2.1 (hi.2.2 j hj.1 h)

theorem firstAt_succ_iff (h : ¬OccursAt w s n) : FirstAt w s n i ↔ FirstAt w s (n + 1) i := by
  constructor
  · rintro ⟨hle, hocc, hmin⟩
    have hne : n ≠ i := fun he => h (he ▸ hocc)
    exact ⟨by omega, hocc, fun j hj => hmin j (by omega)⟩
  · rintro ⟨hle, hocc, hmin⟩
    refine ⟨by omega, hocc, fun j hj hlt => ?_⟩
    rcases eq_or_lt_of_le hj with rfl | hj
    · exact h
    · exact hmin j hj hlt

theorem OccursAt.exists_firstAt (h : OccursAt w s j) (hn : n ≤ j) : ∃ i ≤ j, FirstAt w s n i := by
  classical
  have hex : ∃ i, n ≤ i ∧ OccursAt w s i := ⟨j, hn, h⟩
  obtain ⟨hle, hocc⟩ := Nat.find_spec hex
  refine ⟨Nat.find hex, Nat.find_min' hex ⟨hn, h⟩, hle, hocc, fun k hk hlt hk' => ?_⟩
  exact Nat.find_min hex hlt ⟨hk, hk'⟩

section Fields

variable (sep : α → Bool)

def isStart (s : List α) (i : ℕ) : Bool := i == 0 || s[i - 1]?.any sep

/-- The text from `i` up to the next separator. -/
def fieldAt (s : List α) (i : ℕ) : List α := (s.drop i).takeWhile fun c => !sep c

/-- The first field whose text before `mark` is the word `w`. -/
def labelled [DecidableEq α] (mark : α) (s w : List α) : Option ℕ :=
  (List.range (s.length + 1)).find? fun i =>
    decide (w ≠ []) && isStart sep s i &&
      decide ((fieldAt sep s i).takeWhile (fun c => decide (c ≠ mark)) = w)

variable {sep}

theorem fieldAt_prefix : fieldAt sep s i <+: s.drop i := takeWhile_prefix _

theorem getElem?_fieldAt (hk : k < (fieldAt sep s i).length) :
    ∃ c, s[i + k]? = some c ∧ sep c = false := by
  obtain ⟨u, hu⟩ : fieldAt sep s i <+: s.drop i := fieldAt_prefix
  have hc : (fieldAt sep s i)[k]? = some (fieldAt sep s i)[k] := getElem?_eq_getElem hk
  refine ⟨(fieldAt sep s i)[k], ?_, ?_⟩
  · rw [← List.getElem?_drop, ← hu, List.getElem?_append_left hk, hc]
  · simpa using List.mem_takeWhile_imp (List.getElem_mem hk)

theorem getElem?_of_fieldAt {c : α} (hk : (fieldAt sep s i)[k]? = some c) : s[i + k]? = some c := by
  obtain ⟨u, hu⟩ : fieldAt sep s i <+: s.drop i := fieldAt_prefix
  have hlt := (List.getElem?_eq_some_iff.mp hk).1
  rw [← List.getElem?_drop, ← hu, List.getElem?_append_left hlt, hk]

theorem OccursAt.of_fieldAt (h : OccursAt w (fieldAt sep s i) j) : OccursAt w s (i + j) :=
  occursAt_drop.mp (h.of_prefix fieldAt_prefix)

theorem getElem?_takeWhile_length [DecidableEq α] {mark : α} (h : mark ∈ t) :
    t[(t.takeWhile fun c => decide (c ≠ mark)).length]? = some mark := by
  induction t with
  | nil => simp at h
  | cons c t ih =>
    by_cases hc : c = mark
    · simp [hc]
    · have ht : mark ∈ t := by simpa [Ne.symm hc] using h
      simpa [takeWhile_cons, hc] using ih ht

/-- What `labelled` finds: a field that starts with the word, with the mark after it if it has
one. -/
theorem labelled_spec [DecidableEq α] {mark : α} (h : labelled sep mark s w = some i) :
    isStart sep s i ∧ OccursAt w s i ∧ w.length ≤ (fieldAt sep s i).length ∧
      (mark ∈ fieldAt sep s i → s[i + w.length]? = some mark) := by
  have hp := find?_some h
  simp only [Bool.and_eq_true, decide_eq_true_eq] at hp
  obtain ⟨⟨hne, hstart⟩, htext⟩ := hp
  have hocc : OccursAt w (fieldAt sep s i) 0 := by
    refine ⟨hne, ?_⟩
    rw [drop_zero, ← htext]
    exact takeWhile_prefix _
  have hlen := hocc.add_length_le
  refine ⟨hstart, hocc.of_fieldAt, by omega, fun hm => ?_⟩
  have hmark := getElem?_takeWhile_length hm
  rw [htext] at hmark
  exact getElem?_of_fieldAt hmark

end Fields

end Toddler
