import Mathlib.Tactic

/-! How often an address lies in a list of half-open intervals. A list tiles a range when the
count is one inside and zero outside; moving, splitting and joining intervals is then arithmetic on
counts, and disjointness of the list is read off at the end. -/

namespace Toddler

variable {β : Type*} (lo hi : β → ℕ)

/-- The number of intervals `[lo b, hi b)` of the list that contain `x`. -/
def cover (l : List β) (x : ℕ) : ℕ := l.countP fun b => decide (lo b ≤ x ∧ x < hi b)

def Apart (a b : β) : Prop := ∀ x, ¬ ((lo a ≤ x ∧ x < hi a) ∧ (lo b ≤ x ∧ x < hi b))

variable {lo hi}

@[simp] theorem cover_nil (x : ℕ) : cover lo hi ([] : List β) x = 0 := rfl

theorem cover_cons (b : β) (l : List β) (x : ℕ) :
    cover lo hi (b :: l) x = (if lo b ≤ x ∧ x < hi b then 1 else 0) + cover lo hi l x := by
  simp [cover, List.countP_cons, Nat.add_comm]

@[simp] theorem cover_append (l l' : List β) (x : ℕ) :
    cover lo hi (l ++ l') x = cover lo hi l x + cover lo hi l' x := by
  simp [cover]

variable {l : List β}

theorem cover_perm {l' : List β} (h : l.Perm l') (x : ℕ) : cover lo hi l x = cover lo hi l' x :=
  h.countP_eq _

variable {x : ℕ}

theorem cover_pos : 0 < cover lo hi l x ↔ ∃ b ∈ l, lo b ≤ x ∧ x < hi b := by
  simp [cover]

theorem cover_eq_zero : cover lo hi l x = 0 ↔ ∀ b ∈ l, ¬ (lo b ≤ x ∧ x < hi b) := by
  simp [cover, List.countP_eq_zero]

theorem cover_mem_pos {b : β} (h : b ∈ l) (h1 : lo b ≤ x) (h2 : x < hi b) : 0 < cover lo hi l x :=
  cover_pos.mpr ⟨b, h, h1, h2⟩

theorem pairwise_apart_iff (l : List β) : l.Pairwise (Apart lo hi) ↔ ∀ x, cover lo hi l x ≤ 1 := by
  induction l with
  | nil => simp
  | cons b l ih =>
    rw [List.pairwise_cons, ih]
    constructor
    · rintro ⟨hb, hl⟩ x
      rw [cover_cons]
      split_ifs with hx
      · have : cover lo hi l x = 0 := cover_eq_zero.mpr fun a ha hax => hb a ha x ⟨hx, hax⟩
        omega
      · have := hl x
        omega
    · intro h
      refine ⟨fun a ha x hx => ?_, fun x => ?_⟩
      · have h1 := h x
        have h2 := cover_mem_pos ha hx.2.1 hx.2.2
        rw [cover_cons, if_pos hx.1] at h1
        omega
      · have := h x
        rw [cover_cons] at this
        omega

end Toddler
