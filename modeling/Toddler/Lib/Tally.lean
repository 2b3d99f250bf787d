import Mathlib.Algebra.BigOperators.Group.Finset.Basic
import Mathlib.Algebra.Order.BigOperators.Group.Finset
import Mathlib.Tactic

/-! A weight summed over the states of finitely many processes. One process moves at a time, so a
step changes the sum by the weights of its old and its new state. -/

namespace Toddler

open Function Finset

variable {ι α : Type*} [Fintype ι]

def tally (w : α → ℕ) (f : ι → α) : ℕ := ∑ i, w (f i)

theorem tally_update [DecidableEq ι] (w : α → ℕ) (f : ι → α) (i : ι) (a : α) :
    tally w (update f i a) + w (f i) = tally w f + w a := by
  have hrest : ∑ j ∈ univ.erase i, w (update f i a j) = ∑ j ∈ univ.erase i, w (f j) := by
    refine sum_congr rfl fun j hj => ?_
    rw [update_of_ne (ne_of_mem_erase hj)]
  unfold tally
  rw [← add_sum_erase _ _ (mem_univ i), hrest,
    update_self, ← add_sum_erase _ (fun j => w (f j)) (mem_univ i)]
  omega

theorem le_tally (w : α → ℕ) (f : ι → α) (i : ι) : w (f i) ≤ tally w f :=
  single_le_sum (f := fun j => w (f j)) (fun _ _ => Nat.zero_le _) (mem_univ i)

variable {w : α → ℕ} {f : ι → α}

theorem tally_eq_zero : tally w f = 0 ↔ ∀ i, w (f i) = 0 := by
  simp [tally]

theorem dvd_tally {d : ℕ} (h : ∀ i, d ∣ w (f i)) : d ∣ tally w f := dvd_sum fun i _ => h i

theorem tally_update_same [DecidableEq ι] {i : ι} {a : α} (h : w a = w (f i)) :
    tally w (update f i a) = tally w f := by
  have := tally_update w f i a
  omega

/-- For the indicator of a predicate, the sum is a number of processes. -/
theorem tally_indicator (p : α → Prop) [DecidablePred p] (f : ι → α) :
    tally (fun a => if p a then 1 else 0) f = (univ.filter fun i => p (f i)).card := by
  rw [tally, card_filter]

end Toddler
