import Mathlib.Tactic

/-! Translations that go page by page, windows of bytes read through one translation, and scans that
read a stream of bytes from its start. -/

namespace Toddler

open Nat

/-- Within a page, addresses and their translations have the same distance. -/
def PageUniform (size : ℕ) (tr : ℕ → Option ℕ) : Prop :=
  ∀ v, tr v = (tr (v / size * size)).map (· + v % size)

theorem div_mod_of_page {size v i : ℕ} (h : v % size + i < size) :
    (v + i) / size = v / size ∧ (v + i) % size = v % size + i := by
  have hsize : 0 < size := by omega
  have heq : v + i = size * (v / size) + (v % size + i) := by rw [← add_assoc, div_add_mod]
  rw [heq]
  refine ⟨?_, ?_⟩
  · rw [mul_add_div hsize, div_eq_of_lt h, add_zero]
  · rw [mul_add_mod, mod_eq_of_lt h]

namespace PageUniform

variable {size v p i : ℕ} {tr : ℕ → Option ℕ}

theorem add_eq_map (h : PageUniform size tr) (hi : v % size + i < size) :
    tr (v + i) = (tr v).map (· + i) := by
  obtain ⟨hdiv, hmod⟩ := div_mod_of_page hi
  rw [h (v + i), h v, hdiv, hmod, Option.map_map]
  congr 1
  funext base
  simp only [Function.comp_apply, add_assoc]

/-- The bytes of a window whose start translates to `p` are where the translation has them, as soon
as this is so at the page starts among them. `R` says which bytes are in the window, from the first
on. -/
theorem window_iff (h : PageUniform size tr) (hsize : 0 < size) (hv : tr v = some p) {R : ℕ → Prop}
    (hR : ∀ i j, i ≤ j → R j → R i) :
    (∀ i, R i → tr (v + i) = some (p + i)) ↔ ∀ i, R i → size ∣ v + i → tr (v + i) = some (p + i) := by
  refine ⟨fun hall i hi _ => hall i hi, fun hstart i => ?_⟩
  -- from the byte before, in the same page, or at a page start
  induction i with
  | zero => exact fun _ => hv
  | succ i ih =>
    intro hi
    by_cases hpage : size ∣ v + (i + 1)
    · exact hstart _ hi hpage
    · have hlt : (v + i) % size + 1 < size := by
        have := mod_lt (v + i) hsize
        rcases lt_or_ge ((v + i) % size + 1) size with hlt | hge
        · exact hlt
        · refine absurd ?_ hpage
          rw [← add_assoc, dvd_iff_mod_eq_zero, ← mod_add_mod, show (v + i) % size + 1 = size by
            omega, mod_self]
      rw [← add_assoc, h.add_eq_map hlt, ih (hR i _ (le_succ i) hi), Option.map_some, add_assoc]

end PageUniform

/-- A scan of a stream on the bytes that are there: its answer, or that it reads on. -/
inductive Scan (α : Type)
  | more
  | done (a : α)
  deriving DecidableEq, Repr

/-- An answer does not depend on the bytes after it. -/
def Scan.Stable {α β : Type} (f : List β → Scan α) : Prop :=
  ∀ l a, f l = .done a → ∀ l', f (l ++ l') = .done a

/-- A scan that reads the byte after `l` has read those before. -/
theorem Scan.Stable.more_of_append {α β : Type} {f : List β → Scan α} (h : Scan.Stable f)
    {l l' : List β} (hmore : f (l ++ l') = .more) : f l = .more := by
  cases hl : f l with
  | more => rfl
  | done a =>
    rw [h l a hl l'] at hmore
    cases hmore

end Toddler
