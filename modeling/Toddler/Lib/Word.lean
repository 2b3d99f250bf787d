import Mathlib.Tactic

/-! Unsigned 64-bit arithmetic on natural numbers, as C computes it, and the ranges in which it is
the arithmetic of the naturals. -/

namespace Toddler

open Nat

def word : ℕ := 2 ^ 64

def add64 (a b : ℕ) : ℕ := (a + b) % word

/-- `a - b` for operands below `word`. -/
def sub64 (a b : ℕ) : ℕ := (a + word - b) % word

variable {a b : ℕ}

theorem add64_of_lt (h : a + b < word) : add64 a b = a + b := mod_eq_of_lt h

theorem add64_cases (ha : a < word) (hb : b < word) :
    (a + b < word ∧ add64 a b = a + b) ∨ (word ≤ a + b ∧ add64 a b + word = a + b) := by
  rcases lt_or_ge (a + b) word with h | h
  · exact Or.inl ⟨h, add64_of_lt h⟩
  · right
    rw [add64, mod_eq_sub_mod h, mod_eq_of_lt (by omega)]
    omega

theorem sub64_of_le (h : b ≤ a) (ha : a < word) : sub64 a b = a - b := by
  rw [sub64, show a + word - b = (a - b) + word by omega, add_mod_right]
  exact mod_eq_of_lt (by omega)

theorem sub64_of_gt (h : a < b) (hb : b < word) : sub64 a b = word - (b - a) := by
  unfold sub64
  rw [mod_eq_of_lt (by omega)]
  omega

/-- The least multiple above a number that is not one. -/
theorem isLeast_multiple (hb : 0 < b) (h : ¬ b ∣ a) :
    IsLeast {m | b ∣ m ∧ a ≤ m} ((a / b + 1) * b) := by
  have hdiv := div_add_mod' a b
  have hmod := mod_lt a hb
  refine ⟨⟨dvd_mul_left _ _, by rw [succ_mul]; omega⟩, ?_⟩
  rintro m ⟨⟨k, rfl⟩, hm⟩
  rw [mul_comm]
  refine Nat.mul_le_mul_left _ ((div_lt_iff_lt_mul hb).mpr ?_)
  rw [mul_comm]
  exact hm.lt_of_ne fun hne => h ⟨k, hne⟩

theorem isGreatest_multiple (hb : 0 < b) : IsGreatest {m | b ∣ m ∧ m ≤ a} (a / b * b) := by
  refine ⟨⟨dvd_mul_left _ _, div_mul_le_self a b⟩, ?_⟩
  rintro m ⟨⟨k, rfl⟩, hm⟩
  rw [mul_comm]
  exact Nat.mul_le_mul_right _ ((le_div_iff_mul_le hb).mpr (by rwa [mul_comm]))

theorem and_not_low {n k x : ℕ} (hx : x < 2 ^ n) (hk : k ≤ n) :
    x &&& ((2 ^ n - 1) ^^^ (2 ^ k - 1)) = 2 ^ k * (x / 2 ^ k) := by
  refine eq_of_testBit_eq fun i => ?_
  rw [testBit_and, testBit_xor, testBit_two_pow_sub_one, testBit_two_pow_sub_one,
    Nat.testBit_two_pow_mul, Nat.testBit_div_two_pow]
  rcases Nat.lt_or_ge i k with hi | hi
  · simp [hi, hi.trans_le hk]
  · rw [Nat.sub_add_cancel hi]
    rcases Nat.lt_or_ge i n with hin | hin
    · simp [hi, hin, Nat.not_lt.mpr hi]
    · have : x.testBit i = false :=
        Nat.testBit_lt_two_pow (hx.trans_le (Nat.pow_le_pow_right (by decide) hin))
      simp [this]

@[simp] theorem sub64_self (a : ℕ) : sub64 a a = 0 := by
  rw [sub64, Nat.add_sub_cancel_left, Nat.mod_self]

end Toddler
