import Mathlib.Data.Nat.Log
import Toddler.Proofs.Math
import Toddler.Spec.Palloc

/-! The order that `calc_palloc_order` finds for a number of pages: the least power of two that
holds them. -/

namespace Toddler

open Nat

theorem one_lt_popcount32 {val : BitVec 32} {i j : ℕ} (hij : i < j) (hj : j < 32)
    (hi : val.toNat.testBit i = true) (hj' : val.toNat.testBit j = true) : 1 < popcount32 val := by
  have hbit : ∀ k < 32, val.toNat.testBit k = true → val &&& (1#32 <<< k) ≠ 0 := by
    intro k hk hset hzero
    have hand := congrArg (fun v : BitVec 32 => v.getLsbD k) hzero
    have hlsb : val[k] = true := hset
    simp [hlsb, hk] at hand
  have hsub : [i, j].Subperm (List.range 32) := by
    refine List.Nodup.subperm (by simpa using hij.ne) ?_
    simp only [List.cons_subset, List.mem_range, List.nil_subset, and_true]
    omega
  have hcount := hsub.countP_le fun k => decide (val &&& (1#32 <<< k) ≠ 0)
  rw [List.countP_eq_length.mpr] at hcount
  · exact hcount
  · intro k hk
    simp only [List.mem_cons, List.not_mem_nil, or_false] at hk
    rcases hk with rfl | rfl
    · exact decide_eq_true (hbit _ (by omega) hi)
    · exact decide_eq_true (hbit _ hj hj')

variable {n : ℕ}

/-- The top bit of a number that is not 0, as `clz32` finds it. -/
theorem clz32_spec (hpos : 0 < n) (hn : n < 2 ^ 32) :
    ∃ m, clz32 (BitVec.ofNat 32 n) + m = 31 ∧ 2 ^ m ≤ n ∧ n < 2 ^ (m + 1) := by
  have hval : (BitVec.ofNat 32 n).toNat = n := by
    exact mod_eq_of_lt hn
  obtain ⟨hlow, hhigh⟩ := clzLoop_spec (le_refl 32)
    (show 2 ^ (32 - 32) ≤ (BitVec.ofNat 32 n).toNat by rw [hval]; exact hpos)
  rw [hval] at hlow hhigh
  change 2 ^ 31 ≤ n * 2 ^ clz32 (BitVec.ofNat 32 n) at hlow
  change n * 2 ^ clz32 (BitVec.ofNat 32 n) < 2 ^ 32 at hhigh
  generalize clz32 (BitVec.ofNat 32 n) = z at *
  obtain ⟨m, hm⟩ : ∃ m, z + m = 31 := by
    refine ⟨31 - z, Nat.add_sub_cancel' ?_⟩
    by_contra hnot
    have hpow : 2 ^ 32 ≤ 2 ^ z := Nat.pow_le_pow_right (by norm_num) (by omega)
    have := Nat.mul_le_mul hpos hpow
    omega
  refine ⟨m, hm, ?_, ?_⟩
  · rw [← hm, Nat.add_comm, pow_add] at hlow
    exact Nat.le_of_mul_le_mul_right hlow (Nat.two_pow_pos _)
  · rw [show 32 = m + 1 + z by omega, pow_add] at hhigh
    exact Nat.lt_of_mul_lt_mul_right hhigh

theorem one_lt_popcount32_of_gt {m : ℕ} (hn : n < 2 ^ 32) (hgt : 2 ^ m < n)
    (hlt : n < 2 ^ (m + 1)) : 1 < popcount32 (BitVec.ofNat 32 n) := by
  have hval : (BitVec.ofNat 32 n).toNat = n := by
    exact Nat.mod_eq_of_lt hn
  have hm : m < 32 := (Nat.pow_lt_pow_iff_right (by norm_num : 1 < 2)).mp (hgt.trans hn)
  obtain ⟨r, rfl⟩ := Nat.exists_eq_add_of_le hgt.le
  obtain ⟨j, hj⟩ := Nat.exists_testBit_of_ne_zero (show r ≠ 0 by omega)
  have hr : r < 2 ^ m := by
    omega
  have hjm : j < m := by
    by_contra hnot
    rw [Nat.testBit_lt_two_pow (hr.trans_le (Nat.pow_le_pow_right (by norm_num) (by omega)))] at hj
    cases hj
  refine one_lt_popcount32 hjm hm ?_ ?_
  · rw [hval, Nat.testBit_two_pow_add_gt hjm]
    exact hj
  · rw [hval, Nat.testBit_two_pow_add_eq, Nat.testBit_lt_two_pow hr]
    rfl

theorem popcount32_two_pow : ∀ m < 32, popcount32 (BitVec.ofNat 32 (2 ^ m)) = 1 := by
  decide +kernel

/-- The order of a page count, which the page allocator serves or refuses. -/
theorem calcPallocOrder_eq (hpos : 0 < n) (hn : n < 2 ^ 32) : calcPallocOrder (BitVec.ofNat 32 n) =
    if clog 2 n ≤ pallocMaxOrder then some (clog 2 n) else none := by
  obtain ⟨m, hm, hle, hlt⟩ := clz32_spec hpos hn
  have horder : (if 1 < popcount32 (BitVec.ofNat 32 n) then (m : ℤ) + 1 else m) = clog 2 n := by
    rcases eq_or_lt_of_le hle with rfl | hgt
    · have hpop : ¬ 1 < popcount32 (BitVec.ofNat 32 (2 ^ m)) := by
        rw [popcount32_two_pow m (by omega)]; omega
      rw [if_neg hpop, clog_pow 2 m (by norm_num)]
    · rw [if_pos (one_lt_popcount32_of_gt hn hgt hlt),
        le_antisymm (clog_le_of_le_pow hlt.le) ((lt_clog_iff_pow_lt (by norm_num)).mpr hgt)]
      rfl
  simp only [calcPallocOrder]
  rw [show (32 - 1 - (clz32 (BitVec.ofNat 32 n) : ℤ)) = m by omega, horder, if_neg (by omega)]
  by_cases hmax : clog 2 n ≤ pallocMaxOrder
  · rw [if_neg (by omega), if_pos hmax]
    rfl
  · rw [if_pos (by omega), if_neg hmax]

theorem calcPallocOrder_eq_clog (hpos : 0 < n) (hn : n ≤ 2 ^ pallocMaxOrder) :
    calcPallocOrder (BitVec.ofNat 32 n) = some (clog 2 n) := by
  rw [calcPallocOrder_eq hpos (hn.trans_lt (by decide)), if_pos (clog_le_of_le_pow hn)]

end Toddler
