import Mathlib

/-! Rows of bits with summary rows above them. Row `k` is the words `b k 0, b k 1, …` of `w` bits
each, read as one long row of bits. Bit `j` of a row above the last says whether word `j` of the
next row is not zero; row `n` holds the leaves `0 .. range - 1`. -/

namespace Toddler.Summary

variable {w n range k i j q p : ℕ} {b : ℕ → ℕ → ℕ}

def bit (w : ℕ) (b : ℕ → ℕ → ℕ) (k i : ℕ) : Bool := (b k (i / w)).testBit (i % w)

/-- Bit `i` of row `k`, which is word `i` of row `k + 1`, stands above some leaf. -/
def InUse (w n range k i : ℕ) : Prop := i * w ^ (n - k) < range

def put (b : ℕ → ℕ → ℕ) (k j word : ℕ) : ℕ → ℕ → ℕ := fun k' j' => if k' = k ∧ j' = j then word
    else b k' j'

def clearBit (w word pos : ℕ) : ℕ := word &&& (2 ^ w - 1 - 2 ^ pos)

def setBit (word pos : ℕ) : ℕ := word ||| 2 ^ pos

/-- The summary bits that `hole` does not except agree with the words below them, and no bit is set
that stands above no leaf. -/
structure WfBut (w n range : ℕ) (b : ℕ → ℕ → ℕ) (hole : ℕ → ℕ → Prop) : Prop where
  word : ∀ k j, b k j < 2 ^ w
  tail : ∀ k i, k < n → InUse w n range k (i / w) → ¬ InUse w n range (k + 1) i →
    bit w b (k + 1) i = false
  summary : ∀ k j, k + 1 < n → InUse w n range (k + 1) j → ¬ hole (k + 1) j →
    (bit w b (k + 1) j = true ↔ b (k + 2) j ≠ 0)

abbrev Wf (w n range : ℕ) (b : ℕ → ℕ → ℕ) : Prop := WfBut w n range b fun _ _ => False

@[simp]
theorem put_self : put b k j p k j = p := by simp [put]

variable {k' : ℕ}

theorem put_of_ne {j' : ℕ} (h : ¬ (k' = k ∧ j' = j)) :
    put b k j p k' j' = b k' j' := by simp [put, h]

theorem bit_put : bit w (put b k j p) k' i = if k' = k ∧ i / w = j then p.testBit (i % w)
    else bit w b k' i := by
  unfold bit put
  split_ifs <;> rfl

theorem bit_put_row (h : k' ≠ k) : bit w (put b k j p) k' i = bit w b k' i := by
  rw [bit_put, if_neg fun he => h he.1]

theorem testBit_clearBit (hi : i < w) (hp : p < w) :
    (clearBit w j p).testBit i = (j.testBit i && decide (i ≠ p)) := by
  have hlt : 2 ^ p < 2 ^ w := Nat.pow_lt_pow_right (by norm_num) hp
  rw [clearBit, Nat.testBit_and, Nat.sub_sub, Nat.add_comm 1, Nat.testBit_two_pow_sub_succ hlt,
    Nat.testBit_two_pow]
  simp [hi, eq_comm]

theorem clearBit_lt (h : j < 2 ^ w) : clearBit w j p < 2 ^ w := Nat.and_le_left.trans_lt h

theorem testBit_setBit : (setBit j p).testBit i = (j.testBit i || decide (i = p)) := by
  rw [setBit, Nat.testBit_or, Nat.testBit_two_pow]
  simp [eq_comm]

theorem setBit_lt (h : j < 2 ^ w) (hp : p < w) : setBit j p < 2 ^ w :=
  Nat.or_lt_two_pow h (Nat.pow_lt_pow_right (by norm_num) hp)

theorem setBit_ne_zero : setBit j p ≠ 0 := by
  intro h
  have := testBit_setBit (j := j) (p := p) (i := p)
  simp [h] at this

theorem div_mod_of_word (hp : p < w) : (q * w + p) / w = q ∧ (q * w + p) % w = p := by
  rw [Nat.mul_comm, Nat.mul_add_div (by omega), Nat.mul_add_mod, Nat.div_eq_of_lt hp,
    Nat.mod_eq_of_lt hp]
  exact ⟨Nat.add_zero q, rfl⟩

theorem ne_zero_iff_testBit (h : j < 2 ^ w) : j ≠ 0 ↔ ∃ i < w, j.testBit i = true := by
  constructor
  · intro hj
    obtain ⟨i, hi⟩ := Nat.exists_testBit_of_ne_zero hj
    refine ⟨i, ?_, hi⟩
    by_contra hge
    have : j < 2 ^ i := lt_of_lt_of_le h (Nat.pow_le_pow_right (by norm_num) (by omega))
    rw [Nat.testBit_lt_two_pow this] at hi
    cases hi
  · rintro ⟨i, -, hi⟩ rfl
    simp at hi

section Rows

variable (hw : 0 < w)
include hw

omit hw in
theorem InUse.up (hk : k < n) (h : InUse w n range (k + 1) i) : InUse w n range k (i / w) := by
  have he : w ^ (n - k) = w * w ^ (n - (k + 1)) := by
    rw [← pow_succ', show n - (k + 1) + 1 = n - k by omega]
  calc i / w * w ^ (n - k) = i / w * w * w ^ (n - (k + 1)) := by rw [he, Nat.mul_assoc]
    _ ≤ i * w ^ (n - (k + 1)) := Nat.mul_le_mul_right _ (Nat.div_mul_le_self i w)
    _ < range := h

omit hw in
theorem InUse.eq_zero (hr : range ≤ w ^ n) (h : InUse w n range 0 i) : i = 0 := by
  by_contra hne
  have : 1 * w ^ n ≤ i * w ^ n := Nat.mul_le_mul_right _ (by omega)
  have := h.trans_le hr
  simp only [Nat.sub_zero] at this
  omega

/-- A word in use is not zero iff a bit of it is set, and such a bit is in use. -/
theorem WfBut.word_ne_zero {hole : ℕ → ℕ → Prop} (hb : WfBut w n range b hole) (hk : k < n)
    (hj : InUse w n range k j) : b (k + 1) j ≠ 0 ↔ ∃ i, i / w = j ∧ InUse w n range (k + 1) i ∧
    bit w b (k + 1) i = true := by
  rw [ne_zero_iff_testBit (hb.word _ _)]
  constructor
  · rintro ⟨p, hp, hbit⟩
    obtain ⟨hdiv, hmod⟩ := div_mod_of_word hp
    have hset : bit w b (k + 1) (j * w + p) = true := by rw [bit, hdiv, hmod, hbit]
    refine ⟨j * w + p, hdiv, ?_, hset⟩
    by_contra hout
    rw [hb.tail k _ hk (by rwa [hdiv]) hout] at hset
    cases hset
  · rintro ⟨i, rfl, -, hbit⟩
    exact ⟨i % w, Nat.mod_lt _ hw, hbit⟩

theorem bit_put_write {i' : ℕ} {v : Bool}
    (hbits : ∀ m < w, p.testBit m = if m = i % w then v else (b k (i / w)).testBit m) :
    bit w (put b k (i / w) p) k' i' = if k' = k ∧ i' = i then v else bit w b k' i' := by
  rw [bit_put]
  by_cases hword : k' = k ∧ i' / w = i / w
  · obtain ⟨rfl, hdiv⟩ := hword
    have heq : i' % w = i % w ↔ i' = i := by
      constructor
      · intro hm
        rw [← Nat.div_add_mod i' w, ← Nat.div_add_mod i w, hdiv, hm]
      · rintro rfl
        rfl
    rw [if_pos ⟨rfl, hdiv⟩, hbits _ (Nat.mod_lt _ hw)]
    simp only [heq, true_and, bit, hdiv]
  · rw [if_neg hword, if_neg]
    rintro ⟨rfl, rfl⟩
    exact hword ⟨rfl, rfl⟩

/-- Bit `i` of row `k + 1` is made to agree with the word below it; what may be wrong afterwards is
the summary of the word that holds it. -/
theorem WfBut.write {v : Bool} (hb : WfBut w n range b fun k' j => k' = k + 1 ∧ j = i)
    (hk : k < n) (hi : InUse w n range (k + 1) i) (hv : k + 1 < n → (v = true ↔ b (k + 2) i ≠ 0))
    (hp : p < 2 ^ w)
    (hbits : ∀ m < w, p.testBit m = if m = i % w then v else (b (k + 1) (i / w)).testBit m) :
    WfBut w n range (put b (k + 1) (i / w) p) fun k' j => k' = k ∧ j = i / w := by
  have hbit : ∀ k' i', bit w (put b (k + 1) (i / w) p) k' i' = if k' = k + 1 ∧ i' = i then v
      else bit w b k' i' :=
    fun _ _ => bit_put_write hw hbits
  refine ⟨?_, ?_, ?_⟩
  · intro k' j
    unfold put
    split_ifs
    · exact hp
    · exact hb.word _ _
  · intro k' i' hk' hup hout
    rw [hbit, if_neg]
    · exact hb.tail k' i' hk' hup hout
    · rintro ⟨hk'', rfl⟩
      rw [show k' = k by omega] at hout
      exact hout hi
  · intro k' j hk' hj hhole
    rw [hbit]
    by_cases hself : k' + 1 = k + 1 ∧ j = i
    · obtain ⟨hkk, rfl⟩ := hself
      obtain rfl : k' = k := by omega
      rw [if_pos ⟨rfl, rfl⟩, put_of_ne (by omega)]
      exact hv hk'
    · rw [if_neg hself, put_of_ne (by omega)]
      exact hb.summary k' j hk' hj hself

omit hw in
theorem Wf.but (hb : Wf w n range b) (hole : ℕ → ℕ → Prop) : WfBut w n range b hole :=
  ⟨hb.word, hb.tail, fun k j hk hj _ => hb.summary k j hk hj id⟩

omit hw in
theorem InUse.down (hk : k < n) : InUse w n range (k + 1) (i * w) ↔ InUse w n range k i := by
  rw [InUse, InUse, Nat.mul_assoc, ← pow_succ', show n - (k + 1) + 1 = n - k by omega]

/-- Rows in which exactly the bits in use are set. -/
theorem Wf.of_full (hword : ∀ k j, b k j < 2 ^ w)
    (hfull : ∀ k i, k < n → InUse w n range k (i / w) →
    (bit w b (k + 1) i = true ↔ InUse w n range (k + 1) i)) : Wf w n range b := by
  refine ⟨hword, ?_, ?_⟩
  · intro k i hk hup hout
    rw [← Bool.not_eq_true, hfull k i hk hup]
    exact hout
  · intro k j hk hj _
    have hset : bit w b (k + 2) (j * w) = true := by
      rw [hfull (k + 1) (j * w) hk (by rwa [Nat.mul_div_cancel j hw]), InUse.down hk]
      exact hj
    rw [hfull k j (by omega) (hj.up (by omega))]
    refine iff_of_true hj ((ne_zero_iff_testBit (hword _ _)).mpr ⟨0, hw, ?_⟩)
    rwa [bit, Nat.mul_div_cancel j hw, Nat.mul_mod_left] at hset

omit hw in
/-- The excepted summary bit turns out right. -/
theorem WfBut.close (hb : WfBut w n range b fun k' j => k' = k ∧ j = i)
    (h : 0 < k → k < n → InUse w n range k i → (bit w b k i = true ↔ b (k + 1) i ≠ 0)) :
    Wf w n range b := by
  refine ⟨hb.word, hb.tail, ?_⟩
  intro k' j hk' hj _
  by_cases hself : k' + 1 = k ∧ j = i
  · obtain ⟨rfl, rfl⟩ := hself
    exact h (by omega) hk' hj
  · exact hb.summary k' j hk' hj hself

def nonzero (w n range : ℕ) (b : ℕ → ℕ → ℕ) (k : ℕ) : Set ℕ :=
  {j | InUse w n range k j ∧ b (k + 1) j ≠ 0}

def marked (w n range : ℕ) (b : ℕ → ℕ → ℕ) (k : ℕ) : Set ℕ :=
  {i | InUse w n range k i ∧ bit w b k i = true}

omit hw in
theorem Wf.marked_eq (hb : Wf w n range b) (hk : k + 1 < n) :
    marked w n range b (k + 1) = nonzero w n range b (k + 1) := by
  ext i
  exact and_congr_right fun hi => hb.summary k i hk hi id

theorem Wf.nonzero_nonempty (hb : Wf w n range b) (hk : k < n) :
    (nonzero w n range b k).Nonempty ↔ (marked w n range b (k + 1)).Nonempty := by
  constructor
  · rintro ⟨j, hj, hne⟩
    obtain ⟨i, -, hi⟩ := (hb.word_ne_zero hw hk hj).mp hne
    exact ⟨i, hi⟩
  · rintro ⟨i, hi, hset⟩
    exact ⟨i / w, hi.up hk, (hb.word_ne_zero hw hk (hi.up hk)).mpr ⟨i, rfl, hi, hset⟩⟩

/-- If a leaf is set, every row has a word that is not zero. -/
theorem Wf.nonzero_of_leaf (hb : Wf w n range b) (hleaf : (marked w n range b n).Nonempty)
    (hk : k < n) : (nonzero w n range b k).Nonempty := by
  obtain ⟨d, hd⟩ : ∃ d, n = k + 1 + d := ⟨n - (k + 1), by omega⟩
  induction d generalizing k with
  | zero =>
    rw [hb.nonzero_nonempty hw hk, ← show n = k + 1 from hd]
    exact hleaf
  | succ d ih =>
    rw [hb.nonzero_nonempty hw hk, hb.marked_eq (by omega)]
    exact ih (by omega) (by omega)

/-- One level of the descent: the lowest bit of the lowest word that is not zero is the lowest bit
of the row. -/
theorem Wf.isLeast_marked (hb : Wf w n range b) (hk : k < n)
    (hq : IsLeast (nonzero w n range b k) q) (hp : p < w)
    (hset : (b (k + 1) q).testBit p = true) (hlow : ∀ m < p, (b (k + 1) q).testBit m = false) :
    IsLeast (marked w n range b (k + 1)) (q * w + p) := by
  obtain ⟨hdiv, hmod⟩ := div_mod_of_word hp
  have hbit : bit w b (k + 1) (q * w + p) = true := by rw [bit, hdiv, hmod, hset]
  refine ⟨⟨?_, hbit⟩, ?_⟩
  · by_contra hout
    rw [hb.tail k _ hk (by rw [hdiv]; exact hq.1.1) hout] at hbit
    cases hbit
  · rintro i ⟨hi, hseti⟩
    have hword : q ≤ i / w := hq.2 ⟨hi.up hk, (hb.word_ne_zero hw hk (hi.up hk)).mpr ⟨i, rfl, hi, hseti⟩⟩
    rcases hword.lt_or_eq with hlt | rfl
    · have := Nat.mul_le_mul_right w hlt
      have := Nat.div_mul_le_self i w
      rw [Nat.succ_mul] at *
      omega
    · have hle : p ≤ i % w := by
        by_contra hgt
        rw [bit, hlow _ (by omega)] at hseti
        cases hseti
      have := Nat.div_add_mod i w
      rw [Nat.mul_comm] at this
      omega

end Rows

end Toddler.Summary
