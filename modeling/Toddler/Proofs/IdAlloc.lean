import Toddler.Spec.IdAlloc

/-! The ID allocator keeps its rows of summary bits well formed, so the descent of `id_alloc` ends
at the smallest free id. -/

namespace Toddler

open Function Summary List Option

variable {w first last level idx count rounds : ℕ} {b : ℕ → ℕ → ℕ} {s : IdState}

theorem ctzLoop_spec {val p : ℕ} (hp : p < rounds) (hset : val.testBit p = true) :
    ctzLoop rounds val < rounds ∧ val.testBit (ctzLoop rounds val) = true ∧
      ∀ m < ctzLoop rounds val, val.testBit m = false := by
  induction rounds generalizing val p with
  | zero => omega
  | succ rounds ih =>
    by_cases heven : val % 2 = 0
    · have hlow : val.testBit 0 = false := by simp [heven]
      obtain _ | p := p
      · rw [hlow] at hset
        cases hset
      · rw [Nat.testBit_succ] at hset
        obtain ⟨hlt, hbit, hbelow⟩ := ih (by omega) hset
        simp only [ctzLoop, heven, if_true]
        refine ⟨by omega, by rwa [Nat.testBit_succ], ?_⟩
        intro m hm
        obtain _ | m := m
        · exact hlow
        · rw [Nat.testBit_succ]
          exact hbelow m (by omega)
    · simp only [ctzLoop, heven, if_false]
      exact ⟨by omega, by simp; omega, by omega⟩

theorem ctz_spec {val : ℕ} (hval : val < 2 ^ w) (hne : val ≠ 0) :
    ctz w val < w ∧ val.testBit (ctz w val) = true ∧ ∀ m < ctz w val, val.testBit m = false := by
  obtain ⟨p, hp, hset⟩ := (ne_zero_iff_testBit hval).mp hne
  exact ctzLoop_spec hp hset

/-- The bitmaps of an object whose live leaves are `live`. -/
structure IdInv (w : ℕ) (obj : IdObj) (live : ℕ → Prop) : Prop where
  width : 0 < w
  levels : 0 < obj.numLevels
  range : obj.range ≤ w ^ obj.numLevels
  wf : Wf w obj.numLevels obj.range obj.bitmaps
  leaf : ∀ i < obj.range, bit w obj.bitmaps obj.numLevels i = true ↔ ¬ live i

variable {i : ℕ}

theorem inUse_leaf {n range : ℕ} : InUse w n range n i ↔ i < range := by simp [InUse]

section Alloc

variable {obj : IdObj} {live : ℕ → Prop}

theorem IdInv.isLeast_descend (h : IdInv w obj live) (hroot : obj.bitmaps 1 0 ≠ 0)
    (hr : 0 < obj.range) (hlevel : level < obj.numLevels) :
    IsLeast (nonzero w obj.numLevels obj.range obj.bitmaps level)
    (descend w obj.bitmaps level) := by
  induction level with
  | zero => exact ⟨⟨by simpa [InUse, descend] using hr, hroot⟩, fun _ _ => Nat.zero_le _⟩
  | succ level ih =>
    have hq := ih (by omega)
    obtain ⟨hlt, hset, hlow⟩ := ctz_spec (h.wf.word _ _) hq.1.2
    rw [← h.wf.marked_eq hlevel]
    exact h.wf.isLeast_marked h.width (by omega) hq hlt hset hlow

/-- The descent finds the lowest bit of the last row, which is the smallest free leaf. -/
theorem IdInv.isLeast_leaf (h : IdInv w obj live) (hfree : ∃ i < obj.range, ¬ live i) :
    obj.bitmaps obj.numLevels (descend w obj.bitmaps (obj.numLevels - 1)) ≠ 0 ∧
      IsLeast {i | i < obj.range ∧ ¬ live i} (descend w obj.bitmaps (obj.numLevels - 1) * w +
        ctz w (obj.bitmaps obj.numLevels (descend w obj.bitmaps (obj.numLevels - 1)))) := by
  obtain ⟨i, hi, hlive⟩ := hfree
  have hmarked : marked w obj.numLevels obj.range obj.bitmaps obj.numLevels =
      {i | i < obj.range ∧ ¬ live i} := by
    ext j
    simp only [marked, inUse_leaf]
    exact and_congr_right fun hj => h.leaf j hj
  have hroot : obj.bitmaps 1 0 ≠ 0 := by
    obtain ⟨j, hj, hne⟩ := h.wf.nonzero_of_leaf h.width (by rw [hmarked]; exact ⟨i, hi, hlive⟩) h.levels
    rwa [hj.eq_zero h.range] at hne
  obtain ⟨m, hm⟩ : ∃ m, obj.numLevels = m + 1 := ⟨obj.numLevels - 1, by have := h.levels; omega⟩
  have hq := h.isLeast_descend hroot (by omega) (show m < obj.numLevels by omega)
  obtain ⟨hlt, hset, hlow⟩ := ctz_spec (h.wf.word _ _) hq.1.2
  have hleast := h.wf.isLeast_marked h.width (by omega) hq hlt hset hlow
  rw [← hm, hmarked] at hleast
  exact ⟨hm ▸ hq.1.2, hm ▸ hleast⟩

end Alloc

section Climb

variable {n range c : ℕ}

theorem clear_bits (hw : 0 < w) (word : ℕ) :
    ∀ m < w, (clearBit w word (c % w)).testBit m = if m = c % w then false else word.testBit m := by
  intro m hm
  rw [testBit_clearBit hm (Nat.mod_lt _ hw)]
  split_ifs with h <;> simp [h]

theorem set_bits (word : ℕ) :
    ∀ m < w, (setBit word (c % w)).testBit m = if m = c % w then true else word.testBit m := by
  intro m _
  rw [testBit_setBit]
  split_ifs with h <;> simp [h]

/-- Bit `c` of the row `level` is cleared; the loop of `id_alloc` makes the rows above agree. -/
theorem clearLoop_wf (hw : 0 < w) (hb : WfBut w n range b fun k j => k = level ∧ j = c)
    (hlevel : level ≤ n) (hc : InUse w n range level c) (hzero : level < n → b (level + 1) c = 0) :
    Wf w n range (clearLoop w level c b) := by
  induction level generalizing c b with
  | zero => exact hb.close fun h => absurd h (lt_irrefl 0)
  | succ level ih =>
    set word := clearBit w (b (level + 1) (c / w)) (c % w) with hword
    have hb' := hb.write hw (by omega) hc (fun hlt => by simp [hzero hlt])
      (clearBit_lt (hb.word _ _)) (clear_bits hw _)
    have hup := hc.up (show level < n by omega)
    simp only [clearLoop]
    split_ifs with hne
    · -- the word above is not empty, so neither was it before and its own summary bit is right
      refine hb'.close fun hpos hlt _ => ?_
      have hold : b (level + 1) (c / w) ≠ 0 := by
        intro h0
        rw [h0, clearBit, Nat.zero_and] at hword
        exact hne hword
      obtain ⟨k, rfl⟩ : ∃ k, level = k + 1 := ⟨level - 1, by omega⟩
      rw [bit_put_row (by omega), put_self, hb.summary k _ hlt hup (by omega)]
      exact iff_of_true hold hne
    · exact ih hb' (by omega) hup fun _ => by rw [put_self]; exact not_not.mp hne

theorem bit_clearLoop {k : ℕ} (hw : 0 < w) (hk : level ≤ k) (hpos : 0 < k) :
    bit w (clearLoop w level c b) k i = if k = level ∧ i = c then false else bit w b k i := by
  induction level generalizing c b with
  | zero => rw [clearLoop, if_neg (by omega)]
  | succ level ih =>
    rw [← bit_put_write hw (clear_bits hw _)]
    simp only [clearLoop]
    split_ifs
    · rfl
    · rw [ih (by omega), if_neg (by omega)]

/-- The words that stand above no leaf are the same. -/
def SameBehind (w n range : ℕ) (b b' : ℕ → ℕ → ℕ) : Prop :=
  ∀ k j, k < n → ¬ InUse w n range k j → b' (k + 1) j = b (k + 1) j

theorem sameBehind_put {word : ℕ} (hlevel : level < n) (hc : InUse w n range level c) :
    SameBehind w n range b (put b (level + 1) c word) := by
  intro k j _ hout
  refine put_of_ne ?_
  rintro ⟨hk, rfl⟩
  obtain rfl : k = level := by omega
  exact hout hc

theorem clearLoop_behind (hlevel : level ≤ n) (hc : InUse w n range level c) :
    SameBehind w n range b (clearLoop w level c b) := by
  induction level generalizing c b with
  | zero => exact fun _ _ _ _ => rfl
  | succ level ih =>
    have hup := hc.up (show level < n by omega)
    intro k j hk hout
    simp only [clearLoop]
    split_ifs
    · exact sameBehind_put (by omega) hup k j hk hout
    · exact (ih (by omega) hup k j hk hout).trans (sameBehind_put (by omega) hup k j hk hout)

theorem freeLoop_behind {b' : ℕ → ℕ → ℕ} {m : ℕ} (hlevel : level ≤ n) (hc : InUse w n range level c)
    (h : freeLoop w m level c b = some b') : SameBehind w n range b b' := by
  induction level generalizing c b with
  | zero =>
    cases h
    exact fun _ _ _ _ => rfl
  | succ level ih =>
    have hup := hc.up (show level < n by omega)
    simp only [freeLoop] at h
    split_ifs at h
    exact fun k j hk hout => (ih (by omega) hup h k j hk hout).trans
      (sameBehind_put (by omega) hup k j hk hout)

/-- Bit `c` of the row `level` is set; the loop of `id_free` makes the rows above agree. -/
theorem freeLoop_wf (hw : 0 < w) (hb : WfBut w n range b fun k j => k = level ∧ j = c)
    (hlevel : level ≤ n) (hc : InUse w n range level c) (hne : level < n → b (level + 1) c ≠ 0)
    (hclear : level = n → bit w b level c = false) :
    ∃ b', freeLoop w n level c b = some b' ∧ Wf w n range b' ∧
      ∀ k i, level ≤ k → 0 < k → bit w b' k i = if k = level ∧ i = c then true else bit w b k i := by
  induction level generalizing c b with
  | zero =>
    refine ⟨b, rfl, hb.close fun h => absurd h (lt_irrefl 0), ?_⟩
    intro k i _ hpos
    rw [if_neg (by omega)]
  | succ level ih =>
    have hb' := hb.write hw (by omega) hc (fun hlt => by simp [hne hlt])
      (setBit_lt (hb.word _ _) (Nat.mod_lt c hw)) (set_bits _)
    obtain ⟨b', hloop, hwf, hbit⟩ := ih hb' (by omega) (hc.up (by omega))
      (fun _ => by rw [put_self]; exact setBit_ne_zero) (fun h => absurd h (by omega))
    refine ⟨b', ?_, hwf, ?_⟩
    · simp only [freeLoop]
      rw [if_neg]
      · exact hloop
      · rintro ⟨htop, hset⟩
        rw [← bit, hclear htop] at hset
        cases hset
    · intro k i hk hpos
      rw [hbit k i (by omega) hpos, if_neg (by omega), bit_put_write hw (set_bits _)]

end Climb

section Calls

variable {obj : IdObj} {live : ℕ → Prop}

theorem idAlloc_eq (hcount : obj.allocCount ≠ obj.range) (hlevels : 0 < obj.numLevels)
    (hi : i = descend w obj.bitmaps (obj.numLevels - 1) * w +
      ctz w (obj.bitmaps obj.numLevels (descend w obj.bitmaps (obj.numLevels - 1))))
    (hpos : ctz w (obj.bitmaps obj.numLevels (descend w obj.bitmaps (obj.numLevels - 1))) < w) :
    idAlloc w obj =
      ({ obj with bitmaps := clearLoop w obj.numLevels i obj.bitmaps },
      some ((obj.base + i) % 2 ^ w)) := by
  obtain ⟨hdiv, hmod⟩ := div_mod_of_word hpos
  rw [← hi] at hdiv hmod
  obtain ⟨base, range, allocCount, numLevels, bitmaps⟩ := obj
  obtain _ | n := numLevels
  · cases hlevels
  · simp only [Nat.add_sub_cancel] at hi
    simp [idAlloc, if_neg hcount, clearLoop, ← hi, hdiv, hmod]

theorem idAlloc_keeps (w : ℕ) (obj : IdObj) :
    (idAlloc w obj).1.allocCount = obj.allocCount ∧ (idAlloc w obj).1.range = obj.range := by
  unfold idAlloc
  split_ifs <;> exact ⟨rfl, rfl⟩

theorem idFree_keeps {id : ℕ} {obj' : IdObj} (h : idFree w obj id = some obj') :
    obj'.allocCount = (obj.allocCount + 2 ^ w - 1) % 2 ^ w ∧ obj'.range = obj.range := by
  simp only [idFree] at h
  split_ifs at h
  obtain ⟨b, -, rfl⟩ := map_eq_some_iff.mp h
  exact ⟨rfl, rfl⟩

theorem IdInv.alloc (h : IdInv w obj live) (hfree : ∃ i < obj.range, ¬ live i)
    (hcount : obj.allocCount ≠ obj.range) :
    ∃ b i, idAlloc w obj = ({ obj with bitmaps := b }, some ((obj.base + i) % 2 ^ w)) ∧
      IsLeast {i | i < obj.range ∧ ¬ live i} i ∧
      SameBehind w obj.numLevels obj.range obj.bitmaps b ∧
      IdInv w { obj with bitmaps := b } fun j => live j ∨ j = i := by
  obtain ⟨hword, hleast⟩ := h.isLeast_leaf hfree
  obtain ⟨hpos, -, -⟩ := ctz_spec (h.wf.word _ _) hword
  have hi := (inUse_leaf (w := w) (n := obj.numLevels)).mpr hleast.1.1
  refine ⟨_, _, idAlloc_eq hcount h.levels rfl hpos, hleast, clearLoop_behind le_rfl hi, h.width,
    h.levels, h.range, ?_, ?_⟩
  · exact clearLoop_wf h.width (h.wf.but _) le_rfl hi fun hlt => absurd hlt (lt_irrefl _)
  · intro j hj
    rw [bit_clearLoop h.width le_rfl h.levels]
    split_ifs with hji
    · simp [hji.2]
    · rw [h.leaf j hj]
      tauto

theorem IdInv.free (c : ℕ) (h : IdInv w obj live) (hi : i < obj.range) (hlive : live i) :
    ∃ b, freeLoop w obj.numLevels obj.numLevels i obj.bitmaps = some b ∧
      SameBehind w obj.numLevels obj.range obj.bitmaps b ∧
      IdInv w { obj with bitmaps := b, allocCount := c } fun j => live j ∧ j ≠ i := by
  have hclear : bit w obj.bitmaps obj.numLevels i = false := by
    have := (h.leaf i hi).not
    simpa [hlive] using this
  obtain ⟨b, hloop, hwf, hbit⟩ := freeLoop_wf h.width (h.wf.but _) le_rfl (inUse_leaf.mpr hi)
    (fun hlt => absurd hlt (lt_irrefl _)) fun _ => hclear
  refine ⟨b, hloop, freeLoop_behind le_rfl (inUse_leaf.mpr hi) hloop, h.width, h.levels, h.range,
    hwf, ?_⟩
  intro j hj
  rw [hbit _ _ le_rfl h.levels]
  split_ifs with hji
  · simp [hji.2]
  · rw [h.leaf j hj]
    tauto

end Calls

variable {mask3 : ℕ → ℕ} {obj : IdObj}

section Create

variable {n range : ℕ} {mark : ℕ → (ℕ → ℕ → ℕ) → ℕ → ℕ → ℕ}

/-- The bitmaps after `idx` rounds of a creation loop. -/
structure Filled (w n range idx : ℕ) (b : ℕ → ℕ → ℕ) : Prop where
  word : ∀ k j, b k j < 2 ^ w
  leaf : ∀ i, i / w < idx → (bit w b n i = true ↔ i < range)
  mark : ∀ k i, 0 < k → k < n → i < w ^ k → (bit w b k i = true ↔ i * w ^ (n - 1 - k) < idx)

/-- `mark idx` sets the bit above word `idx` of row `n` in every row and nothing else. -/
structure Marks (w n : ℕ) (mark : ℕ → (ℕ → ℕ → ℕ) → ℕ → ℕ → ℕ) : Prop where
  word : ∀ idx b, idx < w ^ (n - 1) → (∀ k j, b k j < 2 ^ w) → ∀ k j, mark idx b k j < 2 ^ w
  leaf : ∀ idx b j, mark idx b n j = b n j
  row : ∀ idx b k i, idx < w ^ (n - 1) → 0 < k → k < n → i < w ^ k →
    bit w (mark idx b) k i = if i = idx / w ^ (n - 1 - k) then true else bit w b k i

theorem put_lt {j word : ℕ} (hb : ∀ k j, b k j < 2 ^ w) (hword : word < 2 ^ w) (k k' j' : ℕ) :
    put b k j word k' j' < 2 ^ w := by
  unfold put
  split_ifs
  · exact hword
  · exact hb k' j'

theorem mul_lt_succ_iff {m d : ℕ} (hd : 0 < d) : i * d < m + 1 ↔ i = m / d ∨ i * d < m := by
  rw [Nat.lt_succ_iff, ← Nat.le_div_iff_mul_le hd]
  constructor
  · intro h
    rcases h.lt_or_eq with hlt | heq
    · right
      calc i * d < (i + 1) * d := Nat.mul_lt_mul_of_pos_right (Nat.lt_succ_self i) hd
        _ ≤ m := (Nat.le_div_iff_mul_le hd).mp hlt
    · exact Or.inl heq
  · rintro (rfl | hlt)
    · exact le_rfl
    · exact (Nat.le_div_iff_mul_le hd).mpr hlt.le

/-- One round: the word `idx` gets its `count` or `w` leaves and the rows above are marked. -/
theorem Filled.round (hw : 0 < w) (hm : Marks w n mark) (h : Filled w n range idx b)
    (hidx : idx < w ^ (n - 1)) {m : ℕ} (hmw : m ≤ w) (hleaf : ∀ p < w, p < m ↔
    idx * w + p < range) :
    Filled w n range (idx + 1) (mark idx (put b n idx (2 ^ m - 1))) := by
  have hword : 2 ^ m - 1 < 2 ^ w :=
    lt_of_lt_of_le (Nat.sub_lt (Nat.two_pow_pos m) one_pos) (Nat.pow_le_pow_right (by norm_num) hmw)
  refine ⟨hm.word idx _ hidx (put_lt h.word hword n), ?_, ?_⟩
  · intro i hi
    rw [bit, hm.leaf, ← bit, bit_put]
    by_cases hlast : i / w = idx
    · rw [if_pos ⟨rfl, hlast⟩, Nat.testBit_two_pow_sub_one, decide_eq_true_iff,
        hleaf _ (Nat.mod_lt _ hw), ← hlast, Nat.mul_comm, Nat.div_add_mod]
    · rw [if_neg (by tauto)]
      exact h.leaf i (by omega)
  · intro k i hk hkn hi
    rw [hm.row idx _ k i hidx hk hkn hi, mul_lt_succ_iff (pow_pos hw _), ← h.mark k i hk hkn hi,
      bit_put_row hkn.ne]
    split_ifs with heq <;> simp [heq]

theorem createLoop_filled (hw : 0 < w) (hn : 0 < n) (hr : range ≤ w ^ n) (hm : Marks w n mark)
    (hrounds : count ≤ rounds) (hcount : count = range - idx * w) (hlow : ∀ j < idx, j * w < range)
    (h : Filled w n range idx b) :
    ∃ idx', range ≤ idx' * w ∧ (∀ j < idx', j * w < range) ∧
      Filled w n range idx' (createLoop w n mark rounds idx count b) := by
  induction rounds generalizing idx count b with
  | zero => exact ⟨idx, by omega, hlow, h⟩
  | succ rounds ih =>
    by_cases hzero : count = 0
    · rw [createLoop, if_pos hzero]
      exact ⟨idx, by omega, hlow, h⟩
    · have hidx : idx < w ^ (n - 1) := by
        have hpow : w ^ n = w ^ (n - 1) * w := by rw [← pow_succ, Nat.sub_add_cancel hn]
        exact Nat.lt_of_mul_lt_mul_right (show idx * w < w ^ (n - 1) * w by omega)
      have hlow' : ∀ j < idx + 1, j * w < range := by
        intro j hj
        exact (Nat.mul_le_mul_right w (Nat.lt_succ_iff.mp hj)).trans_lt (by omega)
      have hnext : (idx + 1) * w = idx * w + w := Nat.succ_mul idx w
      rw [createLoop]
      split_ifs with hge
      · exact ih (by omega) (by omega) hlow' (h.round hw hm hidx le_rfl (by omega))
      · exact ih (by omega) (by omega) hlow' (h.round hw hm hidx (by omega) (by omega))

theorem Filled.wf (hw : 0 < w) (hn : 0 < n) (hr : range ≤ w ^ n) (h : Filled w n range idx b)
    (hidx : range ≤ idx * w) (hlow : ∀ j < idx, j * w < range) : Wf w n range b := by
  -- a word of row `n` is in use iff the loop has filled it
  have huse : ∀ k i, k < n → (InUse w n range k i ↔ i * w ^ (n - 1 - k) < idx) := by
    intro k i hk
    rw [InUse, show n - k = n - 1 - k + 1 by omega, pow_succ, ← Nat.mul_assoc]
    exact ⟨fun hlt => Nat.lt_of_mul_lt_mul_right (hlt.trans_le hidx), hlow _⟩
  refine Wf.of_full hw h.word ?_
  intro k i hk hup
  rcases Nat.lt_or_ge (k + 1) n with hlt | hge
  · rw [huse _ _ hlt]
    refine h.mark (k + 1) i (by omega) hlt ?_
    have : i / w * w ^ (n - k) < w ^ k * w ^ (n - k) := by
      rw [← pow_add, show k + (n - k) = n by omega]
      exact lt_of_lt_of_le hup hr
    exact (Nat.div_lt_iff_lt_mul hw).mp (Nat.lt_of_mul_lt_mul_right this)
  · obtain rfl : n = k + 1 := by omega
    rw [inUse_leaf]
    refine h.leaf i ?_
    simpa using (huse _ _ hk).mp hup

theorem marks_markL1 : Marks w 2 markL1 := by
  refine ⟨?_, ?_, ?_⟩
  · intro idx b hidx hb
    exact put_lt hb (setBit_lt (hb _ _) (by simpa using hidx)) 1
  · intro idx b j
    exact put_of_ne (by omega)
  · intro idx b k i hidx hk hkn hi
    obtain rfl : k = 1 := by omega
    simp only [pow_one] at hi
    rw [markL1, bit_put, testBit_setBit, bit, Nat.div_eq_of_lt hi,
      Nat.mod_eq_of_lt hi]
    by_cases h : i = idx <;> simp [h]

theorem marks_markL2 (hw : 0 < w) : Marks w 3 (markL2 w) := by
  have hset : ∀ idx b, (∀ k j, b k j < 2 ^ w) → ∀ k j,
      put b 2 (idx / w) (setBit (b 2 (idx / w)) (idx % w)) k j < 2 ^ w := by
    intro idx b hb
    exact put_lt hb (setBit_lt (hb _ _) (Nat.mod_lt _ hw)) 2
  have hdiv : ∀ idx, idx < w ^ (3 - 1) → idx / w < w ^ (2 - 1) := by
    intro idx hidx
    rw [Nat.div_lt_iff_lt_mul hw, pow_one]
    rwa [pow_two] at hidx
  refine ⟨?_, ?_, ?_⟩
  · intro idx b hidx hb
    exact marks_markL1.word _ _ (hdiv idx hidx) (hset idx b hb)
  · intro idx b j
    simp only [markL2, markL1]
    rw [put_of_ne (by omega), put_of_ne (by omega)]
  · intro idx b k i hidx hk hkn hi
    simp only [markL2]
    rcases Nat.lt_or_ge k 2 with hk1 | hk2
    · rw [marks_markL1.row _ _ k i (hdiv idx hidx) hk hk1 hi, bit_put_row hk1.ne]
      obtain rfl : k = 1 := by omega
      simp
    · obtain rfl : k = 2 := by omega
      rw [markL1, bit_put_row (by omega), bit_put_write hw (set_bits _)]
      simp

theorem filled_zero (range : ℕ) {b : ℕ → ℕ → ℕ} (hb : ∀ k j, b k j < 2 ^ w)
    (hzero : ∀ k j, k < n → b k j = 0) : Filled w n range 0 b := by
  refine ⟨hb, fun i hi => absurd hi (Nat.not_lt_zero _), ?_⟩
  intro k i _ hk _
  simp [bit, hzero k _ hk]

/-- The words that stand above no leaf: `mask` in the last row, and 0 above. -/
def Behind (w : ℕ) (mask : ℕ → ℕ) (obj : IdObj) : Prop :=
  ∀ k j, k < obj.numLevels → j < w ^ k → ¬ InUse w obj.numLevels obj.range k j →
    obj.bitmaps (k + 1) j = if k + 1 = obj.numLevels then mask j else 0

theorem Behind.same {mask : ℕ → ℕ} {obj : IdObj} {allocCount : ℕ} (h : Behind w mask obj)
    (hb : SameBehind w obj.numLevels obj.range obj.bitmaps b) :
    Behind w mask { obj with bitmaps := b, allocCount := allocCount } :=
  fun k j hk hj hout => (hb k j hk hout).trans (h k j hk hj hout)

/-- The summary bits behind the range are 0, so they are right if the words are. -/
theorem IdInv.summariesRight_iff {mask : ℕ → ℕ} {obj : IdObj} {live : ℕ → Prop}
    (h : IdInv w obj live) (hmask : Behind w mask obj) (hn : 2 ≤ obj.numLevels) :
    SummariesRight w obj ↔
      ∀ j < w ^ (obj.numLevels - 1), obj.range ≤ j * w → mask j = 0 := by
  have hlast : ∀ j, InUse w obj.numLevels obj.range (obj.numLevels - 1) j ↔ j * w < obj.range := by
    intro j
    rw [InUse, show obj.numLevels - (obj.numLevels - 1) = 1 by omega, pow_one]
  have hbit : ∀ k j, k + 1 < obj.numLevels → j < w ^ (k + 1) →
      ¬ InUse w obj.numLevels obj.range (k + 1) j → bit w obj.bitmaps (k + 1) j = false := by
    intro k j hk hj hout
    by_cases hup : InUse w obj.numLevels obj.range k (j / w)
    · exact h.wf.tail k j (by omega) hup hout
    · have hword := hmask k (j / w) (by omega) (Nat.div_lt_of_lt_mul (by rwa [← pow_succ'])) hup
      rw [bit, hword, if_neg (by omega), Nat.zero_testBit]
  constructor
  · intro hright j hj hout
    have hj' := (not_congr (hlast j)).mpr (not_lt.mpr hout)
    have hword := hmask _ j (by omega) hj hj'
    rw [if_pos (by omega)] at hword
    have hright := hright (obj.numLevels - 1) j (by omega) (by omega) hj
    rw [show obj.numLevels - 1 = obj.numLevels - 2 + 1 by omega] at hj hj' hright hword
    rw [hbit _ j (by omega) hj hj', hword] at hright
    simpa using hright
  · intro hzero level j hpos hlevel hj
    obtain ⟨k, rfl⟩ : ∃ k, level = k + 1 := ⟨level - 1, by omega⟩
    by_cases hin : InUse w obj.numLevels obj.range (k + 1) j
    · exact h.wf.summary k j hlevel hin id
    · rw [hbit k j hlevel hj hin, hmask (k + 1) j hlevel hj hin]
      split_ifs with hk
      · rw [show k + 1 = obj.numLevels - 1 by omega] at hin hj
        rw [hzero j hj (not_lt.mp fun hlt => hin ((hlast j).mpr hlt))]
        simp
      · simp

/-- The words behind the last one that the loop fills stay as they are. -/
theorem createLoop_beyond (hm : Marks w n mark) {j : ℕ} (hj : idx * w + count ≤ j * w) :
    createLoop w n mark rounds idx count b n j = b n j := by
  induction rounds generalizing idx count b with
  | zero => rfl
  | succ rounds ih =>
    rw [createLoop]
    by_cases hzero : count = 0
    · rw [if_pos hzero]
    · have hlt : idx < j := Nat.lt_of_mul_lt_mul_right (show idx * w < j * w by omega)
      have hnext : (idx + 1) * w = idx * w + w := Nat.succ_mul idx w
      have hle : (idx + 1) * w ≤ j * w := Nat.mul_le_mul_right w hlt
      have hkeep : ∀ v, mark idx (put b n idx v) n j = b n j := by
        intro v
        rw [hm.leaf, put_of_ne (by omega)]
      split_ifs
      all_goals rw [ih (by omega), hkeep]

theorem createLoop_inv (base allocCount : ℕ) (hw : 0 < w) (hn : 0 < n) (hr : range ≤ w ^ n)
    (hm : Marks w n mark) (hb : ∀ k j, b k j < 2 ^ w) (hzero : ∀ k j, k < n → b k j = 0) :
    IdInv w ⟨base, range, allocCount, n, createLoop w n mark range 0 range b⟩ (fun _ => False) ∧
      Behind w (b n) ⟨base, range, allocCount, n, createLoop w n mark range 0 range b⟩ := by
  obtain ⟨idx, hidx, hlow, hfill⟩ := createLoop_filled hw hn hr hm (le_refl range) (by omega)
    (fun j hj => absurd hj (Nat.not_lt_zero j)) (filled_zero range hb hzero)
  refine ⟨⟨hw, hn, hr, hfill.wf hw hn hr hidx hlow, fun i hi => ?_⟩, ?_⟩
  · rw [hfill.leaf i ((Nat.div_lt_iff_lt_mul hw).mpr (hi.trans_le hidx))]
    exact iff_of_true hi id
  intro k j hk hj hout
  dsimp only at hk hout ⊢
  split_ifs with hlast
  · subst hlast
    rw [InUse, show k + 1 - k = 1 by omega, pow_one, not_lt] at hout
    exact createLoop_beyond hm (by omega)
  · -- a bit of the word would be marked for a leaf
    by_contra hne
    obtain ⟨p, hp, hset⟩ := (ne_zero_iff_testBit (hfill.word _ _)).mp hne
    obtain ⟨hdiv, hmod⟩ := div_mod_of_word hp
    have hin : j * w + p < w ^ (k + 1) := by
      have := Nat.mul_le_mul_right w hj
      rw [Nat.succ_mul] at this
      rw [pow_succ]
      omega
    have hidx := (hfill.mark (k + 1) _ k.succ_pos (by omega) hin).mp (by rwa [bit, hdiv, hmod])
    have huse : InUse w n range (k + 1) (j * w + p) := by
      rw [InUse, show n - (k + 1) = n - 1 - (k + 1) + 1 by omega, pow_succ, ← Nat.mul_assoc]
      exact hlow _ hidx
    exact hout (hdiv ▸ huse.up hk)

/-- A new object is right exactly if the words behind the range are zero. -/
theorem IdInv.createdRight_iff {mask : ℕ → ℕ} {obj : IdObj} (h : IdInv w obj fun _ => False)
    (hmask : Behind w mask obj) (hn : 2 ≤ obj.numLevels) :
    CreatedRight w obj.range obj ↔ ∀ j < w ^ (obj.numLevels - 1), obj.range ≤ j * w → mask j = 0 := by
  refine ⟨fun hright => (h.summariesRight_iff hmask hn).mp hright.upper,
    fun hzero => ⟨fun i hi => ?_, (h.summariesRight_iff hmask hn).mpr hzero⟩⟩
  by_cases hlt : i < obj.range
  · exact iff_of_true ((h.leaf i hlt).mpr id) hlt
  refine iff_of_false ?_ hlt
  rw [Bool.not_eq_true]
  obtain ⟨k, hk⟩ : ∃ k, obj.numLevels = k + 1 := ⟨obj.numLevels - 1, by omega⟩
  have hwf := h.wf
  rw [Behind, hk] at hmask
  rw [hk] at hi hzero hwf ⊢
  by_cases hup : InUse w (k + 1) obj.range k (i / w)
  · exact hwf.tail k i k.lt_succ_self hup (mt inUse_leaf.mp hlt)
  · have hj : i / w < w ^ k := Nat.div_lt_of_lt_mul (by rwa [← pow_succ'])
    rw [bit, hmask k _ k.lt_succ_self hj hup, if_pos rfl, hzero _ hj, Nat.zero_testBit]
    simpa [InUse] using hup

theorem update_mask3_lt (hmask3 : ∀ j, mask3 j < 2 ^ w) (k j : ℕ) :
    update (fun _ _ => 0) 3 mask3 k j < 2 ^ w := by
  rw [update_apply]
  split_ifs
  · exact hmask3 j
  · exact Nat.two_pow_pos w

theorem idAllocCreate_inv (hmask3 : ∀ j, mask3 j < 2 ^ w)
    (h : idAllocCreate w mask3 first last = some obj) (hr : w < obj.range) :
    IdInv w obj (fun _ => False) ∧ obj.base = first ∧
      obj.range = (last + 2 ^ w - first + 1) % 2 ^ w ∧
      ∃ n mask, obj.numLevels = n ∧ Behind w mask obj ∧
        (n = 2 ∧ obj.range ≤ w * w ∧ mask = 0 ∨ n = 3 ∧ w * w < obj.range ∧ mask = mask3) := by
  have hzero : ∀ k j : ℕ, (fun _ _ => 0 : ℕ → ℕ → ℕ) k j < 2 ^ w := fun _ _ => Nat.two_pow_pos w
  simp only [idAllocCreate] at h
  split_ifs at h with h1 h2 h3
  · simp only [IdObj.createL1] at h
    split_ifs at h with hlt
    obtain rfl := some.inj h
    exact absurd hlt (not_lt.mpr hr.le)
  · have hw : 0 < w := Nat.pos_of_ne_zero fun h0 => by subst h0; omega
    have hr2 := h2.trans_eq (pow_two w).symm
    obtain rfl := some.inj h
    obtain ⟨hinv, hbehind⟩ := createLoop_inv first 0 hw two_pos hr2 marks_markL1 hzero fun _ _ _ => rfl
    exact ⟨hinv, rfl, rfl, 2, _, rfl, hbehind, .inl ⟨rfl, h2, rfl⟩⟩
  · have hw : 0 < w := Nat.pos_of_ne_zero fun h0 => by subst h0; omega
    have hr3 := h3.trans_eq (show w * w * w = w ^ 3 by rw [pow_succ, pow_two])
    have hupper : ∀ k j, k < 3 → update (fun _ _ => 0) 3 mask3 k j = 0 := by
      intro k j hk
      rw [update_of_ne hk.ne]
    obtain ⟨hinv, hbehind⟩ := createLoop_inv first 0 hw three_pos hr3 (marks_markL2 hw)
      (update_mask3_lt hmask3) hupper
    obtain rfl := some.inj h
    exact ⟨hinv, rfl, rfl, 3, _, rfl, hbehind, .inr ⟨rfl, not_le.mp h2, update_self _ _ _⟩⟩

theorem range_word (hle : first ≤ last) (hlt : last - first + 1 < 2 ^ w) :
    (last + 2 ^ w - first + 1) % 2 ^ w = last - first + 1 := by
  rw [show last + 2 ^ w - first + 1 = last - first + 1 + 2 ^ w by omega, Nat.add_mod_right,
    Nat.mod_eq_of_lt hlt]

/-- A range of exactly one word is shifted out of it, and the words of `mask3` behind the range are
those of the pages. -/
theorem id_alloc_create_exact_iff {mask3 : ℕ → ℕ} (hw : w = 32 ∨ w = 64)
    (hmask3 : ∀ j, mask3 j < 2 ^ w) (hle : first ≤ last) (hmax : last - first + 1 ≤ w * w * w) :
    (∃ obj, idAllocCreate w mask3 first last = some obj ∧ CreatedRight w (last - first + 1) obj) ↔
      last - first + 1 ≠ w ∧ (w * w < last - first + 1 → ∀ j < w * w, last - first + 1 ≤ j * w →
      mask3 j = 0) := by
  have hfit : last - first + 1 < 2 ^ w := by
    refine lt_of_le_of_lt hmax ?_
    rcases hw with rfl | rfl <;> norm_num
  have hpos : 0 < w := by omega
  simp only [idAllocCreate, range_word hle hfit]
  obtain ⟨range, hrange⟩ : ∃ range, range = last - first + 1 := ⟨_, rfl⟩
  rw [← hrange] at hmax ⊢
  split_ifs with h1 h2
  · have hsmall : ¬ w * w < range := Nat.not_lt.mpr (h1.trans (Nat.le_mul_self w))
    rcases h1.lt_or_eq with hlt | heq
    · refine iff_of_true ⟨_, if_pos hlt, ?_,
        fun level j hone hlevel => absurd hone (Nat.not_le.mpr hlevel)⟩
        ⟨hlt.ne, fun h => absurd h hsmall⟩
      intro i hi
      rw [pow_one] at hi
      simp [bit, Nat.div_eq_of_lt hi, Nat.mod_eq_of_lt hi]
    · simp [IdObj.createL1, heq]
  · have hr : range ≤ w ^ 2 := by rwa [pow_two]
    obtain ⟨hinv, hbehind⟩ := createLoop_inv first 0 hpos two_pos hr marks_markL1
      (fun _ _ => Nat.two_pow_pos w) fun _ _ _ => rfl
    exact iff_of_true ⟨_, rfl, (hinv.createdRight_iff hbehind le_rfl).mpr fun _ _ _ =>
      rfl⟩ ⟨by omega, fun h => absurd h (Nat.not_lt.mpr h2)⟩
  · have hr : range ≤ w ^ 3 := by rwa [pow_succ, pow_two]
    obtain ⟨hinv, hbehind⟩ := createLoop_inv first 0 hpos three_pos hr (marks_markL2 hpos)
      (update_mask3_lt hmask3) fun k j hk => by rw [update_of_ne hk.ne]
    have hright := hinv.createdRight_iff hbehind (show 2 ≤ 3 by decide)
    simp only [show w ^ (3 - 1) = w * w from pow_two w, update_self] at hright
    simp only [some.injEq, exists_eq_left', IdObj.createL3, hright]
    exact ⟨fun h => ⟨by omega, fun _ => h⟩, fun h => h.2 (Nat.not_le.mp h2)⟩

theorem id_alloc_create_exact_hundred :
    ∃ obj, idAllocCreate 64 (fun _ => 0) 1 100 = some obj ∧ CreatedRight 64 100 obj :=
  (id_alloc_create_exact_iff (Or.inr rfl) (fun _ => by norm_num) (by norm_num) (by norm_num)).mpr
    ⟨by norm_num, fun _ _ _ _ => rfl⟩

theorem id_alloc_create_shifts_out :
    ¬ ∃ obj, idAllocCreate 64 (fun _ => 0) 1 64 = some obj ∧ CreatedRight 64 64 obj := by
  rintro ⟨obj, hcreate, -⟩
  have hnone : (idAllocCreate 64 (fun _ => 0) 1 64).isNone = true := by decide +kernel
  rw [hcreate] at hnone
  cases hnone

end Create

/-- The live ids are those whose leaves are clear. -/
structure IdStateInv (w first last n : ℕ) (mask : ℕ → ℕ) (s : IdState) : Prop where
  inv : IdInv w s.obj fun i => first + i ∈ s.live
  levels : s.obj.numLevels = n
  behind : Behind w mask s.obj
  base : s.obj.base = first
  range : s.obj.range = last - first + 1
  bounds : first ≤ last ∧ last < 2 ^ w
  nodup : s.live.Nodup
  mem : ∀ id ∈ s.live, first ≤ id ∧ id ≤ last

theorem IdInv.congr {live live' : ℕ → Prop} (h : IdInv w obj live) (hl : ∀ i, live i ↔ live' i) :
    IdInv w obj live' := by
  obtain rfl : live = live' := funext fun i => propext (hl i)
  exact h

namespace IdStateInv

/-- Fewer live ids than the range has leave a leaf free. -/
theorem exists_free (hlen : s.live.length < s.obj.range) :
    ∃ i < s.obj.range, ¬ first + i ∈ s.live := by
  by_contra hall
  push Not at hall
  have hsub : (List.range s.obj.range).map (first + ·) ⊆ s.live := by
    intro id hid
    obtain ⟨i, hi, rfl⟩ := mem_map.mp hid
    exact hall i (mem_range.mp hi)
  have hnd : ((List.range s.obj.range).map (first + ·)).Nodup :=
    nodup_range.map (add_right_injective first)
  have hle := (hnd.subperm hsub).length_le
  rw [length_map, length_range] at hle
  omega

section

variable {n : ℕ} {mask : ℕ → ℕ} (h : IdStateInv w first last n mask s)
include h

theorem alloc (hlen : s.live.length < s.obj.range) (hcount : s.obj.allocCount ≠ s.obj.range) :
    ∃ obj id, idAlloc w s.obj = (obj, some id) ∧
    IsLeast {id | first ≤ id ∧ id ≤ last ∧ id ∉ s.live} id ∧
      IdStateInv w first last n mask ⟨obj, id :: s.live⟩ := by
  obtain ⟨b, i, halloc, ⟨⟨hi, hfree⟩, hmin⟩, hsame, hinv⟩ := h.inv.alloc (exists_free hlen) hcount
  obtain ⟨hle, hlast⟩ := h.bounds
  have hrange := h.range
  have hid : (s.obj.base + i) % 2 ^ w = first + i := by rw [h.base, Nat.mod_eq_of_lt (by omega)]
  rw [hid] at halloc
  refine ⟨_, _, halloc, ⟨⟨by omega, by omega, hfree⟩, ?_⟩, ?_⟩
  · rintro id ⟨hfirst, hid, hnot⟩
    have := hmin ⟨show id - first < s.obj.range by omega, by
      rwa [show first + (id - first) = id by omega]⟩
    omega
  · refine ⟨hinv.congr fun j => ?_, h.levels, h.behind.same hsame, h.base, h.range, h.bounds,
      nodup_cons.mpr ⟨hfree, h.nodup⟩, ?_⟩
    · rw [mem_cons, add_right_inj]
      exact or_comm
    · exact forall_mem_cons.mpr ⟨⟨by omega, by omega⟩, h.mem⟩

theorem free {id : ℕ} (hid : id ∈ s.live) :
    ∃ obj, idFree w s.obj id = some obj ∧ IdStateInv w first last n mask ⟨obj,
    s.live.erase id⟩ := by
  obtain ⟨hfirst, hlast⟩ := h.mem id hid
  obtain ⟨i, rfl⟩ := Nat.exists_eq_add_of_le hfirst
  have hbounds := h.bounds
  have hi : i < s.obj.range := by
    have := h.range
    omega
  obtain ⟨b, hloop, hsame, hinv⟩ := h.inv.free ((s.obj.allocCount + 2 ^ w - 1) % 2 ^ w) hi hid
  have hidx : (first + i + 2 ^ w - s.obj.base) % 2 ^ w = i := by
    rw [h.base, show first + i + 2 ^ w - first = i + 2 ^ w by omega, Nat.add_mod_right,
      Nat.mod_eq_of_lt (by omega)]
  refine ⟨_, ?_, hinv.congr fun j => ?_, h.levels, h.behind.same hsame, h.base, h.range, h.bounds,
    h.nodup.erase _, ?_⟩
  · simp [idFree, hidx, if_neg (not_le.mpr hi), hloop]
  · rw [h.nodup.mem_erase_iff, (add_right_injective first).ne_iff]
    exact and_comm
  · intro id' hid'
    exact h.mem id' (mem_of_mem_erase hid')

theorem step {a : IdAction} {s' : IdState} (hok : CountBelowRange s a)
    (hs : idStep w s a = some s') : IdStateInv w first last n mask s' := by
  cases a with
  | alloc =>
    simp only [idStep] at hs
    split_ifs at hs with hlen
    obtain ⟨obj, id, halloc, -, hinv⟩ := h.alloc hlen hok
    rw [halloc] at hs
    obtain rfl := some.inj hs
    exact hinv
  | free id =>
    simp only [idStep] at hs
    split_ifs at hs with hid
    obtain ⟨obj, hfree, hinv⟩ := h.free hid
    rw [hfree] at hs
    obtain rfl := some.inj hs
    exact hinv

theorem ok : IdOk w first last CountBelowRange s := by
  refine ⟨h.nodup, h.mem, ?_, ?_, ?_⟩
  · intro hcount hlen
    obtain ⟨obj, id, halloc, hleast, -⟩ := h.alloc (h.range ▸ hlen) hcount
    exact ⟨id, by rw [halloc], hleast⟩
  · intro id hid _
    obtain ⟨obj, hfree, -⟩ := h.free hid
    exact ⟨obj, hfree⟩
  · intro level j hpos hlt hj
    obtain ⟨k, rfl⟩ : ∃ k, level = k + 1 := ⟨level - 1, by omega⟩
    exact h.inv.wf.summary k j hlt hj id

/-- An id is given out and taken back, and `alloc_count` is one less. -/
theorem cycle (hlive : s.live = []) (hcount : s.obj.allocCount ≠ s.obj.range) :
    ∃ t, Reach (idStep w) anyStep s t ∧ IdStateInv w first last n mask t ∧ t.live = [] ∧
      t.obj.allocCount = (s.obj.allocCount + 2 ^ w - 1) % 2 ^ w := by
  have hlen : s.live.length < s.obj.range := by
    rw [hlive, h.range]
    exact Nat.succ_pos _
  obtain ⟨obj, id, halloc, -, hinv⟩ := h.alloc hlen hcount
  obtain ⟨obj', hfree, hinv'⟩ := hinv.free mem_cons_self
  have hstep : idStep w s .alloc = some ⟨obj, id :: s.live⟩ := by simp [idStep, hlen, halloc]
  have hstep' : idStep w ⟨obj, id :: s.live⟩ (.free id) = some ⟨obj', s.live⟩ := by
    simp [idStep, hfree]
  rw [erase_cons_head] at hinv'
  refine ⟨_, (Relation.ReflTransGen.single ⟨_, trivial, hstep⟩).tail ⟨_, trivial, hstep'⟩, hinv',
    hlive, ?_⟩
  have hkeep := (idAlloc_keeps w s.obj).1
  rw [halloc] at hkeep
  rw [(idFree_keeps hfree).1, hkeep]

/-- `k + 1` such cycles from a count of 0. -/
theorem cycles (hlive : s.live = []) (hcount : s.obj.allocCount = 0) {k : ℕ}
    (hk : k + s.obj.range < 2 ^ w) : ∃ t, Reach (idStep w) anyStep s t ∧
    IdStateInv w first last n mask t ∧ t.live = [] ∧
      t.obj.allocCount = 2 ^ w - 1 - k := by
  have hrange := h.range
  induction k with
  | zero =>
    obtain ⟨t, hst, ht, htl, htc⟩ := h.cycle hlive (by omega)
    refine ⟨t, hst, ht, htl, ?_⟩
    rw [htc, hcount, Nat.zero_add, Nat.mod_eq_of_lt (by omega), Nat.sub_zero]
  | succ k ih =>
    obtain ⟨t, hst, ht, htl, htc⟩ := ih (by omega)
    obtain ⟨u, htu, hu, hul, huc⟩ := ht.cycle htl (by rw [htc, ht.range]; omega)
    refine ⟨u, hst.trans htu, hu, hul, ?_⟩
    rw [huc, htc, show 2 ^ w - 1 - k + 2 ^ w - 1 = 2 ^ w - 1 - (k + 1) + 2 ^ w by omega,
      Nat.add_mod_right, Nat.mod_eq_of_lt (by omega)]

end

end IdStateInv

theorem idAllocCreate_state (hbounds : first ≤ last ∧ last < 2 ^ w) (hmask3 : ∀ j, mask3 j < 2 ^ w)
    (hcreate : idAllocCreate w mask3 first last = some obj) (hr : w < obj.range) :
    ∃ n mask, IdStateInv w first last n mask ⟨obj, []⟩ ∧
      (n = 2 ∧ obj.range ≤ w * w ∧ mask = 0 ∨ n = 3 ∧ w * w < obj.range ∧ mask = mask3) := by
  obtain ⟨hinv, hbase, hrange, n, mask, hn, hbehind, hlevels⟩ := idAllocCreate_inv hmask3 hcreate hr
  have hrange' : obj.range = last - first + 1 := by
    refine hrange.trans (range_word hbounds.1 (lt_of_le_of_ne (by omega) fun hfull => ?_))
    rw [show last + 2 ^ w - first + 1 = last - first + 1 + 2 ^ w by omega, hfull, Nat.add_mod_right,
      Nat.mod_self] at hrange
    omega
  exact ⟨n, mask, ⟨hinv.congr fun i => by simp, hn, hbehind, hbase, hrange', hbounds,
    nodup_nil, by simp⟩, hlevels⟩

/-- While `alloc_count` is not the range at an allocation, ids come out smallest first and the
summary bits of the words in use are right. Those of all words are if `mask3` is 0 behind the
range. -/
theorem id_alloc_smallest {mask3 : ℕ → ℕ} {obj : IdObj} (hbounds : first ≤ last ∧ last < 2 ^ w)
    (hmask3 : ∀ j, mask3 j < 2 ^ w) (hcreate : idAllocCreate w mask3 first last = some obj)
    (hr : w < obj.range) (hreach : Reach (idStep w) CountBelowRange ⟨obj, []⟩ s) :
    IdOk w first last CountBelowRange s ∧ (SummariesRight w s.obj ↔
      (w * w < obj.range → ∀ j < w * w, obj.range ≤ j * w → mask3 j = 0)) := by
  obtain ⟨n, mask, h0, hlevels⟩ := idAllocCreate_state hbounds hmask3 hcreate hr
  have hs := hreach.invariant h0 fun u a v hu hok hs => hu.step hok hs
  refine ⟨hs.ok, ?_⟩
  rw [hs.inv.summariesRight_iff hs.behind (by rw [hs.levels]; omega), hs.levels,
    hs.range, ← h0.range]
  rcases hlevels with ⟨rfl, hsmall, rfl⟩ | ⟨rfl, hbig, rfl⟩
  · exact iff_of_true (fun _ _ _ => rfl) fun h => absurd h (not_lt.mpr hsmall)
  · rw [show w ^ (3 - 1) = w * w from pow_two w]
    exact ⟨fun h _ => h, fun h => h hbig⟩

theorem id_alloc_smallest_hundred : ∃ obj s, idAllocCreate 64 (fun _ => 0) 1 100 = some obj ∧
    64 < obj.range ∧ Reach (idStep 64) CountBelowRange ⟨obj, []⟩ s ∧ s.live = [2] ∧
    IdOk 64 1 100 CountBelowRange s ∧ SummariesRight 64 s.obj := by
  have hrun : (idAllocCreate 64 (fun _ => 0) 1 100).any fun obj =>
      (execute (idStep 64) CountBelowRange ⟨obj, []⟩ [.alloc, .alloc, .free 1]).any fun s =>
        64 < obj.range ∧ s.live = [2] := by decide +kernel
  obtain ⟨obj, hobj, hs⟩ := (Option.any_eq_true ..).mp hrun
  obtain ⟨s, hs, hr, hlive⟩ := exists_reach _ hs
  obtain ⟨hok, hsummary⟩ :=
    id_alloc_smallest ⟨by norm_num, by norm_num⟩ (fun _ => by norm_num) hobj hr hs
  exact ⟨obj, s, hobj, hr, hs, hlive, hok, hsummary.mpr fun _ _ _ _ => rfl⟩

theorem idAllocCreate_counts (h : idAllocCreate w mask3 first last = some obj) :
    obj.allocCount = 0 ∧ obj.range < 2 ^ w := by
  have hlt : (last + 2 ^ w - first + 1) % 2 ^ w < 2 ^ w := Nat.mod_lt _ (Nat.two_pow_pos w)
  simp only [idAllocCreate, IdObj.createL1, IdObj.createL2, IdObj.createL3] at h
  split_ifs at h
  all_goals
    obtain rfl := some.inj h
    exact ⟨rfl, hlt⟩

/-- After enough allocations and frees `alloc_count` equals the range, and `id_alloc` fails although
every id is free. -/
theorem id_alloc_fails_with_all_free :
    ∃ obj s, idAllocCreate 64 (fun _ => 0) 1 100 = some obj ∧ 64 < obj.range ∧
    Reach (idStep 64) anyStep ⟨obj, []⟩ s ∧ ¬ IdOk 64 1 100 anyStep s := by
  have hrun : (idAllocCreate 64 (fun _ => 0) 1 100).any fun obj =>
    64 < obj.range := by decide +kernel
  obtain ⟨obj, hobj, hr⟩ := (Option.any_eq_true ..).mp hrun
  rw [decide_eq_true_eq] at hr
  obtain ⟨n, mask, h, -⟩ := idAllocCreate_state ⟨by norm_num, by norm_num⟩ (fun _ => by
    norm_num) hobj hr
  have hrange : obj.range = 100 := h.range
  obtain ⟨k, hk⟩ : ∃ k, k + 101 = 2 ^ 64 := ⟨2 ^ 64 - 101, by norm_num⟩
  obtain ⟨s, hs, hinv, hlive, hcount⟩ :=
    h.cycles rfl (idAllocCreate_counts hobj).1 (k := k) (by dsimp only; omega)
  refine ⟨obj, s, hobj, hr, hs, fun hok => ?_⟩
  obtain ⟨id, hid, -⟩ := hok.alloc trivial (by rw [hlive]; norm_num)
  rw [idAlloc, if_pos (by rw [hcount, hinv.range]; omega)] at hid
  cases hid

/-- `alloc_count` is the number of live ids less that of the ids given out, modulo the word. -/
structure CountedInv (w : ℕ) (s : IdState × ℕ) : Prop where
  word : s.1.obj.allocCount < 2 ^ w
  range : s.1.obj.range < 2 ^ w
  live : s.1.live.length ≤ s.1.obj.range
  count : s.1.obj.allocCount + s.2 ≡ s.1.live.length [MOD 2 ^ w]

theorem CountedInv.step {s s' : IdState × ℕ} {a : IdAction} (h : CountedInv w s)
    (hs : countedStep w s a = some s') : CountedInv w s' := by
  obtain ⟨t, ht, rfl⟩ := map_eq_some_iff.mp hs
  cases a with
  | alloc =>
    simp only [idStep] at ht
    split_ifs at ht with hlen
    obtain ⟨hcount, hrange⟩ := idAlloc_keeps w s.1.obj
    obtain rfl := some.inj ht
    rcases hid : (idAlloc w s.1.obj).2 with _ | id
    · exact ⟨hcount ▸ h.word, hrange ▸ h.range, by simpa [hid, hrange] using h.live,
        by simpa [hid, hcount] using h.count⟩
    · refine ⟨hcount ▸ h.word, hrange ▸ h.range, by simpa [hid, hrange, Nat.add_comm 1] using hlen, ?_⟩
      simpa [hid, hcount, Nat.add_comm 1, ← Nat.add_assoc] using h.count.add_right 1
  | free id =>
    simp only [idStep] at ht
    split_ifs at ht with hid
    obtain ⟨obj, hfree, rfl⟩ := map_eq_some_iff.mp ht
    obtain ⟨hcount, hrange⟩ := idFree_keeps hfree
    have hlive := h.live
    have hpos := length_pos_of_mem hid
    have hlen := length_erase_of_mem hid
    refine ⟨hcount ▸ Nat.mod_lt _ (Nat.two_pow_pos w),
      hrange ▸ h.range, by simp only [hlen, hrange]; omega, ?_⟩
    simp only [hlen, hcount, show s.1.live.length - 1 - s.1.live.length = 0 by omega, Nat.add_zero]
    apply Nat.ModEq.add_right_cancel' 1
    rw [Nat.sub_add_cancel hpos]
    calc (s.1.obj.allocCount + 2 ^ w - 1) % 2 ^ w + s.2 + 1
        ≡ s.1.obj.allocCount + 2 ^ w - 1 + s.2 + 1 [MOD 2 ^ w] :=
        ((Nat.mod_modEq _ _).add_right _).add_right 1
      _ = s.1.obj.allocCount + s.2 + 2 ^ w := by have := Nat.two_pow_pos w; omega
      _ ≡ s.1.obj.allocCount + s.2 [MOD 2 ^ w] := Nat.add_modEq_right
      _ ≡ s.1.live.length [MOD 2 ^ w] := h.count

theorem CountedInv.reports_iff {s : IdState × ℕ} (h : CountedInv w s) : ReportsExhaustion w s.1 ↔
    2 ^ w ∣ s.2 := by
  constructor
  · intro hreports
    have hcount := h.count
    rw [← hreports.count] at hcount
    exact (Nat.modEq_zero_iff_dvd).mp (Nat.ModEq.add_left_cancel' _ hcount)
  · intro hdvd
    have hmod : s.1.obj.allocCount ≡ s.1.live.length [MOD 2 ^ w] :=
      (((Nat.modEq_zero_iff_dvd).mpr hdvd).add_left _).symm.trans h.count
    have hcount := hmod.eq_of_lt_of_lt h.word (h.live.trans_lt h.range)
    refine ⟨hcount, fun hfull => ?_⟩
    have halloc : idAlloc w s.1.obj = (s.1.obj, none) := if_pos (hcount.trans hfull)
    exact ⟨halloc, by rw [allocAsid, halloc]⟩

/-- Nothing counts the allocations, so the counter is right when their number is 0 modulo the
word. -/
theorem id_exhaustion_reported_iff {mask3 : ℕ → ℕ} {obj : IdObj} {s : IdState × ℕ}
    (hcreate : idAllocCreate w mask3 first last = some obj)
    (hreach : Reach (countedStep w) anyStep (⟨obj, []⟩, 0) s) : ReportsExhaustion w s.1 ↔
      2 ^ w ∣ s.2 := by
  obtain ⟨hzero, hrange⟩ := idAllocCreate_counts hcreate
  have h0 : CountedInv w (⟨obj, []⟩, 0) :=
    ⟨by simp [hzero], hrange, Nat.zero_le _, by simp [hzero, Nat.ModEq.refl]⟩
  exact (hreach.invariant h0 fun u a v hu _ hs => hu.step hs).reports_iff

/-- Words of three bits: the counter is right again after eight allocations. -/
theorem id_exhaustion_reported_after_eight : ∃ obj s, idAllocCreate 3 (fun _ => 0) 1 5 = some obj ∧
    Reach (countedStep 3) anyStep (⟨obj, []⟩, 0) s ∧ s.1.live.length = 4 ∧
    ReportsExhaustion 3 s.1 := by
  have hrun : (idAllocCreate 3 (fun _ => 0) 1 5).any fun obj =>
    (execute (countedStep 3) anyStep (⟨obj, []⟩, 0)
      [.alloc, .alloc, .alloc, .alloc, .alloc, .free 1, .alloc, .free 1, .alloc, .free 1, .free 2,
      .alloc]).any
        fun s => s.1.live.length = 4 ∧ s.2 = 8 := by decide +kernel
  obtain ⟨obj, hobj, hs⟩ := (Option.any_eq_true ..).mp hrun
  obtain ⟨s, hs, hlive, hgiven⟩ := exists_reach _ hs
  exact ⟨obj, s, hobj, hs, hlive, (id_exhaustion_reported_iff hobj hs).mpr (by rw [hgiven]; decide)⟩

/-- One id is live and the counter is 0. -/
theorem id_alloc_not_counted : ∃ obj s, idAllocCreate 64 (fun _ => 0) 1 100 = some obj ∧
    Reach (countedStep 64) anyStep (⟨obj, []⟩, 0) s ∧ ¬ ReportsExhaustion 64 s.1 := by
  have hrun : (idAllocCreate 64 (fun _ => 0) 1 100).any fun obj =>
    (execute (countedStep 64) anyStep (⟨obj, []⟩, 0)
      [.alloc]).any fun s => s.1.obj.allocCount = 0 ∧ s.1.live = [1] := by decide +kernel
  obtain ⟨obj, hobj, hs⟩ := (Option.any_eq_true ..).mp hrun
  obtain ⟨s, hs, hcount, hlive⟩ := exists_reach _ hs
  refine ⟨obj, s, hobj, hs, fun h => ?_⟩
  have := h.count
  rw [hcount, hlive] at this
  cases this

end Toddler
