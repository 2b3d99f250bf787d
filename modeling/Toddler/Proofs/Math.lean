import Toddler.Lib.Word
import Toddler.Spec.Math

/-! The software arithmetic is right as far as `0x1u << i` is defined. -/

namespace Toddler

open BitVec

variable {w n i : ℕ} {beyond : ℕ → BitVec 32}

theorem toNat_pos {b : BitVec w} (hb : b ≠ 0) : 0 < b.toNat := Nat.pos_of_ne_zero fun h =>
    hb (eq_of_toNat_eq h)

theorem oneShl_of_lt (hi : i < 32) : oneShl beyond w i = twoPow w i := by
  refine eq_of_toNat_eq ?_
  have h32 : 2 ^ i < 2 ^ 32 := Nat.pow_lt_pow_right (by norm_num) hi
  rw [oneShl, if_pos hi, toNat_setWidth, toNat_twoPow, toNat_shiftLeft, Nat.shiftLeft_eq,
    toNat_ofNat, Nat.one_mul, Nat.mod_eq_of_lt h32]

section Mul

variable {a b : BitVec w}

/-- The rounds below 32 multiply by the low bits of `b`. -/
theorem mulLoop_low (hn : n ≤ 32) (hw : n ≤ w) :
    mulLoop beyond a b n = a * (b.setWidth n).setWidth w := by
  induction n with
  | zero => simp [mulLoop, show b.setWidth 0 = 0#0 from Subsingleton.elim _ _]
  | succ n ih =>
    rw [mulLoop, oneShl_of_lt (by omega), ih (by omega) (by omega),
      setWidth_setWidth_succ_eq_setWidth_setWidth_add_twoPow, BitVec.mul_add, and_twoPow]
    by_cases hbit : b.getLsbD n = true
    · have hne : twoPow w n ≠ 0#w := fun h0 => by
        have := congrArg (getLsbD · n) h0
        simp at this
        omega
      simp [hbit, hne]
    · simp [hbit]

theorem mulU_of_width_le (hw : w ≤ 32) : mulU beyond a b = a * b := by
  rw [mulU, mulLoop_low hw le_rfl, setWidth_eq, setWidth_eq]

/-- The absolute values are multiplied. -/
theorem mulS_eq (a b : BitVec w) : ∃ ua ub, (ua = a ∨ ua = -a) ∧ (ub = b ∨ ub = -b) ∧
    ∀ beyond, mulS beyond a b = a * b ↔ mulU beyond ua ub = ua * ub := by
  refine ⟨if a.msb then -a else a, if b.msb then -b else b, ?_, ?_, fun beyond => ?_⟩
  · split_ifs <;> simp
  · split_ifs <;> simp
  · simp only [mulS, ← neg_eq_not_add]
    cases a.msb <;> cases b.msb <;> simp [neg_eq_iff_eq_neg]

end Mul

theorem clzLoop_spec {val : BitVec w} (hi : i ≤ w) (hval : 2 ^ (w - i) ≤ val.toNat) :
    2 ^ (w - 1) ≤ val.toNat * 2 ^ clzLoop i val ∧ val.toNat * 2 ^ clzLoop i val < 2 ^ w := by
  have hlt := val.isLt
  induction i generalizing val with
  | zero => exact absurd hval (not_le.mpr hlt)
  | succ i ih =>
    have hw : 2 ^ w = 2 * 2 ^ (w - 1) := by rw [← pow_succ', show w - 1 + 1 = w by omega]
    have hzero : val >>> (w - 1) = 0 ↔ val.toNat < 2 ^ (w - 1) := by
      rw [← toNat_inj, toNat_ushiftRight, Nat.shiftRight_eq_div_pow]
      exact Nat.div_eq_zero_iff_lt (by positivity)
    rw [clzLoop]
    split_ifs with h
    · have hdouble : (val <<< 1).toNat = val.toNat * 2 := by
        rw [toNat_shiftLeft, Nat.shiftLeft_eq, Nat.mod_eq_of_lt (by have := hzero.mp h; omega)]
      have hpow : 2 ^ (w - i) = 2 ^ (w - (i + 1)) * 2 := by
        rw [← pow_succ, show w - (i + 1) + 1 = w - i by omega]
      have := ih (by omega) (show 2 ^ (w - i) ≤ (val <<< 1).toNat by omega) (BitVec.isLt _)
      rwa [hdouble, mul_assoc, ← pow_succ'] at this
    · rw [hzero] at h
      omega

section Div

variable {a b q r : BitVec w}

/-- The remainder is always right, and the quotient if its bits are below 32. -/
theorem divLoop_spec (hb : 0 < b.toNat) (hfit : ∀ i < n, b.toNat * 2 ^ i < 2 ^ w)
    (hr : r.toNat < b.toNat * 2 ^ n) : (divLoop beyond b n q r).2.toNat = r.toNat % b.toNat ∧
      (r.toNat / b.toNat < 2 ^ 32 → (divLoop beyond b n q r).1.toNat =
      q.toNat ||| r.toNat / b.toNat) := by
  induction n generalizing q r with
  | zero =>
    rw [pow_zero, mul_one] at hr
    simp [divLoop, Nat.mod_eq_of_lt hr, Nat.div_eq_of_lt hr]
  | succ n ih =>
    have hn := hfit n n.lt_succ_self
    have ht : (b <<< n).toNat = b.toNat * 2 ^ n := by
      rw [toNat_shiftLeft, Nat.shiftLeft_eq, Nat.mod_eq_of_lt hn]
    have hfit' : ∀ i < n, b.toNat * 2 ^ i < 2 ^ w := fun i hi => hfit i (by omega)
    simp only [divLoop]
    split_ifs with hle
    · have hsub := toNat_sub_of_le hle
      rw [le_def] at hle
      rw [ht] at hsub hle
      rw [pow_succ, ← mul_assoc] at hr
      obtain ⟨hrem, hquo⟩ := ih (q := q ||| oneShl beyond w n) (r := r - b <<< n) hfit' (by omega)
      rw [hsub, Nat.sub_mul_mod hle] at hrem
      rw [hsub, Nat.sub_mul_div] at hquo
      have hge : 2 ^ n ≤ r.toNat / b.toNat := (Nat.le_div_iff_mul_le hb).mpr (by rwa [mul_comm])
      refine ⟨hrem, fun hlt => ?_⟩
      have hbit : (oneShl beyond w n).toNat = 2 ^ n := by
        have h32 : n < 32 := (Nat.pow_lt_pow_iff_right (by norm_num)).mp (hge.trans_lt hlt)
        rw [oneShl_of_lt h32, toNat_twoPow,
          Nat.mod_eq_of_lt (lt_of_le_of_lt (Nat.le_mul_of_pos_left _ hb) hn)]
      have hrest : r.toNat / b.toNat - 2 ^ n < 2 ^ n := by
        have : r.toNat / b.toNat < 2 ^ n * 2 := (Nat.div_lt_iff_lt_mul hb).mpr (by linarith)
        omega
      rw [hquo (by omega), toNat_or, hbit, Nat.or_assoc]
      have hor := Nat.two_pow_add_eq_or_of_lt hrest 1
      rw [mul_one] at hor
      rw [← hor, Nat.add_sub_cancel' hge]
    · rw [le_def, ht, not_le] at hle
      exact ih hfit' hle

theorem divU_spec (beyond : ℕ → BitVec 32) (a : BitVec w) (hb : b ≠ 0) :
    ∃ q r, divU beyond a b = some (q, r) ∧
    r.toNat = a.toNat % b.toNat ∧ (a.toNat / b.toNat < 2 ^ 32 → q.toNat = a.toNat / b.toNat) := by
  have hpos := toNat_pos hb
  obtain ⟨hlow, hhigh⟩ := clzLoop_spec le_rfl (show 2 ^ (w - w) ≤ b.toNat by
    rw [Nat.sub_self]; exact hpos)
  have hw : 2 ^ w ≤ 2 ^ (w - 1) * 2 := by
    rw [← pow_succ]
    exact Nat.pow_le_pow_right (by norm_num) (by omega)
  have hfit : ∀ i < clzLoop w b + 1, b.toNat * 2 ^ i < 2 ^ w := fun i hi =>
    lt_of_le_of_lt (Nat.mul_le_mul_left _ (Nat.pow_le_pow_right (by norm_num) (by omega))) hhigh
  have ha : a.toNat < b.toNat * 2 ^ (clzLoop w b + 1) := by
    rw [pow_succ, ← mul_assoc]
    omega
  obtain ⟨hrem, hquo⟩ := divLoop_spec hpos hfit ha
  refine ⟨(divLoop beyond b (clzLoop w b + 1) 0 a).1, _, if_neg hb, hrem, fun h => ?_⟩
  rw [hquo h]
  simp

end Div

theorem div_lt_of_width_le {a : BitVec w} (hw : w ≤ 32) {m : ℕ} : a.toNat / m < 2 ^ 32 :=
  ((Nat.div_le_self ..).trans_lt a.isLt).trans_le (Nat.pow_le_pow_right (by norm_num) hw)

theorem divU_of_width_le {a b : BitVec w} (hw : w ≤ 32) (hb : b ≠ 0) :
    divU beyond a b = some (a / b, a % b) := by
  obtain ⟨q, r, h, hr, hq⟩ := divU_spec beyond a hb
  rw [h, show q = a / b from eq_of_toNat_eq (hq (div_lt_of_width_le hw)),
    show r = a % b from eq_of_toNat_eq hr]

section Align

variable {val align : BitVec w}

theorem alignUpUlongAny_of_dvd (h0 : align ≠ 0) (hdvd : align.toNat ∣ val.toNat) :
    alignUpUlongAny beyond val align = some val := by
  obtain ⟨q, r, hdiv, hr, -⟩ := divU_spec beyond val h0
  have hzero : r = 0 := eq_of_toNat_eq (hr.trans (Nat.mod_eq_zero_of_dvd hdvd))
  rw [alignUpUlongAny, if_neg h0, hdiv, hzero]
  rfl

theorem alignUpUlongAny_spec (beyond : ℕ → BitVec 32) (val : BitVec w) (h0 : align ≠ 0)
    (h : ¬ align.toNat ∣ val.toNat →
      val.toNat / align.toNat < 2 ^ 32 ∧ (val.toNat / align.toNat + 1) * align.toNat < 2 ^ w ∧
      mulU beyond (val / align + 1) align = (val / align + 1) * align) :
    ∃ v, alignUpUlongAny beyond val align = some v ∧
      IsLeast {m | align.toNat ∣ m ∧ val.toNat ≤ m} v.toNat := by
  have hpos := toNat_pos h0
  by_cases hdvd : align.toNat ∣ val.toNat
  · exact ⟨val, alignUpUlongAny_of_dvd h0 hdvd, ⟨hdvd, le_rfl⟩, fun m hm => hm.2⟩
  · obtain ⟨hlt, hfit, hmul⟩ := h hdvd
    obtain ⟨q, r, hdiv, hr, hq⟩ := divU_spec beyond val h0
    have hne : r ≠ 0 := by
      rintro rfl
      exact hdvd (Nat.dvd_of_mod_eq_zero hr.symm)
    have hle := (Nat.le_mul_of_pos_right (val.toNat / align.toNat + 1) hpos).trans_lt hfit
    have hone : (1 : BitVec w).toNat = 1 := Nat.mod_eq_of_lt (a := 1) (by omega)
    refine ⟨(val / align + 1) * align, ?_, ?_⟩
    · simp only [alignUpUlongAny, if_neg h0, hdiv, Option.map_some, if_pos hne]
      rw [show q = val / align from eq_of_toNat_eq (hq hlt), hmul]
    · rw [toNat_mul, toNat_add, toNat_udiv, hone, Nat.mod_eq_of_lt hle, Nat.mod_eq_of_lt hfit]
      exact isLeast_multiple hpos hdvd

/-- A width of 32 is enough for a result that is representable. -/
theorem alignUpUlongAny_of_width_le (beyond : ℕ → BitVec 32) (val : BitVec w) (hw : w ≤ 32)
    (h0 : align ≠ 0) {m : ℕ} (hm : IsLeast {m | align.toNat ∣ m ∧ val.toNat ≤ m} m) (hlt : m <
    2 ^ w) :
    ∃ v, alignUpUlongAny beyond val align = some v ∧ v.toNat = m := by
  have hpos := toNat_pos h0
  obtain ⟨v, hv, hleast⟩ := alignUpUlongAny_spec beyond val h0 fun hdvd => by
    refine ⟨div_lt_of_width_le hw, ?_, mulU_of_width_le hw⟩
    rwa [(isLeast_multiple hpos hdvd).unique hm]
  exact ⟨v, hv, hleast.unique hm⟩

theorem alignDownUlongAny_of_width_le (beyond : ℕ → BitVec 32) (val : BitVec w) (hw : w ≤ 32)
    (h0 : align ≠ 0) : ∃ v, alignDownUlongAny beyond val align = some v ∧
    IsGreatest {m | align.toNat ∣ m ∧ m ≤ val.toNat} v.toNat := by
  have hmul : (val / align * align).toNat = val.toNat / align.toNat * align.toNat := by
    rw [toNat_mul, toNat_udiv, Nat.mod_eq_of_lt ((Nat.div_mul_le_self ..).trans_lt val.isLt)]
  refine ⟨val / align * align, ?_, ?_⟩
  · simp only [alignDownUlongAny, if_neg h0, divU_of_width_le hw h0, Option.map_some, mulU_of_width_le hw]
    split_ifs with hr
    · rfl
    · have hdvd := Nat.dvd_of_mod_eq_zero (congrArg BitVec.toNat (not_not.mp hr))
      rw [eq_of_toNat_eq (hmul.trans (Nat.div_mul_cancel hdvd))]
  · rw [hmul]
    exact isGreatest_multiple (toNat_pos h0)

end Align

/-- For words of 32 bits no shift is undefined. -/
theorem u32_arithmetic_exact (beyond : ℕ → BitVec 32) (a b : BitVec 32) :
    mulU beyond a b = a * b ∧ mulS beyond a b = a * b ∧ (b ≠ 0 →
      (∃ q r, divU beyond a b = some (q, r) ∧ a.toNat = q.toNat * b.toNat + r.toNat ∧
      r.toNat < b.toNat) ∧ (∀ m, IsLeast {m | b.toNat ∣ m ∧ a.toNat ≤ m} m → m < 2 ^ 32 →
        ∃ v, alignUpUlongAny beyond a b = some v ∧ v.toNat = m) ∧
      ∃ v, alignDownUlongAny beyond a b = some v ∧
        IsGreatest {m | b.toNat ∣ m ∧ m ≤ a.toNat} v.toNat) := by
  obtain ⟨ua, ub, -, -, hmul⟩ := mulS_eq a b
  refine ⟨mulU_of_width_le le_rfl, (hmul beyond).mpr (mulU_of_width_le le_rfl),
    fun hb => ⟨?_, ?_, ?_⟩⟩
  · refine ⟨a / b, a % b, divU_of_width_le le_rfl hb, ?_, ?_⟩
    · rw [toNat_udiv, toNat_umod, Nat.div_add_mod']
    · rw [toNat_umod]
      exact Nat.mod_lt _ (toNat_pos hb)
  · exact fun m hm hlt => alignUpUlongAny_of_width_le beyond a le_rfl hb hm hlt
  · exact alignDownUlongAny_of_width_le beyond a le_rfl hb

theorem u32_arithmetic_exact_seven : mulU (fun _ => 0) 7#32 3#32 = 21#32 ∧
    (∃ v, alignUpUlongAny (fun _ => 0) 7#32 3#32 = some v ∧ v.toNat = 9) ∧
    ∃ v, alignDownUlongAny (fun _ => 0) 7#32 3#32 = some v ∧ IsGreatest {m | 3 ∣ m ∧ m ≤ 7} v.toNat := by
  obtain ⟨hmul, -, h⟩ := u32_arithmetic_exact (fun _ => 0) 7#32 3#32
  obtain ⟨-, hup, hdown⟩ := h (by decide)
  exact ⟨hmul, hup 9 (isLeast_multiple (by decide) (by decide)) (by decide), hdown⟩

section S32

variable {a b : BitVec 32}

/-- C's signed division, except for a negative dividend and a positive divisor. -/
theorem divS32_eq (hb : b ≠ 0) : divS32 beyond a b = some (
    if a.msb = true ∧ b.msb = false then
      if a.srem b = 0 then (-a.sdiv b, 0) else (a.sdiv b - 1, a.srem b + b)
    else (a.sdiv b, a.srem b)) := by
  have hb' : -b ≠ 0 := by simpa using hb
  cases ha : a.msb <;> cases hbm : b.msb
  all_goals simp [divS32, divS, ← neg_eq_not_add, ha, hbm, sdiv_eq, srem_eq,
    divU_of_width_le le_rfl hb, divU_of_width_le le_rfl hb']
  split_ifs with h
  · rw [h]
  · rw [BitVec.sub_eq_add_neg, BitVec.add_comm]
    rfl

/-- The quotient of a negative dividend keeps its sign only when the division is exact. -/
theorem divS32_law (hb : b ≠ 0) (hover : ¬ (a = intMin 32 ∧ b = -1))
    (hinexact : a.toInt < 0 → 0 < b.toInt → ¬ b.toInt ∣ a.toInt) :
    DivLaw a b (divS32 beyond a b) := by
  have hb0 : b.toInt ≠ 0 := fun h => hb (toInt_inj.mp (by simpa using h))
  have hq := toInt_sdiv_of_ne_or_ne a b (not_and_or.mp hover)
  have hr := toInt_srem a b
  have hlaw := Int.tdiv_mul_add_tmod a.toInt b.toInt
  have hlt : |a.toInt.tmod b.toInt| < |b.toInt| := by
    have := Nat.mod_lt a.toInt.natAbs (Int.natAbs_pos.mpr hb0)
    rw [Int.abs_eq_natAbs, Int.abs_eq_natAbs, Int.natAbs_tmod]
    exact_mod_cast this
  rw [divS32_eq hb]
  split_ifs with hsign hzero
  · rw [hzero] at hr
    simp only [msb_eq_toInt, decide_eq_true_eq, decide_eq_false_iff_not] at hsign
    exact absurd (Int.dvd_of_tmod_eq_zero hr.symm) (hinexact hsign.1 (by omega))
  · simp only [msb_eq_toInt, decide_eq_true_eq, decide_eq_false_iff_not] at hsign
    have hr0 : a.toInt.tmod b.toInt ≠ 0 := by
      rw [← hr]
      exact fun h => hzero (toInt_inj.mp h)
    have hneg := Int.tmod_nonneg b.toInt (show 0 ≤ -a.toInt by omega)
    rw [Int.neg_tmod, neg_nonneg] at hneg
    have hmin := a.le_two_mul_toInt
    have hmax := b.two_mul_toInt_lt
    rw [abs_of_nonpos hneg, abs_of_nonneg (by omega)] at hlt
    have htwo : 2 ≤ b.toInt := by omega
    have hq' : (a.sdiv b - 1).toInt = a.toInt.tdiv b.toInt - 1 := by
      rw [toInt_sub, hq]
      refine Int.bmod_eq_of_le ?_ ?_ <;> simp <;> nlinarith
    have hr' : (a.srem b + b).toInt = a.toInt.tmod b.toInt + b.toInt := by
      rw [toInt_add, hr]
      refine Int.bmod_eq_of_le ?_ ?_ <;> omega
    refine ⟨_, _, rfl, ?_, ?_⟩
    · rw [hq']
      linarith
    · rw [abs_of_pos (by omega), abs_of_pos (by omega)]
      omega
  · exact ⟨_, _, rfl, by rw [hq, hr, hlaw], by rwa [hr]⟩

theorem divLaw_some {w : ℕ} {a b q r : BitVec w} : DivLaw a b (some (q, r)) ↔
    a.toInt = q.toInt * b.toInt + r.toInt ∧ |r.toInt| < |b.toInt| := by
  constructor
  · rintro ⟨q', r', heq, hlaw⟩
    cases heq
    exact hlaw
  · exact fun hlaw => ⟨q, r, rfl, hlaw⟩

theorem divS32_law_iff (hb : b ≠ 0) (hover : ¬ (a = intMin 32 ∧ b = -1)) :
    DivLaw a b (divS32 beyond a b) ↔ DivS32Exact a b := by
  by_cases hexact : a.toInt < 0 ∧ 0 < b.toInt ∧ b.toInt ∣ a.toInt
  · -- the quotient keeps the sign of the absolute values, which is right for the least number only
    obtain ⟨ha, hpos, hdvd⟩ := hexact
    have hzero : a.srem b = 0 := by
      rw [← toInt_inj, toInt_srem]
      exact Int.tmod_eq_zero_of_dvd hdvd
    have hsign : a.msb = true ∧ b.msb = false := by
      simp only [msb_eq_toInt, decide_eq_true_eq, decide_eq_false_iff_not]
      omega
    have hquot := Int.tdiv_mul_cancel hdvd
    have hq := toInt_sdiv_of_ne_or_ne a b (not_and_or.mp hover)
    rw [divS32_eq hb, if_pos hsign, if_pos hzero, divLaw_some, DivS32Exact]
    by_cases hleast : a = intMin 32 ∧ b = 1
    · obtain ⟨rfl, rfl⟩ := hleast
      decide
    have hne : a.sdiv b ≠ intMin 32 := by
      intro heq
      rw [heq, show (intMin 32).toInt = -2 ^ 31 by decide] at hq
      have hmin := a.le_two_mul_toInt
      have hone : b.toInt = 1 := by nlinarith
      rw [← hq, hone] at hquot
      exact hleast ⟨toInt_inj.mp (hquot.symm.trans (by decide)), toInt_inj.mp hone⟩
    refine ⟨fun h => ?_, fun h => absurd (h ⟨ha, hpos, hdvd⟩) hleast⟩
    have hlaw := h.1
    rw [toInt_neg_of_ne_intMin hne, hq, neg_mul, hquot, show (0 : BitVec 32).toInt = 0 from rfl] at hlaw
    omega
  · exact ⟨fun _ h => absurd h hexact, fun _ => divS32_law hb hover fun h1 h2 h3 => hexact ⟨h1, h2, h3⟩⟩

end S32

section Halves

variable {q r ah al bh bl : ℕ}

theorem halves_law (hal : bl * q + r = al) (hr : r < bl) :
    ((2 ^ 32 * ah + al : ℤ) = q * (2 ^ 32 * bh + bl) + r ∧ |(r : ℤ)| < |(2 ^ 32 * bh + bl : ℤ)|) ↔
      ah = q * bh := by
  have hmul : (q : ℤ) * (2 ^ 32 * bh + bl) = 2 ^ 32 * (q * bh : ℕ) + (bl * q : ℕ) := by
    push_cast
    ring
  rw [hmul, abs_of_nonneg (by omega), abs_of_nonneg (by omega)]
  omega

/-- The quotient is negated in 32 bits, so it is right for a quotient of 0 only. -/
theorem halves_law_neg_divisor (hal : bl * q + r = al) (hr : r < bl) (hq : q < 2 ^ 32)
    (hbl : bl < 2 ^ 32) : ((2 ^ 32 * ah + al : ℤ) =
    ((2 ^ 32 - q) % 2 ^ 32 : ℕ) * (-1 * (2 ^ 32 * bh + bl)) + r ∧
      |(r : ℤ)| < |(-1 * (2 ^ 32 * bh + bl) : ℤ)|) ↔ 2 ^ 32 * ah + al < bl := by
  rcases Nat.eq_zero_or_pos q with rfl | hpos
  · rw [abs_of_nonneg (by omega), abs_of_nonpos (by omega)]
    omega
  · have hone : (1 : ℤ) ≤ ((2 ^ 32 - q) % 2 ^ 32 : ℕ) := by omega
    have hle : bl ≤ bl * q := Nat.le_mul_of_pos_right bl hpos
    have hneg : ((2 ^ 32 - q) % 2 ^ 32 : ℕ) * (-1 * (2 ^ 32 * bh + bl) : ℤ) ≤
        -1 * (2 ^ 32 * bh + bl) := by
      nlinarith
    omega

/-- The remainder is negated in 32 bits, which adds 2^32 to it unless it is 0. -/
theorem halves_law_neg_neg (hal : bl * q + r = al) (hr : r < bl) (hbl : bl < 2 ^ 32) :
    ((-1 * (2 ^ 32 * ah + al) : ℤ) = q * (-1 * (2 ^ 32 * bh + bl)) + ((2 ^ 32 - r) % 2 ^ 32 : ℕ) ∧
      |(((2 ^ 32 - r) % 2 ^ 32 : ℕ) : ℤ)| < |(-1 * (2 ^ 32 * bh + bl) : ℤ)|) ↔
      ah + (if r = 0 then 0 else 1) = q * bh := by
  have hmul : (q : ℤ) * (-1 * (2 ^ 32 * bh + bl)) = -(2 ^ 32 * (q * bh : ℕ) + (bl * q : ℕ)) := by
    push_cast
    ring
  have hhigh : q * bh ≠ 0 → bh ≠ 0 := right_ne_zero_of_mul
  rw [hmul, abs_of_nonneg (by omega), abs_of_nonpos (by omega)]
  split_ifs <;> omega

end Halves

section S64

variable {a b : BitVec 64}

theorem toInt_eq_halves (a : BitVec 64) :
    a.toInt = (if a.msb then -1 else 1) * (2 ^ 32 * highAbs a + lowAbs a) := by
  rw [msb_eq_toInt, highAbs, lowAbs]
  split_ifs with h <;> simp only [decide_eq_true_eq] at h <;> omega

theorem toNat_truncated (a : BitVec 64) :
    (if a.msb then ~~~a.setWidth 32 + 1#32 else a.setWidth 32).toNat = lowAbs a := by
  rw [← neg_eq_not_add, lowAbs, toInt_eq_msb_cond]
  split_ifs
  · rw [toNat_neg, toNat_setWidth]
    omega
  · rw [toNat_setWidth]
    omega

theorem toInt_extended (v : BitVec 32) : (v.setWidth 64).toInt = v.toNat := by
  rw [toInt_eq_toNat_of_lt] <;> rw [toNat_setWidth] <;> omega

/-- What `div_s64` makes of the quotient and the remainder of the lower halves. -/
theorem divS64_eq (hzero : lowAbs b ≠ 0) : ∃ q r ub : BitVec 32, q.toNat = lowAbs a / lowAbs b ∧
    r.toNat = lowAbs a % lowAbs b ∧ ub.toNat = lowAbs b ∧ divS64 beyond a b = some (
      if a.msb then
        if b.msb then (q.setWidth 64, (-r).setWidth 64)
        else if r = 0 then (q.setWidth 64, 0) else ((-(q + 1)).setWidth 64, (ub - r).setWidth 64)
      else if b.msb then ((-q).setWidth 64, r.setWidth 64) else (q.setWidth 64, r.setWidth 64)) := by
  have hua := toNat_truncated a
  have hub := toNat_truncated b
  unfold divS64 divS
  generalize (if a.msb then ~~~a.setWidth 32 + 1#32 else a.setWidth 32) = ua at hua ⊢
  generalize (if b.msb then ~~~b.setWidth 32 + 1#32 else b.setWidth 32) = ub at hub ⊢
  have hne : ub ≠ 0 := fun h => hzero (hub.symm.trans (congrArg BitVec.toNat h))
  refine ⟨ua / ub, ua % ub, ub, by rw [toNat_udiv, hua, hub], by rw [toNat_umod, hua, hub], hub, ?_⟩
  cases a.msb <;> cases b.msb
  all_goals simp [divU_of_width_le le_rfl hne, ← neg_eq_not_add]
  split_ifs with hr
  · simp [hr]
  · simp only [BitVec.sub_eq_add_neg, BitVec.add_comm ub]

theorem divS64_law_iff : DivLaw a b (divS64 beyond a b) ↔ DivS64Exact a b := by
  unfold DivS64Exact
  by_cases hzero : lowAbs b = 0
  · have hub := toNat_truncated b
    rw [hzero] at hub
    rw [divS64, divS, divU, if_pos (eq_of_toNat_eq hub)]
    refine ⟨?_, fun h => absurd hzero h.1⟩
    rintro ⟨q, r, heq, -⟩
    cases heq
  obtain ⟨q, r, ub, hq, hr, hub, heq⟩ := @divS64_eq beyond a b hzero
  have hdiv := Nat.div_add_mod (lowAbs a) (lowAbs b)
  have hlt := Nat.mod_lt (lowAbs a) (Nat.pos_of_ne_zero hzero)
  have hlow : lowAbs b < 2 ^ 32 := Nat.mod_lt _ (by norm_num)
  have habs : a.toInt.natAbs = 2 ^ 32 * highAbs a + lowAbs a := (Nat.div_add_mod _ _).symm
  have ha := toInt_eq_halves a
  have hb := toInt_eq_halves b
  rw [← hr] at hlt
  rw [← hq, ← hr] at hdiv
  rw [habs, heq, ← hr, ← hq]
  cases hsa : a.msb <;> cases hsb : b.msb
  all_goals simp only [hsa, hsb, Bool.false_eq_true, if_false, if_true, true_and, false_and,
    and_false, one_mul] at ha hb ⊢
  · rw [divLaw_some, toInt_extended, toInt_extended, ha, hb, halves_law hdiv hlt, and_iff_right hzero]
  · rw [divLaw_some, toInt_extended, toInt_extended, ha, hb, toNat_neg,
      halves_law_neg_divisor hdiv hlt q.isLt hlow, and_iff_right hzero]
  · -- quotient, divisor and remainder are nonnegative
    refine iff_of_false (fun h => ?_) not_false
    have hneg : a.toInt < 0 := by simpa [msb_eq_toInt] using hsa
    have hpos : 0 ≤ b.toInt := by omega
    split_ifs at h
    all_goals rw [divLaw_some, toInt_extended] at h
    · rw [show (0 : BitVec 64).toInt = 0 from rfl] at h
      have := mul_nonneg (Int.natCast_nonneg q.toNat) hpos
      omega
    · rw [toInt_extended] at h
      have := mul_nonneg (Int.natCast_nonneg (-(q + 1)).toNat) hpos
      omega
  · rw [divLaw_some, toInt_extended, toInt_extended, ha, hb, toNat_neg,
      halves_law_neg_neg hdiv hlt hlow, and_iff_right hzero]

end S64

/-- `div_s32` divides every pair of operands rightly except a negative dividend that a positive
divisor divides, and `div_s64` only those whose upper halves the quotient of the lower ones makes up
for. -/
theorem signed_division_law (beyond : ℕ → BitVec 32) :
    (∀ a b : BitVec 32, b ≠ 0 → ¬ (a = intMin 32 ∧ b = -1) →
      (DivLaw a b (divS32 beyond a b) ↔ DivS32Exact a b)) ∧
    ∀ a b : BitVec 64, DivLaw a b (divS64 beyond a b) ↔ DivS64Exact a b :=
  ⟨fun _ _ hb hover => divS32_law_iff hb hover, fun _ _ => divS64_law_iff⟩

theorem signed_division_law_of_inexact : DivLaw (-7#32) 3#32 (divS32 (fun _ => 0) (-7#32) 3#32) ∧
    DivLaw (-6#64) (-3#64) (divS64 (fun _ => 0) (-6#64) (-3#64)) ∧
    ¬ DivLaw (-6#64) 3#64 (divS64 (fun _ => 0) (-6#64) 3#64) := by
  obtain ⟨h32, h64⟩ := signed_division_law fun _ => 0
  refine ⟨(h32 _ _ (by decide) (by decide)).mpr ?_, (h64 _ _).mpr ?_, fun h => ?_⟩
  · unfold DivS32Exact
    decide
  · unfold DivS64Exact
    decide
  · exact absurd ((h64 _ _).mp h) (by unfold DivS64Exact; decide)

/-- `div_s32 -6 3` gives 2, and `div_s64` drops the upper half of its operands. -/
theorem exact_negative_quotient_keeps_sign :
    ¬ DivLaw (-6#32) 3#32 (divS32 (fun _ => 0) (-6#32) 3#32) ∧
    ¬ DivLaw 0x100000000#64 1#64 (divS64 (fun _ => 0) 0x100000000#64 1#64) := by
  have h32 : divS32 (fun _ => 0) (-6#32) 3#32 = some (2#32, 0#32) := by decide +kernel
  have h64 : divS64 (fun _ => 0) 0x100000000#64 1#64 = some (0#64, 0#64) := by decide +kernel
  rw [h64]
  constructor
  · rintro ⟨q, r, heq, hlaw, -⟩
    cases heq
    revert hlaw
    decide
  · rintro ⟨q, r, heq, hlaw, -⟩
    cases heq
    revert hlaw
    decide

end Toddler
