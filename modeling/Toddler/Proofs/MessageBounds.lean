import Toddler.Proofs.Message

/-! What a receiver reads of a message. The words of a message come from its sender, and the getters
check the index and the type of a param but not the descriptor of a data block, nor that the index
is not negative. -/

namespace Toddler.Message

open Nat

variable {A : Arch} {m : ByteMem} {b : ℕ} {idx : ℤ}

def InParams (A : Arch) (b : ℕ) (r : ℤ × ℕ) : Prop :=
  ∃ i < maxMsgParams, r = ((paramAddr A b i : ℤ), A.bytes)

def InData (A : Arch) (b : ℕ) (r : ℕ × ℕ) : Prop :=
  dataAddr A b ≤ r.1 ∧ r.1 + r.2 ≤ dataAddr A b + A.maxMsgDataWords * A.bytes

/-- The getters panic at `idx` or stay inside the arrays of the message, whatever an undefined shift
gives. -/
structure StaysInside (A : Arch) (m : ByteMem) (b : ℕ) (idx : ℤ) : Prop where
  param : ∀ shl r, msgParamRange A shl m b idx = some r → InParams A b r
  data : ∀ shl r, msgDataRange A shl m b idx = some (some r) → InData A b r
  copy : ∀ shl size r, msgCopyRange A shl m b idx size = some r → r.2 = 0 ∨ InData A b r

/-- The index is not negative, and where it names a data block that is not empty, the block that the
param describes ends inside the array. -/
structure DescribesInside (A : Arch) (m : ByteMem) (b : ℕ) (idx : ℤ) : Prop where
  nonneg : 0 ≤ idx
  fits : idx < getBits A m b A.numParams → (getBits A m b A.paramTypeMap).testBit idx.toNat = true →
    A.loadWord m (paramAddr A b idx.toNat) &&& 0xffff ≠ 0 →
      (A.loadWord m (paramAddr A b idx.toNat) >>> 16) +
      (A.loadWord m (paramAddr A b idx.toNat) &&& 0xffff) ≤
        A.maxMsgDataWords

theorem numParams_le (m : ByteMem) (b : ℕ) : getBits A m b A.numParams ≤ maxMsgParams := by
  have h : getBits A m b A.numParams < 2 ^ 4 := BitField.get_lt _ _
  unfold maxMsgParams
  omega

theorem paramPlace_natCast (b i : ℕ) : paramPlace A b i = (paramAddr A b i : ℤ) := by
  unfold paramPlace paramAddr
  push_cast
  ring

/-- Inside the address space the address of a param does not wrap. -/
theorem descriptor_eq {i : ℕ} (hb : b + maxMsgSize ≤ A.ulong) (hi : i < maxMsgParams) :
    descriptor A m b i = A.loadWord m (paramAddr A b i) := by
  have hin := (param_within (A := A) (b := b) hi).2
  have hpos := A.bytes_pos
  have hlt : paramAddr A b i < A.ulong := by omega
  rw [descriptor, paramPlace_natCast, ← Int.natCast_mod, mod_eq_of_lt hlt, Int.toNat_natCast]

theorem typeBit_eq_zero_iff (shl : ℤ → ℕ) (map i : ℕ) : map &&& typeBit shl i = 0 ↔
    map.testBit i = false := by
  have hbit : typeBit shl i = 2 ^ i := by
    rw [typeBit, if_neg (by omega), Int.toNat_natCast, shiftLeft_eq, one_mul]
  rw [hbit]
  constructor
  · intro h
    have hi := congrArg (fun x => x.testBit i) h
    simpa using hi
  · intro h
    refine eq_of_testBit_eq fun j => ?_
    rw [testBit_and, zero_testBit]
    by_cases hj : i = j
    · rw [← hj, h, Bool.false_and]
    · simp [hj]

theorem msgGetData_eq (shl : ℤ → ℕ) (i : ℕ) (hb : b + maxMsgSize ≤ A.ulong) :
    msgGetData A m b i = msgDataRange A shl m b i := by
  have htype := typeBit_eq_zero_iff shl (getBits A m b A.paramTypeMap) i
  have hle := numParams_le (A := A) m b
  simp only [msgGetData, msgDataRange, cast_le, htype, Bool.not_eq_true]
  by_cases hnum : getBits A m b A.numParams ≤ i
  · rw [if_pos hnum, if_pos hnum]
  · rw [descriptor_eq hb (show i < maxMsgParams by omega)]

theorem inData_block {off words n : ℕ} (hn : n ≤ words * A.bytes)
    (h : off + words ≤ A.maxMsgDataWords) : InData A b (dataAddr A b + off * A.bytes, n) := by
  have hmul : (off + words) * A.bytes ≤ A.maxMsgDataWords * A.bytes := Nat.mul_le_mul_right _ h
  rw [Nat.add_mul] at hmul
  exact ⟨Nat.le_add_right .., show dataAddr A b + off * A.bytes + n ≤ _ by omega⟩

theorem fits_of_inData {off words : ℕ}
    (h : InData A b (dataAddr A b + off * A.bytes, words * A.bytes)) :
    off + words ≤ A.maxMsgDataWords := by
  have hle : dataAddr A b + off * A.bytes + words * A.bytes ≤
    dataAddr A b + A.maxMsgDataWords * A.bytes := h.2
  refine Nat.le_of_mul_le_mul_right ?_ A.bytes_pos
  rw [add_mul]
  omega

/-- A negative index passes the comparison with `num_params`, and the word it reads lies before the
params. -/
theorem StaysInside.nonneg (h : StaysInside A m b idx) : 0 ≤ idx := by
  by_contra hneg
  have hread : msgParamRange A (fun _ => 0) m b idx = some (paramPlace A b idx, A.bytes) := by
    have hbit : typeBit (fun _ => 0) idx = 0 := if_pos (by omega)
    rw [msgParamRange, if_neg (by omega), hbit, if_neg (by simp)]
  obtain ⟨i, -, hr⟩ := h.param _ _ hread
  have hplace : paramPlace A b idx = paramAddr A b i := (Prod.mk.inj hr).1
  have hmul : (3 + idx) * A.bytes = (3 + i) * A.bytes := add_left_cancel hplace
  have hbytes : (A.bytes : ℤ) ≠ 0 := by exact_mod_cast A.bytes_pos.ne'
  have := mul_right_cancel₀ hbytes hmul
  omega

theorem StaysInside.describesInside (hb : b + maxMsgSize ≤ A.ulong) (h : StaysInside A m b idx) :
    DescribesInside A m b idx := by
  refine ⟨h.nonneg, fun hnum htype hwords => ?_⟩
  obtain ⟨i, rfl⟩ := Int.eq_ofNat_of_zero_le h.nonneg
  rw [Int.toNat_natCast] at htype hwords
  have hdata := msgGetData_eq (m := m) (fun _ => 0) i hb
  rw [msgGetData, if_neg (by omega), if_neg (not_not.mpr htype)] at hdata
  simp only [hwords] at hdata
  exact fits_of_inData (h.data _ _ hdata.symm)

theorem DescribesInside.staysInside (hb : b + maxMsgSize ≤ A.ulong)
    (h : DescribesInside A m b idx) : StaysInside A m b idx := by
  obtain ⟨i, rfl⟩ := Int.eq_ofNat_of_zero_le h.nonneg
  have hfits := h.fits
  have hle := numParams_le (A := A) m b
  refine ⟨fun shl r hr => ?_, fun shl r hr => ?_, fun shl size r hr => ?_⟩
  · unfold msgParamRange at hr
    split_ifs at hr with hnum
    cases hr
    exact ⟨i, by omega, by rw [paramPlace_natCast]⟩
  · unfold msgDataRange at hr
    split_ifs at hr with hnum htype
    rw [typeBit_eq_zero_iff, Bool.not_eq_false] at htype
    rw [descriptor_eq hb (show i < maxMsgParams by omega)] at hr
    by_cases hwords : A.loadWord m (paramAddr A b i) &&& 0xffff = 0
    · simp [hwords] at hr
    · simp only [hwords, if_false, Option.some.injEq] at hr
      rw [← hr]
      exact inData_block le_rfl (hfits (by omega) htype hwords)
  · unfold msgCopyRange at hr
    split_ifs at hr with hnum htype
    rw [typeBit_eq_zero_iff, Bool.not_eq_false] at htype
    simp only [descriptor_eq hb (show i < maxMsgParams by omega), Option.some.injEq] at hr
    rw [← hr]
    by_cases hwords : A.loadWord m (paramAddr A b i) &&& 0xffff = 0
    · exact Or.inl (by simp [hwords])
    · exact Or.inr (inData_block (min_le_right ..) (hfits (by omega) htype hwords))

/-- The receiver's getters stay inside a message exactly when the index is not negative and the
block that it may describe ends inside the data array. -/
theorem receivers_inside_iff (A : Arch) (m : ByteMem) (b : ℕ) (idx : ℤ)
    (hb : b + maxMsgSize ≤ A.ulong) : StaysInside A m b idx ↔ DescribesInside A m b idx :=
  ⟨fun h => h.describesInside hb, fun h => h.staysInside hb⟩

/-- A message at 0x1000 on a 64-bit little-endian machine, with one param of data and this
descriptor. -/
def oneBlock (descriptor : ℕ) : ByteMem :=
  Arch.storeWord ⟨true, false⟩ (Arch.storeWord ⟨true, false⟩ (fun _ => 0) 0x1000 0x110001) 0x1018
    descriptor

theorem receivers_inside_iff_of_last_word :
    msgDataRange ⟨true, false⟩ (fun _ => 0) (oneBlock 0xed0001) 0x1000 0 = some (some (0x17f8, 8)) ∧
      StaysInside ⟨true, false⟩ (oneBlock 0xed0001) 0x1000 0 :=
  ⟨by decide +kernel, (receivers_inside_iff ⟨true,
    false⟩ (oneBlock 0xed0001) 0x1000 0 (by decide)).mpr ⟨by decide, by decide +kernel⟩⟩

/-- The sender chooses the offset 0x10000: the pointer that `msg_get_data` returns is 512 KB behind
the message. -/
theorem getData_leaves_message :
    ¬ ∀ (A : Arch) (m : ByteMem) (b : ℕ) (idx : ℤ), b + maxMsgSize ≤ A.ulong →
    StaysInside A m b idx := by
  intro hall
  have hinside := hall ⟨true, false⟩ (oneBlock 0x100000001) 0x1000 0 (by decide)
  have hrange : msgDataRange ⟨true, false⟩ (fun _ => 0) (oneBlock 0x100000001) 0x1000 0 =
      some (some (0x81090, 8)) := by decide +kernel
  have hin := (hinside.data _ _ hrange).2
  exact absurd hin (by decide)

end Toddler.Message
