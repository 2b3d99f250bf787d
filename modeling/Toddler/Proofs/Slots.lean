import Toddler.Proofs.MessageRoundTrip

/-! The operations on slots are those on the bytes of a message: where one succeeds on the slots
that a message holds, the other succeeds on its bytes, and the message then holds the slots that
result. -/

namespace Toddler.Message

open Nat ByteMem Option List

variable {A : Arch} {m : ByteMem} {b i v : ℕ} {msg msg' : Slots} {bytes : List UInt8}

section

variable (h : Holds A m b msg)
include h

theorem Holds.appendParam (hv : v < A.ulong) (ha : Slots.appendParam msg v = some msg') :
    ∃ m', msgAppendParam A m b v = some m' ∧ Holds A m' b msg' := by
  unfold Slots.appendParam at ha
  split_ifs at ha with hfull
  cases ha
  have hsome : msgAppendParam A m b v =
      some (setBits A (A.storeWord m (paramAddr A b msg.length) v) b A.numParams (msg.length + 1)) := by
    simp only [msgAppendParam, h.numParams, if_neg hfull]
  exact ⟨_, hsome, holds_appendParam h hv hsome⟩

theorem Holds.appendInt {v : ℤ} (ha : Slots.appendInt A msg v = some msg') :
    ∃ m', msgAppendInt A m b v = some m' ∧ Holds A m' b msg' := by
  have hpos : (0 : ℤ) < A.ulong := by
    have := A.le_ulong
    omega
  have hlt := Int.emod_lt_of_pos v hpos
  exact h.appendParam (by omega) ha

/-- The data are copied, or for `NULL` left as they are. -/
theorem Holds.appendData {data : Option (List UInt8)} {size : ℕ} (hpos : 0 < size)
    (hwrap : size + (A.bytes - 1) < A.ulong)
    (ha : Slots.appendData A msg (data.getD []) size = some msg') :
    ∃ m', msgAppendData A m b data size = some m' ∧ Holds A m' b msg' := by
  obtain ⟨hlen, hwords⟩ := alignUpVsize_spec hwrap
  simp only [Slots.appendData] at ha
  split_ifs at ha with hfull hbig
  cases ha
  simp only [msgAppendData, h.numParams, h.numDataWords, if_neg hfull, if_neg hbig]
  refine ⟨_, rfl, holds_appendBlock h (not_le.mp hfull) (not_lt.mp hbig) (hwords hpos) ?_ ?_ ?_⟩
  · rw [length_take]
    omega
  · intro x hx
    cases data with
    | none => rfl
    | some bytes => exact store_outside (.inl hx)
  · cases data with
    | none => simp [load]
    | some bytes => exact load_store _ _ _

theorem Holds.appendStr {str : CStr} (hwrap : str.chars.length + 1 + (A.bytes - 1) < A.ulong)
    (ha : Slots.appendStr A msg str = some msg') :
    ∃ m', msgAppendStr A m b (some str) 0 = some m' ∧ Holds A m' b msg' := by
  have hmod : (str.chars.length + 1) % A.ulong = str.chars.length + 1 := mod_eq_of_lt (by omega)
  simp only [Slots.appendStr, hmod] at ha
  split_ifs at ha with hfull hbig
  cases ha
  have hsome : ∃ m', msgAppendStr A m b (some str) 0 = some m' := by
    simp only [msgAppendStr, h.numParams, h.numDataWords,
      if_true, map_some, getD_some, hmod, if_neg hfull, if_neg hbig]
    exact ⟨_, rfl⟩
  obtain ⟨m', hm'⟩ := hsome
  have hholds := holds_appendStr h (by simpa using hwrap) hm'
  exact ⟨m', hm', hholds⟩

theorem Holds.getParam_slots (hg : Slots.getParam msg i = some v) :
    msgGetParam A m b i = some v := by
  refine h.getParam ?_
  unfold Slots.getParam at hg
  split at hg
  · rename_i param hi
    rw [hi, some.inj hg]
  · cases hg

end

theorem slot_of_getData {n : ℕ} (hg : Slots.getData A msg i = some (bytes, n)) :
    ∃ words, msg[i]? = some (.block bytes words) ∧ n = words * A.bytes := by
  unfold Slots.getData at hg
  split at hg
  · rename_i bytes' words hi
    cases hg
    exact ⟨words, hi, rfl⟩
  · cases hg

theorem Holds.getData_slots {n : ℕ} (h : Holds A m b msg)
    (hg : Slots.getData A msg i = some (bytes, n)) :
    ∃ p, msgGetData A m b i = some (some (p, n)) ∧ bytes.length ≤ n ∧
    m.load p bytes.length = bytes := by
  obtain ⟨words, hi, rfl⟩ := slot_of_getData hg
  exact ⟨_, h.getData hi, (h.blocks i bytes words hi).2⟩

variable {slot slot' : Slot}

theorem offset_set (hi : msg[i]? = some slot) (hwords : slot'.words = slot.words) (j : ℕ) :
    offset (msg.set i slot') j = offset msg j := by
  have hmap : (msg.set i slot').map Slot.words = msg.map Slot.words := by
    rw [List.map_set, hwords]
    obtain ⟨hlt, hget⟩ := List.getElem?_eq_some_iff.mp hi
    refine List.ext_getElem (by simp) fun k hk _ => ?_
    rw [List.getElem_set]
    split_ifs with hik
    · simp [← hik, hget]
    · rfl
  rw [offset, offset, map_take, map_take, hmap]

theorem total_set (hi : msg[i]? = some slot) (hwords : slot'.words = slot.words) :
    total (msg.set i slot') = total msg := by
  rw [total, total, offset_set hi hwords, length_set]

/-- A slot of the same kind and size takes the place of another. -/
theorem Holds.set {m' : ByteMem} (h : Holds A m b msg) (hi : msg[i]? = some slot)
    (hwords : slot'.words = slot.words) (hkind : slot'.isBlock = slot.isBlock)
    (hbits : ∀ f, getBits A m' b f = getBits A m b f)
    (hparams : ∀ j < maxMsgParams, j ≠ i → A.loadWord m' (paramAddr A b j) =
      A.loadWord m (paramAddr A b j))
    (hparam : A.loadWord m' (paramAddr A b i) = slot'.word (offset msg i))
    (hblock : ∀ bytes words, slot' = .block bytes words → bytes.length ≤ words * A.bytes ∧
      m'.load (dataAddr A b + offset msg i * A.bytes) bytes.length = bytes)
    (hblocks : ∀ j bytes words, j ≠ i → msg[j]? = some (.block bytes words) →
      m'.load (dataAddr A b + offset msg j * A.bytes) bytes.length =
        m.load (dataAddr A b + offset msg j * A.bytes) bytes.length) :
        Holds A m' b (msg.set i slot') := by
  obtain ⟨hlt, -⟩ := List.getElem?_eq_some_iff.mp hi
  have hmax := h.atMost
  refine ⟨by rw [hbits, h.numParams, List.length_set], by rwa [List.length_set],
    by rw [hbits, h.numDataWords, total_set hi hwords], by
    rw [total_set hi hwords]; exact h.fits, fun j => ?_,
    fun j s hj => ?_, fun j bs words hj => ?_⟩
  · rw [hbits, h.typeMap]
    by_cases hji : i = j
    · subst hji
      rw [getElem?_set_self hlt, hi, any_some, any_some, hkind]
    · rw [getElem?_set_ne hji]
  · rw [offset_set hi hwords]
    by_cases hji : i = j
    · subst hji
      rw [getElem?_set_self hlt] at hj
      cases hj
      exact hparam
    · rw [List.getElem?_set_ne hji] at hj
      have hj' := (List.getElem?_eq_some_iff.mp hj).1
      rw [hparams j (by omega) (Ne.symm hji), h.params j s hj]
  · rw [offset_set hi hwords]
    by_cases hji : i = j
    · subst hji
      rw [List.getElem?_set_self hlt] at hj
      have hs := some.inj hj
      obtain ⟨hlen, hload⟩ := hblock bs words hs
      refine ⟨?_, hlen, hload⟩
      cases slot with
      | scalar v =>
        rw [hs] at hkind
        cases hkind
      | block bytes₀ words₀ =>
        have hpos := (h.blocks i bytes₀ words₀ hi).1
        rw [hs] at hwords
        simp only [Slot.words] at hwords
        omega
    · rw [getElem?_set_ne hji] at hj
      obtain ⟨hpos, hlen, hload⟩ := h.blocks j bs words hj
      exact ⟨hpos, hlen, (hblocks j bs words (Ne.symm hji) hj).trans hload⟩

theorem Holds.setParam (h : Holds A m b msg) (hv : v < A.ulong)
    (hs : Slots.setParam msg i v = some msg') :
    ∃ m', msgSetParam A m b i v = some m' ∧ Holds A m' b msg' := by
  unfold Slots.setParam at hs
  split at hs
  · rename_i v₀ hi
    cases hs
    have hlt := (List.getElem?_eq_some_iff.mp hi).1.trans_le h.atMost
    refine ⟨A.storeWord m (paramAddr A b i) v, ?_, ?_⟩
    · rw [msgSetParam, if_neg (h.index_lt hi), h.typeMap, hi]
      rfl
    · refine h.set hi rfl rfl (fun f => getBits_storeParam f i v) (fun j hj hji => ?_) ?_ (by simp) ?_
      · refine Arch.loadWord_storeWord_apart ?_
        rcases lt_or_gt_of_ne hji with hlt' | hgt
        · have hle := paramAddr_mono (A := A) (b := b) hlt'
          rw [paramAddr_succ] at hle
          exact .inr hle
        · have hle := paramAddr_mono (A := A) (b := b) hgt
          rw [paramAddr_succ] at hle
          exact .inl hle
      · rw [A.loadWord_storeWord, mod_eq_of_lt hv, Slot.word]
      · intro j bs words _ _
        have hbelow := param_below (A := A) (b := b) hlt
        exact Arch.load_storeWord_apart (.inl (by omega))
  · cases hs

/-- Bytes stored through the pointer to a block. -/
theorem Holds.fill (h : Holds A m b msg) (hf : Slots.fill A msg i bytes = some msg') :
    ∃ p n, msgGetData A m b i = some (some (p, n)) ∧ bytes.length ≤ n ∧
    Holds A (m.store p bytes) b msg' := by
  unfold Slots.fill at hf
  split at hf
  · rename_i bytes₀ words hi
    split_ifs at hf with hlen
    cases hf
    have hlt := (List.getElem?_eq_some_iff.mp hi).1.trans_le h.atMost
    refine ⟨_, _, h.getData hi, hlen, h.set hi rfl rfl (fun f => ?_) (fun j hj _ => ?_) ?_ ?_ ?_⟩
    · refine getBits_eq_of_header f fun x _ hx => store_outside (.inl ?_)
      have hbelow : b + A.bytes ≤ dataAddr A b := header_below b maxMsgParams
      omega
    · have hbelow := param_below (A := A) (b := b) hj
      exact Arch.loadWord_congr fun k hk => store_outside (.inl (by omega))
    · have hbelow := param_below (A := A) (b := b) hlt
      rw [Arch.loadWord_congr fun k hk => store_outside (.inl (by omega)), h.params i _ hi]
      rfl
    · rintro bytes' words' ⟨⟩
      exact ⟨hlen, load_store _ _ _⟩
    · intro j bs words' hji hj
      have hlen' := (h.blocks j bs words' hj).2.1
      refine load_eq_iff.mpr fun k hk => store_outside ?_
      rcases lt_or_gt_of_ne hji with hlt' | hgt
      · have hle := mul_le_mul_right A.bytes (offset_add_words_le hj hlt')
        simp only [Slot.words, add_mul] at hle
        exact .inl (by omega)
      · have hle := mul_le_mul_right A.bytes (offset_add_words_le hi hgt)
        simp only [Slot.words, add_mul] at hle
        exact .inr (by omega)
  · cases hf

/-- The calls that build a message, with sizes that do not wrap; `fill` stores through the pointer
to a block. -/
inductive MsgCall (A : Arch)
  | appendParam (v : Fin A.ulong)
  | appendInt (v : ℤ)
  | appendData (data : Option (List UInt8)) (size : ℕ) (pos : 0 <
    size) (fits : size + (A.bytes - 1) < A.ulong)
  | appendStr (str : CStr) (fits : str.chars.length + 1 + (A.bytes - 1) < A.ulong)
  | setParam (i : ℕ) (v : Fin A.ulong)
  | fill (i : ℕ) (bytes : List UInt8)

def slotsStep (msg : Slots) : MsgCall A → Option Slots
  | .appendParam v => msg.appendParam v
  | .appendInt v => msg.appendInt A v
  | .appendData data size _ _ => msg.appendData A (data.getD []) size
  | .appendStr str _ => msg.appendStr A str
  | .setParam i v => msg.setParam i v
  | .fill i bytes => msg.fill A i bytes

def bytesStep (b : ℕ) (m : ByteMem) : MsgCall A → Option ByteMem
  | .appendParam v => msgAppendParam A m b v
  | .appendInt v => msgAppendInt A m b v
  | .appendData data size _ _ => msgAppendData A m b data size
  | .appendStr str _ => msgAppendStr A m b (some str) 0
  | .setParam i v => msgSetParam A m b i v
  | .fill i bytes => (msgGetData A m b i).bind (Option.map fun p => m.store p.1 bytes)

theorem Holds.step (h : Holds A m b msg) {call : MsgCall A} (hs : slotsStep msg call = some msg') :
    ∃ m', bytesStep b m call = some m' ∧ Holds A m' b msg' := by
  cases call with
  | appendParam v => exact h.appendParam v.isLt hs
  | appendInt v => exact h.appendInt hs
  | appendData data size hpos hfits => exact h.appendData hpos hfits hs
  | appendStr str hfits => exact h.appendStr hfits hs
  | setParam i v => exact h.setParam v.isLt hs
  | fill i bytes =>
    obtain ⟨p, n, hget, -, hholds⟩ := h.fill hs
    exact ⟨_, by rw [bytesStep, hget]; rfl, hholds⟩

theorem Holds.run (h : Holds A m b msg) {calls : List (MsgCall A)}
    (hrun : calls.foldlM slotsStep msg = some msg') :
    ∃ m', calls.foldlM (bytesStep b) m = some m' ∧ Holds A m' b msg' := by
  induction calls generalizing m msg with
  | nil => exact ⟨m, rfl, some.inj hrun ▸ h⟩
  | cons call calls ih =>
    obtain ⟨msg₁, hs, hrun⟩ := bind_eq_some_iff.mp hrun
    obtain ⟨m₁, hm₁, h₁⟩ := h.step hs
    rw [foldlM_cons, hm₁]
    exact ih h₁ hrun

/-- A message that is built on slots is built on bytes, and the receiver of its copy reads the
slots. -/
theorem slots_refined_by_bytes (A : Arch) (m : ByteMem) (src dst pid tid : ℕ)
    (calls : List (MsgCall A)) (msg : Slots)
    (hapart : NoOverlap dst maxMsgSize src maxMsgSize) (hrun : calls.foldlM slotsStep [] =
    some msg) :
    ∃ m', calls.foldlM (bytesStep src) (getEmptyMsg A m src) = some m' ∧
      let received := (copyMsg A dst src pid tid (Traced.start m')).mem
      (∀ i v, msg.getParam i = some v → msgGetParam A received dst i = some v) ∧
      ∀ i bytes n, msg.getData A i = some (bytes, n) →
        ∃ p, msgGetData A received dst i = some (some (p, n)) ∧ bytes.length ≤ n ∧
        received.load p bytes.length = bytes := by
  obtain ⟨m', hm', hsent⟩ := (holds_empty m src).run hrun
  have hreceived := hsent.copied (copyMsg_spec hapart pid tid m').1 hapart
  exact ⟨m', hm', fun _ _ => hreceived.getParam_slots, fun _ _ _ => hreceived.getData_slots⟩

/-- A block is filled after it was appended without data, and a param is set again. -/
theorem slots_refined_by_bytes_of_filled :
    ∃ m', ([.appendParam ⟨7, by decide⟩, .appendData none 8 (by decide) (by decide),
        .fill 1 [1, 2], .setParam 0 ⟨9, by decide⟩] : List (MsgCall ⟨false, true⟩)).foldlM
        (bytesStep 0x1000)
        (getEmptyMsg ⟨false, true⟩ (fun _ => 0xff) 0x1000) = some m' ∧
      msgGetParam ⟨false, true⟩ (copyMsg ⟨false, true⟩ 0x3000 0x1000 5 6 (Traced.start m')).mem
        0x3000 0 = some 9 := by
  obtain ⟨m', hm', hparam, -⟩ :=
    slots_refined_by_bytes ⟨false, true⟩ (fun _ => 0xff) 0x1000 0x3000 5 6
    [.appendParam ⟨7, by decide⟩, .appendData none 8 (by decide) (by decide), .fill 1 [1, 2],
      .setParam 0 ⟨9, by decide⟩] _ (by decide) rfl
  exact ⟨m', hm', hparam 0 9 rfl⟩

end Toddler.Message
