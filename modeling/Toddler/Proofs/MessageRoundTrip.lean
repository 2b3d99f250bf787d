import Toddler.Proofs.Message
import Toddler.Spec.Slots

/-! Round trips of IPC messages. An append adds a slot to what the message holds, `copy_msg` carries
all slots to the area of the receiver, and the getters read a slot back. -/

namespace Toddler.Message

open List Option Nat ByteMem Arch

structure Holds (A : Arch) (m : ByteMem) (b : ℕ) (slots : List Slot) : Prop where
  numParams : getBits A m b A.numParams = slots.length
  atMost : slots.length ≤ maxMsgParams
  numDataWords : getBits A m b A.numDataWords = total slots
  fits : total slots ≤ A.maxMsgDataWords
  typeMap : ∀ i, (getBits A m b A.paramTypeMap).testBit i = (slots[i]?.any Slot.isBlock)
  params : ∀ i slot, slots[i]? = some slot →
    A.loadWord m (paramAddr A b i) = slot.word (offset slots i)
  blocks : ∀ i bytes words, slots[i]? = some (.block bytes words) →
    0 < words ∧ bytes.length ≤ words * A.bytes ∧
    m.load (dataAddr A b + offset slots i * A.bytes) bytes.length = bytes

section Offset

variable {slots : List Slot} {slot : Slot} {i j : ℕ}

theorem offset_append_of_le (h : i ≤ slots.length) :
    offset (slots ++ [slot]) i = offset slots i := by
  rw [offset, take_append_of_le_length h, offset]

theorem total_append (slots : List Slot) (slot : Slot) :
    total (slots ++ [slot]) = total slots + slot.words := by
  simp [total, offset]

theorem offset_length : offset slots slots.length = total slots := rfl

theorem offset_mono (h : i ≤ j) : offset slots i ≤ offset slots j := by
  obtain ⟨k, rfl⟩ := Nat.exists_eq_add_of_le h
  simp [offset, take_add]

theorem offset_succ (h : slots[i]? = some slot) :
    offset slots (i + 1) = offset slots i + slot.words := by
  simp [offset, take_add_one, h]

theorem offset_add_words_le (h : slots[i]? = some slot) (hij : i < j) :
    offset slots i + slot.words ≤ offset slots j :=
  offset_succ h ▸ offset_mono hij

theorem offset_add_words_le_total (h : slots[i]? = some slot) :
    offset slots i + slot.words ≤ total slots :=
  offset_add_words_le h (List.getElem?_eq_some_iff.mp h).1

end Offset

variable {A : Arch} {m m' : ByteMem} {b : ℕ} {slots : List Slot} {slot : Slot}

theorem Holds.congr (h : Holds A m b slots)
    (hm : ∀ x, x < dataAddr A b + total slots * A.bytes → m' x = m x) : Holds A m' b slots := by
  have hbelow : b + A.bytes ≤ dataAddr A b := header_below b maxMsgParams
  have hbits f : getBits A m' b f = getBits A m b f := by
    rw [getBits, loadWord_congr fun i hi => hm (b + i) (by omega), getBits]
  refine ⟨by rw [hbits, h.numParams], h.atMost, by rw [hbits, h.numDataWords], h.fits, fun i => ?_,
    fun i slot hi => ?_, fun i bytes words hi => ?_⟩
  · rw [hbits, h.typeMap]
  · have hlt := (List.getElem?_eq_some_iff.mp hi).1.trans_le h.atMost
    have := param_below (A := A) (b := b) hlt
    rw [loadWord_congr fun k hk => hm (paramAddr A b i + k) (by omega), h.params i slot hi]
  · obtain ⟨hpos, hlen, hload⟩ := h.blocks i bytes words hi
    refine ⟨hpos, hlen, ?_⟩
    rw [load_eq_iff.mpr fun k hk => hm _ ?_, hload]
    have hle := mul_le_mul_right A.bytes (offset_add_words_le_total hi)
    simp only [Slot.words, add_mul] at hle
    omega

structure Pushed (A : Arch) (b : ℕ) (slots : List Slot) (slot : Slot) (m m' : ByteMem) : Prop where
  numParams : getBits A m' b A.numParams = slots.length + 1
  numDataWords : getBits A m' b A.numDataWords = total slots + slot.words
  typeMap : ∀ i, (getBits A m' b A.paramTypeMap).testBit i =
    ((getBits A m b A.paramTypeMap).testBit i || (slot.isBlock && decide (i = slots.length)))
  param : A.loadWord m' (paramAddr A b slots.length) = slot.word (total slots)
  block : ∀ bytes words, slot = .block bytes words → 0 < words ∧ bytes.length ≤ words * A.bytes ∧
    m'.load (dataAddr A b + total slots * A.bytes) bytes.length = bytes
  frame : ∀ x, (b + A.bytes ≤ x ∧ x < paramAddr A b slots.length) ∨
    paramAddr A b slots.length + A.bytes ≤ x → m' x = m x

variable {i : ℕ}

theorem getElem?_push {s : Slot} (h : (slots ++ [slot])[i]? = some s) :
    (i < slots.length ∧ slots[i]? = some s) ∨ (i = slots.length ∧ s = slot) := by
  have hlt := (List.getElem?_eq_some_iff.mp h).1
  rw [List.length_append] at hlt
  rcases Nat.lt_succ_iff_lt_or_eq.mp hlt with hi | rfl
  · rw [List.getElem?_append_left hi] at h
    exact .inl ⟨hi, h⟩
  · simp only [List.getElem?_concat_length, Option.some.injEq] at h
    exact .inr ⟨rfl, h.symm⟩

theorem Holds.push (h : Holds A m b slots) (hroom : slots.length < maxMsgParams)
    (hfits : total slots + slot.words ≤ A.maxMsgDataWords) (hp : Pushed A b slots slot m m') :
    Holds A m' b (slots ++ [slot]) := by
  refine ⟨by simp [hp.numParams], by simpa using hroom, by rw [hp.numDataWords, total_append], by
    rwa [total_append],
    fun i => ?_, fun i s hi => ?_, fun i bytes words hi => ?_⟩
  · rw [hp.typeMap, h.typeMap]
    rcases lt_trichotomy i slots.length with hlt | rfl | hgt
    · simp [getElem?_append_left hlt, hlt.ne]
    · simp
    · rw [getElem?_eq_none hgt.le, getElem?_eq_none (by simpa using hgt)]
      simp [hgt.ne']
  · rcases getElem?_push hi with ⟨hlt, hi⟩ | ⟨rfl, rfl⟩
    · have h1 := header_below (A := A) b i
      have h2 := paramAddr_mono (A := A) (b := b) (show i + 1 ≤ slots.length from hlt)
      rw [paramAddr_succ] at h2
      rw [offset_append_of_le hlt.le, loadWord_congr fun k hk => hp.frame _ (.inl (by omega)),
        h.params i s hi]
    · rw [offset_append_of_le le_rfl, hp.param, offset_length]
  · rcases getElem?_push hi with ⟨hlt, hi⟩ | ⟨rfl, hslot⟩
    · obtain ⟨hpos, hlen, hload⟩ := h.blocks i bytes words hi
      refine ⟨hpos, hlen, ?_⟩
      have := param_below (A := A) (b := b) hroom
      rw [offset_append_of_le hlt.le, load_eq_iff.mpr fun k hk => hp.frame _ (.inr (by omega)), hload]
    · rw [offset_append_of_le le_rfl]
      exact hp.block bytes words hslot.symm

theorem getBits_eq_of_header (f : BitField) (h : ∀ x, b ≤ x → x < b + A.bytes → m' x = m x) :
    getBits A m' b f = getBits A m b f := by
  rw [getBits, loadWord_congr fun i hi => h (b + i) (by omega) (by omega), getBits]

theorem getBits_storeParam (f : BitField) (i v : ℕ) :
    getBits A (A.storeWord m (paramAddr A b i) v) b f = getBits A m b f := by
  refine getBits_eq_of_header f fun x _ hx => storeWord_outside ?_
  have := header_below (A := A) b i
  omega

theorem loadWord_param_setBits (f : BitField) (i v : ℕ) :
    A.loadWord (setBits A m b f v) (paramAddr A b i) = A.loadWord m (paramAddr A b i) :=
  loadWord_congr fun _ _ => setBits_outside (.inr (by have := header_below (A := A) b i; omega))

variable {v : ℕ}

theorem pushed_param (h : Holds A m b slots) (hroom : slots.length < maxMsgParams)
    (hv : v < A.ulong) : Pushed A b slots (.scalar v) m
      (setBits A (A.storeWord m (paramAddr A b slots.length) v) b A.numParams (slots.length + 1)) := by
  have hlt : slots.length + 1 < 2 ^ 4 := by
    unfold maxMsgParams at hroom
    omega
  refine ⟨?_, ?_, fun i => ?_, ?_, nofun, fun x hx => ?_⟩
  · rw [numParams, getBits_setBits (by decide), mod_eq_of_lt hlt]
  · rw [numParams, numDataWords, getBits_setBits_of_ne (by decide) (by decide) (by decide),
      getBits_storeParam]
    exact h.numDataWords
  · rw [numParams, paramTypeMap, getBits_setBits_of_ne (by decide) (by decide) (by decide),
      getBits_storeParam]
    simp [Slot.isBlock]
  · rw [loadWord_param_setBits, A.loadWord_storeWord, mod_eq_of_lt hv, Slot.word]
  · have := header_below (A := A) b slots.length
    rw [setBits_outside (by omega), storeWord_outside (by omega)]

theorem holds_appendParam (h : Holds A m b slots) (hv : v < A.ulong)
    (ha : msgAppendParam A m b v = some m') : Holds A m' b (slots ++ [.scalar v]) := by
  simp only [msgAppendParam, h.numParams] at ha
  split_ifs at ha with hfull
  cases ha
  have hroom : slots.length < maxMsgParams := not_le.mp hfull
  exact h.push hroom (by simpa [Slot.words] using h.fits) (pushed_param h hroom hv)

variable {bytes : List UInt8} {words : ℕ}

section

variable (h : Holds A m b slots) (hroom : slots.length < maxMsgParams)
  (hfits : total slots + words ≤ A.maxMsgDataWords) (hpos : 0 < words) (hlen : bytes.length ≤
  words * A.bytes)
include h hroom hfits hpos hlen

/-- The last lines of `msg_append_data` and `msg_append_str`, once the bytes are in place. -/
theorem pushed_descriptor (hload : m.load (dataAddr A b + total slots * A.bytes) bytes.length =
    bytes) : Pushed A b slots (.block bytes words) m (appendDescriptor A m b words) := by
  have hlt : slots.length + 1 < 2 ^ 4 := by
    unfold maxMsgParams at hroom
    omega
  have hbit : 1 <<< slots.length < 2 ^ 16 := by
    rw [Nat.one_shiftLeft]
    exact Nat.pow_lt_pow_right (by decide) (by omega)
  have htypes : getBits A m b (A.field 0 16) < 2 ^ 16 := BitField.get_lt _ _
  have hmax : A.maxMsgDataWords < 2 ^ 12 := by
    rcases A.bytes_cases with h | h <;> simp [maxMsgDataWords, h, maxMsgSize, maxMsgParams]
  have hdesc : total slots <<< 16 ||| words < A.ulong := by
    refine lt_of_lt_of_le (Nat.or_lt_two_pow ?_ ?_) A.le_ulong
    · rw [shiftLeft_eq]
      omega
    · omega
  have hmem : appendDescriptor A m b words = setBits A (setBits A (setBits A
      (A.storeWord m (paramAddr A b slots.length) (total slots <<< 16 ||| words)) b A.paramTypeMap
        (getBits A m b A.paramTypeMap ||| 1 <<< slots.length)) b A.numDataWords (total slots + words))
          b A.numParams (slots.length + 1) := by
    simp only [appendDescriptor, getBits_storeParam]
    rw [numParams, numDataWords, paramTypeMap, getBits_setBits_of_ne (by decide) (by decide) (by decide),
      getBits_setBits_of_ne (by decide) (by decide) (by decide),
      getBits_setBits_of_ne (by decide) (by decide) (by decide), getBits_storeParam, getBits_storeParam]
    rw [show getBits A m b (A.field 16 4) = slots.length from h.numParams,
      show getBits A m b (A.field 20 12) = total slots from h.numDataWords]
  rw [hmem]
  refine ⟨?_, ?_, fun i => ?_, ?_, ?_, fun x hx => ?_⟩
  · rw [numParams, getBits_setBits (by decide), mod_eq_of_lt hlt]
  · rw [numParams, numDataWords, getBits_setBits_of_ne (by decide) (by decide) (by decide),
      getBits_setBits (by decide), mod_eq_of_lt (by omega), Slot.words]
  · rw [numParams, numDataWords, paramTypeMap, getBits_setBits_of_ne (by decide) (by decide) (by decide),
      getBits_setBits_of_ne (by decide) (by decide) (by decide), getBits_setBits (by decide),
      mod_eq_of_lt (or_lt_two_pow htypes hbit), testBit_or, one_shiftLeft, testBit_two_pow]
    simp [Slot.isBlock, eq_comm]
  · rw [loadWord_param_setBits, loadWord_param_setBits, loadWord_param_setBits,
      A.loadWord_storeWord, mod_eq_of_lt hdesc, Slot.word]
  · rintro bytes' words' ⟨⟩
    refine ⟨hpos, hlen, ?_⟩
    have h1 := param_below (A := A) (b := b) hroom
    have h2 := header_below (A := A) b slots.length
    rw [← hload, length_load]
    refine load_eq_iff.mpr fun k _ => ?_
    rw [setBits_outside (by omega), setBits_outside (by omega), setBits_outside (by omega),
      storeWord_outside (by omega)]
  · have := header_below (A := A) b slots.length
    rw [setBits_outside (by omega), setBits_outside (by omega), setBits_outside (by omega),
      storeWord_outside (by omega)]

/-- The bytes are stored behind the data words in use, and a descriptor is added. -/
theorem holds_appendBlock {m1 : ByteMem}
    (hbelow : ∀ x, x < dataAddr A b + total slots * A.bytes → m1 x = m x)
    (hload : m1.load (dataAddr A b + total slots * A.bytes) bytes.length = bytes) :
    Holds A (appendDescriptor A m1 b words) b (slots ++ [.block bytes words]) := by
  have h1 := h.congr hbelow
  exact h1.push hroom hfits (pushed_descriptor h1 hroom hfits hpos hlen hload)

end

variable {size : ℕ}

theorem alignUpVsize_div (h : size + (A.bytes - 1) < A.ulong) :
    alignUpVsize A size A.bytes / A.bytes = (size + (A.bytes - 1)) / A.bytes := by
  obtain ⟨k, hk, hbytes⟩ : ∃ k ≤ 8 * A.bytes, A.bytes = 2 ^ k := by
    rcases A.bytes_cases with h | h
    · exact ⟨2, by omega, h⟩
    · exact ⟨3, by omega, h⟩
  have hpos : 0 < A.bytes := by rcases A.bytes_cases with h | h <;> omega
  have hval : alignUpVsize A size A.bytes = A.bytes * ((size + (A.bytes - 1)) / A.bytes) := by
    rw [alignUpVsize, mod_eq_of_lt h]
    rw [A.ulong_eq] at h ⊢
    have := and_not_low h hk
    rwa [← hbytes] at this
  rw [hval, Nat.mul_div_cancel_left _ hpos]

theorem alignUpVsize_spec (h : size + (A.bytes - 1) < A.ulong) :
    size ≤ alignUpVsize A size A.bytes / A.bytes * A.bytes ∧
      (0 < size → 0 < alignUpVsize A size A.bytes / A.bytes) := by
  have hpos : 0 < A.bytes := by rcases A.bytes_cases with h | h <;> omega
  have hdiv := div_add_mod (size + (A.bytes - 1)) A.bytes
  have hmod := mod_lt (size + (A.bytes - 1)) hpos
  rw [alignUpVsize_div h, mul_comm]
  refine ⟨by omega, fun hsize => div_pos (by omega) hpos⟩

theorem holds_appendData (h : Holds A m b slots) (bytes : List UInt8) (hpos : 0 < bytes.length)
    (hwrap : bytes.length + (A.bytes - 1) < A.ulong)
    (ha : msgAppendData A m b (some bytes) bytes.length = some m') :
    Holds A m' b (slots ++ [.block bytes (alignUpVsize A bytes.length A.bytes / A.bytes)]) := by
  obtain ⟨hlen, hwords⟩ := alignUpVsize_spec hwrap
  simp only [msgAppendData, h.numParams, h.numDataWords, take_length] at ha
  split_ifs at ha with hfull hbig
  cases ha
  refine holds_appendBlock h (not_le.mp hfull) (not_lt.mp hbig) (hwords hpos) hlen (fun x hx => ?_)
    (load_store _ _ _)
  exact store_outside (.inl hx)

theorem strncpy_eq (chars : List UInt8) : ∀ (m : ByteMem) (d n : ℕ),
    strncpy m d chars n = m.store d (if chars.length < n then chars ++ [0] else chars.take n) := by
  induction chars with
  | nil =>
    intro m d n
    cases n with
    | zero =>
      funext x
      simp [strncpy, store]
    | succ n => simp [strncpy]
  | cons c chars ih =>
    intro m d n
    cases n with
    | zero =>
      funext x
      simp [strncpy, store]
    | succ n =>
      rw [strncpy, ih, store_cons]
      simp only [length_cons, add_lt_add_iff_right]
      split_ifs <;> rfl

/-- What is in memory after `strncpy` and the final NUL. -/
theorem load_strncpy (m : ByteMem) (d size : ℕ) (chars : List UInt8) :
    ((strncpy m d chars (size + 1)).store (d + size) [0]).load d ((chars.take size).length + 1) =
      chars.take size ++ [0] := by
  have hlen : (chars.take size).length = min size chars.length := length_take
  rw [load_add, strncpy_eq]
  congr 1
  · refine ext_getElem (by simp) fun i hi _ => ?_
    simp only [load, getElem_map, getElem_range, getElem_take]
    rw [store_outside (.inl (by omega))]
    split_ifs with h
    · rw [store_inside (by rw [length_append]; omega), getElem_append_left (by omega)]
    · rw [store_inside (by rw [length_take]; omega), getElem_take]
  · rw [hlen]
    rcases lt_or_ge chars.length size with h | h
    · -- the string ends before `size`, and `strncpy` has written the NUL
      rw [min_eq_right h.le, if_pos (by omega)]
      simp only [load, range_one, map_cons, add_zero]
      rw [store_outside (.inl (by omega)), store_inside (by simp)]
      simp
    · rw [min_eq_left h]
      exact load_store _ _ [0]

theorem strncpy_below {chars : List UInt8} {d n x : ℕ} (hx : x < d) :
    ((strncpy m d chars n).store (d + size) [0]) x = m x := by
  rw [store_outside (.inl (by omega)), strncpy_eq, store_outside (.inl hx)]

theorem holds_appendStr (h : Holds A m b slots) {s : CStr}
    (hwrap : (if size = 0 then s.chars.length else size) + 1 + (A.bytes - 1) < A.ulong)
    (ha : msgAppendStr A m b (some s) size = some m') :
    Holds A m' b (slots ++ [.block (s.text size ++ [0])
      (alignUpVsize A ((if size = 0 then s.chars.length else size) + 1) A.bytes / A.bytes)]) := by
  have htext : s.text size = s.chars.take (if size = 0 then s.chars.length else size) := by
    unfold CStr.text
    split_ifs <;> simp
  simp only [msgAppendStr, h.numParams, h.numDataWords, isNone_some, Bool.false_eq_true, false_and,
    if_false, map_some, getD_some] at ha
  generalize (if size = 0 then s.chars.length else size) = n at *
  rw [mod_eq_of_lt (by omega)] at ha
  obtain ⟨hlen, hwords⟩ := alignUpVsize_spec hwrap
  split_ifs at ha with hfull hbig
  cases ha
  refine holds_appendBlock h (not_le.mp hfull) (not_lt.mp hbig) (hwords (by omega)) ?_ (fun x hx =>
    strncpy_below hx) ?_
  · rw [htext, length_append, length_singleton, length_take]
    omega
  · rw [htext, length_append]
    exact load_strncpy _ _ _ _

def MsgArg.toSlot (A : Arch) : MsgArg → Slot
  | .param v => .scalar v
  | .int v => .scalar (v % A.ulong).toNat
  | .u64 v => if A.wide then .scalar v
      else .block (encodeWord A.big 8 v) (alignUpVsize A 8 A.bytes / A.bytes)
  | .data bytes => .block bytes (alignUpVsize A bytes.length A.bytes / A.bytes)
  | .str s size => .block (s.text size ++ [0])
      (alignUpVsize A ((if size = 0 then s.chars.length else size) + 1) A.bytes / A.bytes)

theorem ulong_of_wide (h : A.wide = true) : A.ulong = 2 ^ 64 := by
  rw [A.ulong_eq, bytes, if_pos h]

theorem holds_append (h : Holds A m b slots) {arg : MsgArg} (hv : arg.Valid A)
    (ha : msgAppend A m b arg = some m') : Holds A m' b (slots ++ [arg.toSlot A]) := by
  cases arg with
  | param v => exact holds_appendParam h hv ha
  | int v =>
    refine holds_appendParam h ?_ ha
    have hpos : (0 : ℤ) < A.ulong := by
      have := A.le_ulong
      omega
    have := Int.emod_lt_of_pos v hpos
    omega
  | u64 v =>
    simp only [msgAppend, msgAppendParamU64] at ha
    rw [MsgArg.toSlot]
    split_ifs at ha ⊢ with hw
    · exact holds_appendParam h (by rw [ulong_of_wide hw]; exact hv) ha
    · have hlen : (encodeWord A.big 8 v).length = 8 := length_encodeWord _ _ _
      have hwrap : 8 + (A.bytes - 1) < A.ulong := by
        have := A.le_ulong
        rcases A.bytes_cases with h | h <;> omega
      have := holds_appendData h (encodeWord A.big 8 v) (by omega) (by rwa [hlen]) (by rwa [hlen])
      rwa [hlen] at this
  | data bytes => exact holds_appendData h bytes hv.1 hv.2 ha
  | str s size => exact holds_appendStr h hv ha

theorem holds_appendAll (args : List MsgArg) :
    ∀ (m : ByteMem) (slots : List Slot), Holds A m b slots →
    (∀ arg ∈ args, arg.Valid A) → msgAppendAll A b m args = some m' →
      Holds A m' b (slots ++ args.map (MsgArg.toSlot A)) := by
  induction args with
  | nil =>
    intro m slots h _ ha
    cases ha
    simpa using h
  | cons arg args ih =>
    intro m slots h hv ha
    obtain ⟨m1, h1, hrest⟩ := bind_eq_some_iff.mp ha
    have := ih m1 _ (holds_append h (hv arg (by simp)) h1) (fun a ha => hv a (by simp [ha])) hrest
    simpa using this

theorem holds_empty (m : ByteMem) (b : ℕ) : Holds A (getEmptyMsg A m b) b [] := by
  have hbits f : getBits A (getEmptyMsg A m b) b f = 0 := by
    rw [getBits, getEmptyMsg, A.loadWord_storeWord]
    simp [BitField.get]
  refine ⟨hbits _, zero_le _, hbits _, zero_le _, fun i => ?_, by simp, by simp⟩
  simp [hbits]

theorem Holds.copied {dst src pid tid : ℕ} (h : Holds A m src slots)
    (hc : Copied A dst src pid tid m m')
    (hapart : NoOverlap dst maxMsgSize src maxMsgSize) : Holds A m' dst slots := by
  have hbits f : getBits A m' dst f = getBits A m src f := by
    rw [getBits, hc.header, getBits]
  have hdst := data_within (b := dst) h.fits
  have hsrc := data_within (b := src) h.fits
  have hdata := hc.data
  rw [h.numDataWords] at hdata
  have hload := hdata (hapart.mono le_rfl (by unfold dataAddr at hdst; rw [add_mul]; omega)
    (le_add_right _ _) hsrc)
  refine ⟨by rw [hbits, h.numParams], h.atMost, by rw [hbits, h.numDataWords], h.fits, fun i => ?_,
    fun i slot hi => ?_, fun i bytes words hi => ?_⟩
  · rw [hbits, h.typeMap]
  · rw [hc.params i (by rw [h.numParams]; exact (List.getElem?_eq_some_iff.mp hi).1), h.params i slot hi]
  · obtain ⟨hpos, hlen, hbytes⟩ := h.blocks i bytes words hi
    refine ⟨hpos, hlen, ?_⟩
    have hle := mul_le_mul_right A.bytes (offset_add_words_le_total hi)
    simp only [Slot.words, add_mul] at hle
    rw [load_eq_iff] at hload
    rw [← hbytes, length_load]
    refine load_eq_iff.mpr fun k hk => ?_
    have := hload (offset slots i * A.bytes + k) (by omega)
    simpa [add_assoc] using this

section

variable (h : Holds A m b slots)
include h

theorem Holds.index_lt (hi : slots[i]? = some slot) : ¬ getBits A m b A.numParams ≤ i := by
  rw [h.numParams, not_le]
  exact (List.getElem?_eq_some_iff.mp hi).1

theorem Holds.getParam (hi : slots[i]? = some (.scalar v)) : msgGetParam A m b i = some v := by
  rw [msgGetParam, if_neg (h.index_lt hi), h.typeMap, h.params i _ hi, hi]
  rfl

section

variable (hi : slots[i]? = some (.block bytes words))
include hi

/-- The offset and the number of words are read back out of a descriptor. -/
theorem Holds.descriptor :
    A.loadWord m (paramAddr A b i) >>> 16 = offset slots i ∧
    A.loadWord m (paramAddr A b i) &&& 0xffff = words := by
  have hmax : A.maxMsgDataWords < 2 ^ 12 := by
    rcases A.bytes_cases with h | h <;> simp [maxMsgDataWords, h, maxMsgSize, maxMsgParams]
  have hwords : words < 2 ^ 16 := by
    have := offset_add_words_le_total hi
    have := h.fits
    simp only [Slot.words] at *
    omega
  rw [h.params i _ hi, Slot.word, ← shiftLeft_add_eq_or_of_lt hwords,
    show 0xffff = 2 ^ 16 - 1 by rfl, and_two_pow_sub_one_eq_mod]
  omega

theorem Holds.getData :
    msgGetData A m b i = some (some (dataAddr A b + offset slots i * A.bytes,
    words * A.bytes)) := by
  obtain ⟨hoff, hwords⟩ := h.descriptor hi
  have hpos := (h.blocks i bytes words hi).1
  rw [msgGetData, if_neg (h.index_lt hi), h.typeMap, hi]
  simp [Slot.isBlock, hoff, hwords, hpos.ne']

theorem Holds.pointsTo : PointsTo A m b i bytes :=
  ⟨_, _, h.getData hi, (h.blocks i bytes words hi).2⟩

theorem Holds.copyData : msgCopyData A m b i bytes.length = some bytes := by
  obtain ⟨hoff, hwords⟩ := h.descriptor hi
  obtain ⟨-, hlen, hload⟩ := h.blocks i bytes words hi
  rw [msgCopyData, if_neg (h.index_lt hi), h.typeMap, hi]
  simp only [any_some, Slot.isBlock, not_true_eq_false, if_false, hoff, hwords,
    min_eq_left hlen, hload]

end

end

theorem bmod_ulong {v : ℤ} (h : -2 ^ 31 ≤ v ∧ v < 2 ^ 31) :
    Int.bmod ((v % A.ulong).toNat : ℤ) (2 ^ 32) = v := by
  have hdvd : ((2 ^ 32 : ℕ) : ℤ) ∣ A.ulong := by
    rw [A.ulong_eq]
    exact_mod_cast pow_dvd_pow 2 (show 32 ≤ 8 * A.bytes by rcases A.bytes_cases with h | h <;> omega)
  have hpos : (0 : ℤ) < A.ulong := by
    have := A.le_ulong
    omega
  rw [Int.toNat_of_nonneg (Int.emod_nonneg v hpos.ne'), Int.bmod, Int.emod_emod_of_dvd v hdvd]
  split_ifs <;> omega

theorem Holds.readsBack (h : Holds A m b slots) {arg : MsgArg} (hv : arg.Valid A)
    (hi : slots[i]? = some (arg.toSlot A)) : ReadsBack A m b i arg := by
  cases arg with
  | param v => exact h.getParam hi
  | int v =>
    rw [ReadsBack, msgGetInt, h.getParam hi, map_some, bmod_ulong hv]
  | u64 v =>
    rw [ReadsBack, msgGetParamU64]
    rw [MsgArg.toSlot] at hi
    split_ifs at hi ⊢ with hw
    · exact h.getParam hi
    · have hlen : (encodeWord A.big 8 v).length = 8 := length_encodeWord _ _ _
      have hcopy := h.copyData hi
      rw [hlen] at hcopy
      rw [hcopy, map_some, hlen]
      simp only [Nat.sub_self, replicate_zero, append_nil, decodeWord_encodeWord]
      rw [Nat.mod_eq_of_lt (show v < 256 ^ 8 from hv)]
  | data bytes => exact ⟨h.pointsTo hi, h.copyData hi⟩
  | str s size => exact h.pointsTo hi

/-- `msg_get_data` returns ranges of blocks only. -/
theorem Holds.block_of_getData (h : Holds A m b slots) {p n : ℕ}
    (hget : msgGetData A m b i = some (some (p, n))) :
    ∃ bytes words, slots[i]? = some (.block bytes words) ∧
    p = dataAddr A b + offset slots i * A.bytes ∧
      n = words * A.bytes := by
  have hbit : slots[i]?.any Slot.isBlock = true := by
    rw [← h.typeMap]
    unfold msgGetData at hget
    by_contra hbit
    split_ifs at hget
  obtain ⟨slot, hslot, hblock⟩ := (any_eq_true _ _).mp hbit
  cases slot with
  | scalar v => cases hblock
  | block bytes words =>
    rw [h.getData hslot] at hget
    cases hget
    exact ⟨bytes, words, hslot, rfl, rfl⟩

theorem Holds.dataDisjoint (h : Holds A m b slots) : DataDisjoint A m b := by
  have key (i j p n q k : ℕ) (hij : i < j) (hi : msgGetData A m b i = some (some (p, n)))
      (hj : msgGetData A m b j = some (some (q, k))) : p + n ≤ q := by
    obtain ⟨bytes, words, hslot, rfl, rfl⟩ := h.block_of_getData hi
    obtain ⟨-, -, -, rfl, -⟩ := h.block_of_getData hj
    have hle := mul_le_mul_right A.bytes (offset_add_words_le hslot hij)
    simp only [Slot.words, add_mul] at hle
    omega
  intro i j p n q k hne hi hj
  rcases lt_or_gt_of_ne hne with hij | hji
  · exact .inl (key i j p n q k hij hi hj)
  · exact .inr (key j i q k p n hji hj hi)

/-- Arguments appended to an empty message without a panic are read back from the area that the
kernel copies the message to, and the data arguments do not overlap there. -/
theorem message_round_trip (A : Arch) (m m' : ByteMem) (src dst pid tid : ℕ) (args : List MsgArg)
    (hapart : NoOverlap dst maxMsgSize src maxMsgSize) (hargs : ∀ arg ∈ args, arg.Valid A)
    (hrun : msgAppendAll A src (getEmptyMsg A m src) args = some m') :
    (∀ i arg, args[i]? = some arg →
      ReadsBack A (copyMsg A dst src pid tid (Traced.start m')).mem dst i arg) ∧
      DataDisjoint A (copyMsg A dst src pid tid (Traced.start m')).mem dst := by
  have hsent := holds_appendAll args _ [] (holds_empty m src) hargs hrun
  have hreceived := hsent.copied (copyMsg_spec hapart pid tid m').1 hapart
  refine ⟨fun i arg hi => hreceived.readsBack (hargs arg (mem_of_getElem? hi)) ?_,
    hreceived.dataDisjoint⟩
  simp [hi]

theorem message_round_trip_of_all_kinds :
    ∃ m', msgAppendAll ⟨false, true⟩ 0x1000 (getEmptyMsg ⟨false, true⟩ (fun _ => 0xff) 0x1000)
        [.param 7, .int (-1), .u64 0x123456789a, .data [1, 2, 3],
          .str ⟨[0x61, 0x62], by decide, by decide⟩ 0] = some m' ∧
      ReadsBack ⟨false, true⟩ (copyMsg ⟨false, true⟩ 0x3000 0x1000 5 6 (Traced.start m')).mem
        0x3000 2 (.u64 0x123456789a) ∧
      DataDisjoint ⟨false, true⟩ (copyMsg ⟨false, true⟩ 0x3000 0x1000 5 6 (Traced.start m')).mem
        0x3000 := by
  have hsome : (msgAppendAll ⟨false, true⟩ 0x1000 (getEmptyMsg ⟨false, true⟩ (fun _ => 0xff) 0x1000)
      [.param 7, .int (-1), .u64 0x123456789a, .data [1, 2, 3],
        .str ⟨[0x61, 0x62], by decide, by decide⟩ 0]).isSome := by decide +kernel
  obtain ⟨m', hm'⟩ := isSome_iff_exists.mp hsome
  have h := message_round_trip ⟨false, true⟩ _ m' 0x1000 0x3000 5 6 _ (by decide) ?_ hm'
  · exact ⟨m', hm', h.1 2 _ rfl, h.2⟩
  · simp only [forall_mem_cons]
    exact ⟨by decide, by decide, by decide, by decide, by decide, by simp⟩

end Toddler.Message
