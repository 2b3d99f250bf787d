import Toddler.Lib.Word
import Toddler.Spec.Message

/-! Messages survive the way from the append functions of the sender through `copy_msg` to the
getters of the receiver. Both sides meet at `Holds`, which says what a message area contains after
some appends. -/

namespace Toddler

open List Nat Arch

variable {m : ByteMem} {b n v x p w : ℕ}

namespace Arch

variable (A : Arch)

theorem bytes_cases : A.bytes = 4 ∨ A.bytes = 8 := by
  unfold bytes
  split_ifs <;> simp

theorem bytes_pos : 0 < A.bytes := by
  rcases A.bytes_cases with h | h <;> omega

theorem ulong_eq : A.ulong = 2 ^ (8 * A.bytes) := by
  rw [ulong, show 256 = 2 ^ 8 by rfl, ← pow_mul]

theorem le_ulong : 2 ^ 32 ≤ A.ulong := by
  rw [ulong_eq]
  exact Nat.pow_le_pow_right (by decide) (by rcases A.bytes_cases with h | h <;> omega)

theorem loadWord_lt (m : ByteMem) (a : ℕ) : A.loadWord m a < A.ulong := by
  have := decodeWord_lt A.big (m.load a A.bytes)
  rwa [ByteMem.length_load] at this

theorem loadWord_storeWord (m : ByteMem) (a v : ℕ) :
    A.loadWord (A.storeWord m a v) a = v % A.ulong := by
  have h := m.load_store a (encodeWord A.big A.bytes v)
  rw [length_encodeWord] at h
  rw [loadWord, storeWord, h, decodeWord_encodeWord, ulong]

variable {A} {a : ℕ}

theorem load_storeWord_apart (h : NoOverlap a A.bytes b n) :
    (A.storeWord m a v).load b n = m.load b n :=
  ByteMem.load_store_apart (by rwa [length_encodeWord])

theorem loadWord_storeWord_apart (h : NoOverlap a A.bytes b A.bytes) :
    A.loadWord (A.storeWord m a v) b = A.loadWord m b := by
  rw [loadWord, load_storeWord_apart h, loadWord]

theorem storeWord_outside (h : x < a ∨ a + A.bytes ≤ x) : A.storeWord m a v x = m x :=
  ByteMem.store_outside (by rwa [length_encodeWord])

theorem loadWord_congr {m' : ByteMem} (h : ∀ i < A.bytes, m (a + i) = m' (b + i)) :
    A.loadWord m a = A.loadWord m' b := by
  rw [loadWord, loadWord, ByteMem.load_eq_iff.mpr h]

theorem field_get_set_of_ne {q k : ℕ} (h : p + w ≤ q ∨ q + k ≤ p) (hp : p + w ≤ 32)
    (hq : q + k ≤ 32) : (A.field q k).get ((A.field p w).set x v) = (A.field q k).get x := by
  have hW : 32 ≤ 8 * A.bytes := by rcases A.bytes_cases with h | h <;> omega
  have hcases : (A.field q k).shift + (A.field q k).width ≤ (A.field p w).shift ∨
      (A.field p w).shift + (A.field p w).width ≤ (A.field q k).shift := by
    unfold field
    split_ifs <;> simp only <;> omega
  rcases hcases with hb | ha
  · exact BitField.get_set_below x v hb
  · exact BitField.get_set_above x v ha

theorem field_set_lt (hp : p + w ≤ 32) (hx : x < A.ulong) (v : ℕ) :
    (A.field p w).set x v < A.ulong := by
  have hW : 32 ≤ 8 * A.bytes := by rcases A.bytes_cases with h | h <;> omega
  rw [ulong_eq] at hx ⊢
  refine BitField.set_lt v ?_ hx
  unfold field
  split_ifs <;> simp only <;> omega

end Arch

namespace Message

variable {A : Arch}

theorem loadWord_setBits (hp : p + w ≤ 32) :
    A.loadWord (setBits A m b (A.field p w) v) b = (A.field p w).set (A.loadWord m b) v := by
  rw [setBits, A.loadWord_storeWord, mod_eq_of_lt (field_set_lt hp (A.loadWord_lt m b) v)]

theorem getBits_setBits (hp : p + w ≤ 32) :
    getBits A (setBits A m b (A.field p w) v) b (A.field p w) = v % 2 ^ w := by
  rw [getBits, loadWord_setBits hp, BitField.get_set]
  rfl

theorem getBits_setBits_of_ne {q k : ℕ} (h : p + w ≤ q ∨ q + k ≤ p) (hp : p + w ≤ 32)
    (hq : q + k ≤ 32) : getBits A (setBits A m b (A.field p w) v) b (A.field q k) =
    getBits A m b (A.field q k) := by
  rw [getBits, loadWord_setBits hp, field_get_set_of_ne h hp hq, getBits]

theorem setBits_outside {f : BitField} (h : x < b ∨ b + A.bytes ≤ x) : setBits A m b f v x = m x :=
  storeWord_outside h

variable (A) in
theorem maxMsgDataWords_eq : (3 + maxMsgParams + A.maxMsgDataWords) * A.bytes = maxMsgSize := by
  rcases A.bytes_cases with h | h <;> simp only [maxMsgDataWords, h] <;> rfl

variable (A) in
theorem paramAddr_succ (b i : ℕ) : paramAddr A b (i + 1) = paramAddr A b i + A.bytes := by
  unfold paramAddr
  ring

variable (A) in
theorem paramAddr_max : paramAddr A b maxMsgParams = dataAddr A b := rfl

variable {i : ℕ}

theorem paramAddr_mono {j : ℕ} (h : i ≤ j) : paramAddr A b i ≤ paramAddr A b j :=
  Nat.add_le_add_left (Nat.mul_le_mul_right _ (Nat.add_le_add_left h 3)) b

theorem param_below (h : i < maxMsgParams) : paramAddr A b i + A.bytes ≤ dataAddr A b := by
  rw [← paramAddr_succ]
  exact paramAddr_mono h

theorem header_below (b i : ℕ) : b + A.bytes ≤ paramAddr A b i := by
  unfold paramAddr
  have : A.bytes ≤ (3 + i) * A.bytes := Nat.le_mul_of_pos_left _ (by omega)
  omega

theorem data_within (h : n ≤ A.maxMsgDataWords) : dataAddr A b + n * A.bytes ≤ b + maxMsgSize := by
  have := maxMsgDataWords_eq A
  have hn : n * A.bytes ≤ A.maxMsgDataWords * A.bytes := Nat.mul_le_mul_right _ h
  rw [add_mul] at this
  unfold dataAddr
  omega

variable (A) in
theorem dataAddr_within (b : ℕ) : dataAddr A b ≤ b + maxMsgSize := by
  simpa using data_within (zero_le _)

variable (A) in
theorem header_within (b : ℕ) : b + 3 * A.bytes ≤ b + maxMsgSize := by
  rcases A.bytes_cases with h | h <;> simp [h, maxMsgSize]

theorem param_within (h : i < maxMsgParams) :
    b ≤ paramAddr A b i ∧ paramAddr A b i + A.bytes ≤ b + maxMsgSize :=
  ⟨le_add_right _ _, (param_below h).trans (dataAddr_within A b)⟩

@[simp] theorem read_mem (s : Traced) (a : ℕ) : (s.read A a).mem = s.mem := rfl

@[simp] theorem read_reads (s : Traced) : (s.read A a).reads = (a, A.bytes) :: s.reads := rfl

@[simp] theorem read_writes (s : Traced) : (s.read A a).writes = s.writes := rfl

@[simp] theorem write_mem (s : Traced) (a v : ℕ) : (s.write A a v).mem = A.storeWord s.mem a v :=
  rfl

@[simp] theorem write_reads (s : Traced) : (s.write A a v).reads = s.reads := rfl

@[simp] theorem write_writes (s : Traced) : (s.write A a v).writes = (a, A.bytes) :: s.writes := rfl

/-- What the loop over the params from `i` to `n` makes of the memory and adds to the trace. -/
structure ParamsCopied (A : Arch) (dst src i n : ℕ) (s s' : Traced) : Prop where
  frame : ∀ x, x < paramAddr A dst i ∨ paramAddr A dst n ≤ x → s'.mem x = s.mem x
  params : ∀ j, i ≤ j → j < n → A.loadWord s'.mem (paramAddr A dst j) =
    A.loadWord s.mem (paramAddr A src j)
  reads : ∀ r ∈ s'.reads, r ∈ s.reads ∨ r = (src, A.bytes) ∨ ∃ j < n, r = (paramAddr A src j,
    A.bytes)
  writes : ∀ w ∈ s'.writes, w ∈ s.writes ∨ ∃ j < n, w = (paramAddr A dst j, A.bytes)

variable {dst src : ℕ}

theorem ParamsCopied.done (s : Traced) : ParamsCopied A dst src n n s (s.read A src) := by
  refine ⟨fun x _ => rfl, fun j hij hj => by omega, fun r hr => ?_, fun w hw => .inl hw⟩
  rcases mem_cons.mp hr with rfl | hr
  · exact .inr (.inl rfl)
  · exact .inl hr

section

variable (hapart : NoOverlap dst maxMsgSize src maxMsgSize)
include hapart

theorem ParamsCopied.round {s s' : Traced} (hi : i < n) (hn : n ≤ maxMsgParams)
    (h : ParamsCopied A dst src (i + 1) n (((s.read A src).read A (paramAddr A src i)).write A
    (paramAddr A dst i)
      (A.loadWord s.mem (paramAddr A src i))) s') : ParamsCopied A dst src i n s s' := by
  have hsucc := paramAddr_succ A dst i
  have hle := paramAddr_mono (A := A) (b := dst) (show i + 1 ≤ n from hi)
  refine ⟨fun x hx => ?_, fun j hij hj => ?_, fun r hr => ?_, fun w hw => ?_⟩
  · rw [h.frame x (by omega), write_mem, storeWord_outside (by omega)]
    rfl
  · rcases eq_or_lt_of_le hij with rfl | hlt
    · -- the later rounds leave this param as it is
      have hkeep : A.loadWord s'.mem (paramAddr A dst i) =
        A.loadWord (A.storeWord s.mem (paramAddr A dst i)
          (A.loadWord s.mem (paramAddr A src i))) (paramAddr A dst i) :=
        loadWord_congr fun k hk => h.frame _ (by omega)
      rw [hkeep, A.loadWord_storeWord, mod_eq_of_lt (A.loadWord_lt _ _)]
    · rw [h.params j hlt hj]
      obtain ⟨h1, h2⟩ := param_within (hi.trans_le hn)
      obtain ⟨h3, h4⟩ := param_within (hj.trans_le hn)
      exact loadWord_storeWord_apart (hapart.mono h1 h2 h3 h4)
  · rcases h.reads r hr with hr | hr
    · simp only [write_reads, read_reads, mem_cons] at hr
      rcases hr with hr | hr | hr
      · exact .inr (.inr ⟨i, hi, hr⟩)
      · exact .inr (.inl hr)
      · exact .inl hr
    · exact .inr hr
  · rcases h.writes w hw with hw | hw
    · rcases mem_cons.mp hw with hw | hw
      · exact .inr ⟨i, hi, hw⟩
      · exact .inl hw
    · exact .inr hw

/-- The fuel is enough for the rounds that are left, and the rounds do not change `num_params` of
the source. -/
theorem copyParams_spec (hn : n ≤ maxMsgParams)
    (fuel : ℕ) : ∀ (i : ℕ) (s : Traced), A.numParams.get (A.loadWord s.mem src) = n → i ≤ n →
    n < i + fuel →
      ParamsCopied A dst src i n s (copyParams A dst src fuel i s) := by
  induction fuel with
  | zero =>
    intro i s _ hi hfuel
    omega
  | succ fuel ih =>
    intro i s hnum hi hfuel
    simp only [copyParams, hnum]
    by_cases hlt : i < n
    · rw [if_pos hlt]
      refine ParamsCopied.round hapart hlt hn (ih (i + 1) _ ?_ hlt (by omega))
      obtain ⟨h1, h2⟩ := param_within (hlt.trans_le hn)
      rw [write_mem, loadWord_storeWord_apart (hapart.mono h1 h2 le_rfl (by omega))]
      exact hnum
    · rw [if_neg hlt, le_antisymm hi (not_lt.mp hlt)]
      exact ParamsCopied.done s

/-- What `copy_msg` makes of the memory. It writes past the message area if there are more data
words than it has room for; the data arrives unless the words read there are overwritten first. -/
structure Copied (A : Arch) (dst src pid tid : ℕ) (m m' : ByteMem) : Prop where
  header : A.loadWord m' dst = A.loadWord m src
  sender : A.loadWord m' (dst + A.bytes) = pid % A.ulong ∧
    A.loadWord m' (dst + 2 * A.bytes) = tid % A.ulong
  params : ∀ i < getBits A m src A.numParams,
    A.loadWord m' (paramAddr A dst i) = A.loadWord m (paramAddr A src i)
  data : NoOverlap dst ((3 + maxMsgParams + getBits A m src A.numDataWords) * A.bytes)
    (dataAddr A src)
      (getBits A m src A.numDataWords * A.bytes) →
    m'.load (dataAddr A dst) (getBits A m src A.numDataWords * A.bytes) =
      m.load (dataAddr A src) (getBits A m src A.numDataWords * A.bytes)
  frame : ∀ x, x < dst ∨ dst + (3 + maxMsgParams + getBits A m src A.numDataWords) * A.bytes ≤ x →
    m' x = m x

/-- The ranges of a trace: words of the messages and the data words, if there are any. -/
structure CopyTrace (A : Arch) (dst src n : ℕ) (s : Traced) : Prop where
  reads : ∀ r ∈ s.reads, (r.2 = A.bytes ∧ src ≤ r.1 ∧ r.1 + A.bytes ≤ src + maxMsgSize) ∨
    (n ≠ 0 ∧ r = (dataAddr A src, n * A.bytes))
  writes : ∀ w ∈ s.writes, (w.2 = A.bytes ∧ dst ≤ w.1 ∧ w.1 + A.bytes ≤ dst + maxMsgSize) ∨
    (n ≠ 0 ∧ w = (dataAddr A dst, n * A.bytes))
  data : n ≠ 0 → (dataAddr A src, n * A.bytes) ∈ s.reads ∧ (dataAddr A dst, n * A.bytes) ∈ s.writes

/-- The state of `copy_msg` after its params. -/
structure HeadCopied (A : Arch) (dst src pid tid : ℕ) (m : ByteMem) (s : Traced) : Prop where
  header : A.loadWord s.mem dst = A.loadWord m src
  sender : A.loadWord s.mem (dst + A.bytes) = pid % A.ulong ∧
    A.loadWord s.mem (dst + 2 * A.bytes) = tid % A.ulong
  params : ∀ i < getBits A m src A.numParams,
    A.loadWord s.mem (paramAddr A dst i) = A.loadWord m (paramAddr A src i)
  frame : ∀ x, x < dst ∨ dataAddr A dst ≤ x → s.mem x = m x
  reads : ∀ r ∈ s.reads, r.2 = A.bytes ∧ src ≤ r.1 ∧ r.1 + A.bytes ≤ src + maxMsgSize
  writes : ∀ w ∈ s.writes, w.2 = A.bytes ∧ dst ≤ w.1 ∧ w.1 + A.bytes ≤ dst + maxMsgSize

theorem headCopied (pid tid : ℕ) (m : ByteMem) :
    HeadCopied A dst src pid tid m (copyParams A dst src 16 0
      (((((Traced.start m).read A src).write A dst (A.loadWord m src)).write A (dst + A.bytes)
      pid).write A
        (dst + 2 * A.bytes) tid)) := by
  generalize hs3 : (((((Traced.start m).read A src).write A dst (A.loadWord m src)).write A (dst +
    A.bytes) pid).write A (dst + 2 * A.bytes) tid) = s3
  have hs := header_within A src
  have hparam0 : paramAddr A dst 0 = dst + 3 * A.bytes := rfl
  have hframe3 x (hx : x < dst ∨ dst + 3 * A.bytes ≤ x) : s3.mem x = m x := by
    rw [← hs3]
    simp only [write_mem]
    rw [storeWord_outside (by omega), storeWord_outside (by omega), storeWord_outside (by omega)]
    rfl
  have hsrc3 a (h1 : src ≤ a) (h2 : a + A.bytes ≤ src + maxMsgSize) :
      A.loadWord s3.mem a = A.loadWord m a := by
    refine loadWord_congr fun i hi => hframe3 _ ?_
    unfold NoOverlap at hapart
    omega
  have hmax : getBits A m src A.numParams ≤ maxMsgParams :=
    Nat.lt_succ_iff.mp (A.numParams.get_lt _)
  have hnum : A.numParams.get (A.loadWord s3.mem src) = getBits A m src A.numParams := by
    rw [hsrc3 src le_rfl (by omega)]
    rfl
  have hp := copyParams_spec hapart hmax 16 0 s3 hnum (Nat.zero_le _)
    (by unfold maxMsgParams at hmax; omega)
  have hbound := paramAddr_mono (A := A) (b := dst) hmax
  rw [paramAddr_max] at hbound
  -- the loop leaves the first three words as they are
  have hhead a (h : a + A.bytes ≤ dst + 3 * A.bytes) :
      A.loadWord (copyParams A dst src 16 0 s3).mem a = A.loadWord s3.mem a :=
    loadWord_congr fun i hi => hp.frame _ (by omega)
  refine ⟨?_, ⟨?_, ?_⟩, fun i hi => ?_, fun x hx => ?_, fun r hr => ?_, fun w hw => ?_⟩
  · rw [hhead dst (by omega), ← hs3]
    simp only [write_mem]
    rw [loadWord_storeWord_apart (.inr (by omega)), loadWord_storeWord_apart (.inr (by omega)),
      A.loadWord_storeWord, mod_eq_of_lt (A.loadWord_lt _ _)]
  · rw [hhead _ (by omega), ← hs3]
    simp only [write_mem]
    rw [loadWord_storeWord_apart (.inr (by omega)), A.loadWord_storeWord]
  · rw [hhead _ (by omega), ← hs3]
    simp only [write_mem]
    rw [A.loadWord_storeWord]
  · rw [hp.params i (zero_le _) hi]
    obtain ⟨h1, h2⟩ := param_within (hi.trans_le hmax)
    exact hsrc3 _ h1 h2
  · have := paramAddr_mono (A := A) (b := dst) (zero_le (getBits A m src A.numParams))
    rw [hp.frame x (by omega), hframe3 x (by omega)]
  · rcases hp.reads r hr with hr | rfl | ⟨j, hj, rfl⟩
    · rw [← hs3] at hr
      simp only [write_reads, read_reads, Traced.start, mem_singleton] at hr
      subst hr
      exact ⟨rfl, le_rfl, by simp only; omega⟩
    · exact ⟨rfl, le_rfl, by simp only; omega⟩
    · exact ⟨rfl, param_within (hj.trans_le hmax)⟩
  · rcases hp.writes w hw with hw | ⟨j, hj, rfl⟩
    · rw [← hs3] at hw
      simp only [write_writes, read_writes, Traced.start, mem_cons, not_mem_nil, or_false] at hw
      rcases hw with rfl | rfl | rfl
      all_goals exact ⟨rfl, by simp only; omega, by simp only; omega⟩
    · exact ⟨rfl, param_within (hj.trans_le hmax)⟩

theorem copyData_spec {pid tid : ℕ} {s : Traced} (h : HeadCopied A dst src pid tid m s) :
    Copied A dst src pid tid m (copyData A dst src s).mem ∧
      CopyTrace A dst src (getBits A m src A.numDataWords) (copyData A dst src s) := by
  have hdata := dataAddr_within A dst
  have hdst : dst + 3 * A.bytes ≤ dataAddr A dst :=
    Nat.add_le_add_left (Nat.mul_le_mul_right _ (Nat.le_add_right 3 _)) dst
  have hnum : A.numDataWords.get (A.loadWord s.mem src) = getBits A m src A.numDataWords := by
    rw [getBits, loadWord_congr fun i hi => h.frame (src + i) ?_]
    unfold NoOverlap at hapart
    omega
  have hend : dst + (3 + maxMsgParams + getBits A m src A.numDataWords) * A.bytes =
      dataAddr A dst + getBits A m src A.numDataWords * A.bytes := by
    unfold dataAddr
    ring
  have hkeep x (hx : x < dataAddr A dst ∨
    dataAddr A dst + getBits A m src A.numDataWords * A.bytes ≤ x) :
      (copyData A dst src s).mem x = s.mem x := by
    simp only [copyData, read_mem, hnum]
    split_ifs
    · exact ByteMem.memcpy_outside hx
    · rfl
  have hword a (ha : a + A.bytes ≤ dataAddr A dst) :
      A.loadWord (copyData A dst src s).mem a = A.loadWord s.mem a :=
    loadWord_congr fun i hi => hkeep _ (by omega)
  refine ⟨⟨?_, ⟨?_, ?_⟩, fun i hi => ?_, fun hsep => ?_, fun x hx => ?_⟩, ?_⟩
  · rw [hword dst (by omega), h.header]
  · rw [hword _ (by omega), h.sender.1]
  · rw [hword _ (by omega), h.sender.2]
  · rw [hword _ (param_below (hi.trans_le (Nat.lt_succ_iff.mp (A.numParams.get_lt _)))), h.params i hi]
  · have hload : s.mem.load (dataAddr A src) (getBits A m src A.numDataWords * A.bytes) =
        m.load (dataAddr A src) (getBits A m src A.numDataWords * A.bytes) := by
      refine ByteMem.load_eq_iff.mpr fun i hi => h.frame _ ?_
      unfold NoOverlap at hsep
      omega
    rw [← hload]
    simp only [copyData, read_mem, hnum]
    split_ifs with hz
    · exact ByteMem.load_memcpy (hsep.mono (le_add_right _ _) (by omega) le_rfl le_rfl)
    · rw [not_not.mp hz, zero_mul]
      rfl
  · rw [hkeep x (by omega), h.frame x (by omega)]
  · simp only [copyData, read_mem, hnum]
    split_ifs with hz
    · refine ⟨fun r hr => ?_, fun w hw => ?_, fun _ => ⟨mem_cons_self, mem_cons_self⟩⟩
      · simp only [Traced.memcpy, read_reads, mem_cons] at hr
        rcases hr with rfl | rfl | rfl | hr
        · exact .inr ⟨hz, rfl⟩
        · exact .inl ⟨rfl, le_rfl, by simp only; omega⟩
        · exact .inl ⟨rfl, le_rfl, by simp only; omega⟩
        · exact .inl (h.reads r hr)
      · rcases mem_cons.mp hw with rfl | hw
        · exact .inr ⟨hz, rfl⟩
        · exact .inl (h.writes w hw)
    · refine ⟨fun r hr => ?_, fun w hw => .inl (h.writes w hw), fun hn => absurd hn hz⟩
      rcases mem_cons.mp hr with rfl | hr
      · exact .inl ⟨rfl, le_rfl, by simp only; omega⟩
      · exact .inl (h.reads r hr)

theorem copyMsg_spec (pid tid : ℕ) (m : ByteMem) :
    Copied A dst src pid tid m (copyMsg A dst src pid tid (Traced.start m)).mem ∧
      CopyTrace A dst src (getBits A m src A.numDataWords) (copyMsg A dst src pid tid (Traced.start m)) :=
  copyData_spec hapart (headCopied hapart pid tid m)

end

end Message

end Toddler
