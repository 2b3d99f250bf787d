import Toddler.Spec.ThreadBlock

/-! The parts of a thread's memory block. The message area takes 2 KB of the TLS part, but the size
in the thread information block stays that of the whole part, so the thread-local storage runs on
into the stack. -/

namespace Toddler

variable {type : ProcessType} {userMode : Bool} {attri : Option ThreadAttri} {block : BlockAnswer}

namespace ThreadMemory

/-- The message area, the thread information block, the thread-local storage and the stack, each as
its address and its size. -/
def parts (c : ThreadMemory × ThreadInfoBlock) : List (ℕ × ℕ) :=
  [(c.2.msg, c.1.msgSize), (c.2.self, tibSize), (c.2.tls, c.2.tlsSize),
    (add64 c.1.blockBase c.1.stackLimitOffset, sub64 c.1.stackTopOffset c.1.stackLimitOffset)]

structure LayoutSound (c : ThreadMemory × ThreadInfoBlock) : Prop where
  apart : (parts c).Pairwise fun p q => NoOverlap p.1 p.2 q.1 q.2
  inside : ∀ p ∈ parts c, c.1.blockBase ≤ p.1 ∧ p.1 + p.2 ≤ c.1.blockBase + c.1.blockSize

/-- Rounding the sizes of the attributes up to a page does not overflow. -/
def RoundsUp (attri : Option ThreadAttri) : Prop :=
  ∀ a ∈ attri, a.stackSize + (pageSize - 1) < word ∧ a.tlsSize + (pageSize - 1) < word

/-- The block that the allocator answers lies in the address space. -/
def Placed (userMode : Bool) (attri : Option ThreadAttri) (block : BlockAnswer) : Prop :=
  block.base + (roundedTls userMode attri + roundedStack userMode attri) < word

instance Placed.decidable (userMode : Bool) (attri : Option ThreadAttri) (block : BlockAnswer) :
    Decidable (Placed userMode attri block) := inferInstanceAs (Decidable (_ < _))

theorem pageSize_le_alignUpPage {x : ℕ} (h0 : x ≠ 0) (hx : x + (pageSize - 1) < word) :
    pageSize ≤ alignUpPage x := by
  rw [alignUpPage, add64_of_lt hx]
  have hpages : 1 ≤ (x + (pageSize - 1)) / pageSize := by
    unfold pageSize
    omega
  exact Nat.le_mul_of_pos_left pageSize hpages

theorem pageSize_le_attriSize {size : ThreadAttri → ℕ} {default : ℕ} (hdefault : pageSize ≤ default)
    (hround : ∀ a ∈ attri, size a + (pageSize - 1) < word) :
    pageSize ≤ attriSize attri size default := by
  cases attri with
  | none => exact hdefault
  | some a =>
    simp only [attriSize]
    split_ifs with h0
    · exact pageSize_le_alignUpPage h0 (hround a rfl)
    · exact hdefault

theorem pageSize_le_default (userMode : Bool) : pageSize ≤ if userMode then pageSize * 4
    else pageSize := by
  cases userMode <;> decide

theorem pageSize_le_roundedStack (userMode : Bool) (h : RoundsUp attri) :
    pageSize ≤ roundedStack userMode attri :=
  pageSize_le_attriSize (pageSize_le_default userMode) fun a ha => (h a ha).1

theorem pageSize_le_roundedTls (userMode : Bool) (h : RoundsUp attri) :
    pageSize ≤ roundedTls userMode attri :=
  pageSize_le_attriSize (pageSize_le_default userMode) fun a ha => (h a ha).2

/-- The process type decides the direct-mapped pointers only. -/
theorem parts_place_kernel (t : ThreadMemory) :
    parts ((t.place type block).makeRoom, (t.place type block).makeRoom.tib) =
      parts ((t.place .kernel block).makeRoom, (t.place .kernel block).makeRoom.tib) := by
  unfold place
  split_ifs <;> rfl

section

variable (hround : RoundsUp attri) (hplaced : Placed userMode attri block)
include hround hplaced

theorem parts_createExecContext :
    parts (createExecContext type userMode attri block) = [(block.base, maxMsgSize),
    (block.base + maxMsgSize, tibSize),
        (block.base + maxMsgSize + tibSize, roundedTls userMode attri - tibSize),
        (block.base + roundedTls userMode attri, roundedStack userMode attri - 16)] := by
  have hstack := pageSize_le_roundedStack userMode hround
  have htls := pageSize_le_roundedTls userMode hround
  unfold Placed at hplaced
  unfold createExecContext
  rw [parts_place_kernel]
  simp only [parts, setup, place, makeRoom, tib, if_true]
  generalize roundedStack userMode attri = stackSize at *
  generalize roundedTls userMode attri = tlsSize at *
  simp only [maxMsgSize, tibSize, pageSize] at *
  have hlimit : add64 0 tlsSize = tlsSize := by rw [add64_of_lt (by omega), Nat.zero_add]
  have htop : add64 tlsSize stackSize = tlsSize + stackSize := add64_of_lt (by omega)
  have hbase : add64 block.base 0 = block.base := add64_of_lt (by omega)
  have htop' : sub64 (tlsSize + stackSize) 16 = tlsSize + stackSize - 16 :=
    sub64_of_le (by omega) (by omega)
  have hstart : add64 0 2048 = 2048 := by decide
  have htib : add64 block.base 2048 = block.base + 2048 := add64_of_lt (by omega)
  have hstore : add64 (block.base + 2048) 56 = block.base + 2048 + 56 := add64_of_lt (by omega)
  have hsize : sub64 tlsSize 56 = tlsSize - 56 := sub64_of_le (by omega) (by omega)
  have hstackLow : add64 block.base tlsSize = block.base + tlsSize := add64_of_lt (by omega)
  have hstackSize : sub64 (tlsSize + stackSize - 16) tlsSize = stackSize - 16 := by
    rw [sub64_of_le (by omega) (by omega)]
    omega
  rw [hlimit, htop, hbase, htop', hstart, htib, hstore, hsize, hstackLow, hstackSize]

/-- The first byte of the stack is a byte of the thread-local storage, too. -/
theorem tls_meets_stack : ¬ LayoutSound (createExecContext type userMode attri block) := by
  intro hsound
  have htls := pageSize_le_roundedTls userMode hround
  have hapart := hsound.apart
  rw [parts_createExecContext hround hplaced] at hapart
  have hmeet : NoOverlap (block.base + maxMsgSize + tibSize) (roundedTls userMode attri - tibSize)
      (block.base + roundedTls userMode attri) (roundedStack userMode attri - 16) := by
    simp only [List.pairwise_cons, List.mem_cons] at hapart
    exact hapart.2.2.1 _ (Or.inl rfl)
  simp only [NoOverlap, maxMsgSize, tibSize, pageSize] at hmeet htls
  omega

end

end ThreadMemory

open ThreadMemory

/-- In no thread is the layout sound. -/
theorem thread_layout_unsound (type : ProcessType) (userMode : Bool) (attri : Option ThreadAttri)
    (block : BlockAnswer) (hround : RoundsUp attri) (hplaced : Placed userMode attri block) :
    ¬ LayoutSound (createExecContext type userMode attri block) :=
  tls_meets_stack hround hplaced

/-- A process asks for 5000 bytes of stack and gets two pages. -/
theorem thread_layout_unsound_of_small_stack : roundedStack true (some ⟨5000, 0⟩) = 8192 ∧
      ¬ LayoutSound (createExecContext .user true (some ⟨5000, 0⟩) ⟨0x10000, 0x80000, 0x83000⟩) :=
  ⟨by decide, thread_layout_unsound .user true (some ⟨5000, 0⟩) ⟨0x10000, 0x80000, 0x83000⟩
    (by rintro _ ⟨⟩; decide) (by decide)⟩

/-- The default block of a user thread: the thread-local storage is [0x10838, 0x14800) and the stack
starts at 0x14000. -/
theorem user_tls_enters_stack :
    ¬ ∀ (type : ProcessType) (userMode : Bool) (attri : Option ThreadAttri) (block : BlockAnswer),
      RoundsUp attri → Placed userMode attri block →
      LayoutSound (createExecContext type userMode attri block) := by
  intro hall
  have hsound := hall .user true none ⟨0x10000, 0x80000, 0x83000⟩ (by rintro _ ⟨⟩) (by decide)
  have hparts : parts (createExecContext .user true none ⟨0x10000, 0x80000, 0x83000⟩) =
      [(0x10000, 2048), (0x10800, 56), (0x10838, 16328), (0x14000, 16368)] := by decide
  have hapart := hsound.apart
  rw [hparts] at hapart
  exact absurd hapart (by decide)

end Toddler
