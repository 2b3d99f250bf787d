import Toddler.Lib.Tally
import Toddler.Spec.Rwlock
import Mathlib.Tactic

/-! Exclusion in the kernel's readers-writer lock. The lock word says who is inside: `write` is set
while a writer is, and `reads` counts the readers. A reader's CAS replaces the word it has loaded,
so it keeps this as long as the word had no writer in it. -/

namespace Toddler.Rwlock

variable {ι : Type} [Fintype ι] {readsBits : ℕ}

def readWeight (pc : Pc) : ℕ := if pc.Reads then 1 else 0

structure LockInv (readsBits : ℕ) (s : State ι) : Prop where
  reads : s.lock.reads = tally readWeight s.cpu
  room : s.lock.reads < 2 ^ readsBits
  writer : ∀ i, (s.cpu i).Writes → s.lock.write = true
  alone : s.lock.write = true → s.lock.reads = 0
  oneWriter : ∀ i j, (s.cpu i).Writes → (s.cpu j).Writes → i = j
  seen : ∀ i oldVal, s.cpu i = .readLock (.cas oldVal) → oldVal.write = false

theorem lockInv_init : LockInv readsBits (State.init : State ι) := by
  refine ⟨?_, Nat.two_pow_pos readsBits, by simp [State.init, Pc.Writes], by
    simp [State.init, Word.zero],
    by simp [State.init, Pc.Writes], by simp [State.init]⟩
  exact (tally_eq_zero.mpr fun i => rfl).symm

variable {s : State ι}

theorem LockInv.noWriter (h : LockInv readsBits s) (hw : s.lock.write = false) (j : ι) :
    ¬ (s.cpu j).Writes := by
  intro hj
  simp [h.writer j hj] at hw

theorem LockInv.exclusive (h : LockInv readsBits s) : Exclusive s where
  noReader i j hi hj := by
    have hz : tally readWeight s.cpu = 0 := by rw [← h.reads]; exact h.alone (h.writer i hi)
    have hw := tally_eq_zero.mp hz j
    simp [readWeight, hj] at hw
  oneWriter := h.oneWriter
  reads := h.reads.trans (tally_indicator Pc.Reads s.cpu)

variable [DecidableEq ι] {i : ι}

section

variable (h : LockInv readsBits s)
include h

/-- A move that changes neither the word nor the CPU's place in the critical section. -/
theorem LockInv.stay {pc : Pc} (hr : readWeight pc = readWeight (s.cpu i))
    (hw : pc.Writes → (s.cpu i).Writes)
    (hseen : ∀ oldVal, pc = .readLock (.cas oldVal) → oldVal.write = false) :
    LockInv readsBits (s.setCpu i pc) := by
  have hback : ∀ j, ((s.setCpu i pc).cpu j).Writes → (s.cpu j).Writes := by
    intro j hj
    by_cases hji : j = i
    · subst hji
      exact hw (by simpa [State.setCpu] using hj)
    · simpa [State.setCpu, hji] using hj
  refine ⟨h.reads.trans (tally_update_same hr).symm, h.room, fun j hj => h.writer j (hback j hj),
    h.alone, fun j k hj hk => h.oneWriter j k (hback j hj) (hback k hk), fun j oldVal hj => ?_⟩
  by_cases hji : j = i
  · subst hji
    exact hseen oldVal (by simpa [State.setCpu] using hj)
  · exact h.seen j oldVal (by simpa [State.setCpu, hji] using hj)

/-- The CPU replaces the word. Any other CPU that is inside as a writer would stay there. -/
theorem LockInv.replace {pc : Pc} {w : Word}
    (hreads : w.reads + readWeight (s.cpu i) = s.lock.reads + readWeight pc)
    (hroom : w.reads < 2 ^ readsBits)
    (hnone : ∀ j, j ≠ i → ¬ (s.cpu j).Writes) (hwrite : pc.Writes → w.write = true)
    (halone : w.write = true → w.reads = 0) (hcas : ∀ oldVal, pc ≠ .readLock (.cas oldVal)) :
    LockInv readsBits ({ s with lock := w }.setCpu i pc) := by
  have hnow : ∀ j, (({ s with lock := w }.setCpu i pc).cpu j).Writes → j = i := by
    intro j hj
    by_contra hji
    exact hnone j hji (by simpa [State.setCpu, hji] using hj)
  refine ⟨?_, hroom, fun j hj => ?_, halone, fun j k hj hk => (hnow j hj).trans (hnow k hk).symm,
    fun j oldVal hj => ?_⟩
  · have ht := tally_update readWeight s.cpu i pc
    have hr := h.reads
    simp only [State.setCpu]
    omega
  · obtain rfl := hnow j hj
    exact hwrite (by simpa [State.setCpu] using hj)
  · by_cases hji : j = i
    · subst hji
      exact absurd (by simpa [State.setCpu] using hj) (hcas oldVal)
    · exact h.seen j oldVal (by simpa [State.setCpu, hji] using hj)

theorem lockInv_readLock {pc : ReadLockPc}
    (hpc : s.cpu i = .readLock pc) (hok : ReadSeesNoWriter readsBits s (.step i)) :
    LockInv readsBits (readLockStep readsBits s i pc) := by
  have hweight : readWeight (s.cpu i) = 0 := by rw [hpc]; rfl
  cases pc with
  | test =>
    refine h.stay hweight.symm (fun hw => by cases hw) fun oldVal ho => ?_
    split_ifs at ho <;> cases ho
  | load =>
    simp only [ReadSeesNoWriter, hpc] at hok
    exact h.stay hweight.symm (fun hw => by cases hw) fun oldVal ho => by cases ho; exact hok
  | cas oldVal =>
    simp only [ReadSeesNoWriter, hpc] at hok
    simp only [readLockStep]
    split_ifs with he
    · have hwrite : s.lock.write = false := by rw [he]; exact h.seen i oldVal hpc
      refine h.replace ?_ (Nat.mod_lt _ (Nat.two_pow_pos readsBits)) (fun j _ => h.noWriter hwrite j)
        (fun hw => by cases hw) (fun hw => by cases hw) (fun _ => by simp)
      rw [hweight, he, Nat.mod_eq_of_lt hok]
      rfl
    · exact h.stay hweight.symm (fun hw => by cases hw) fun _ ho => by cases ho

theorem lockInv_readUnlock {u : State ι} {pc : ReadUnlockPc}
    (hpc : s.cpu i = .readUnlock pc) (hs : readUnlockStep readsBits s i pc = some u) :
    LockInv readsBits u := by
  have hweight : readWeight (s.cpu i) = 1 := by rw [hpc]; rfl
  cases pc with
  | check =>
    simp only [readUnlockStep] at hs
    split_ifs at hs
    cases hs
    exact h.stay hweight.symm (fun hw => by cases hw) fun _ ho => by cases ho
  | load =>
    cases hs
    exact h.stay hweight.symm (fun hw => by cases hw) fun _ ho => by cases ho
  | cas oldVal =>
    simp only [readUnlockStep] at hs
    split_ifs at hs with he
    · cases hs
      subst he
      -- this CPU is one of the readers, so there is no writer and `reads` is not zero
      have hpos : 1 ≤ s.lock.reads := by
        rw [h.reads, ← hweight]
        exact le_tally readWeight s.cpu i
      have hwrite : s.lock.write = false := by
        by_contra hne
        have := h.alone (by simpa using hne)
        omega
      have hroom := h.room
      refine h.replace ?_ (Nat.mod_lt _ (Nat.two_pow_pos readsBits)) (fun j _ => h.noWriter hwrite j)
        (fun hw => by cases hw) (fun hw => by simp [hwrite] at hw) (fun _ => by simp)
      rw [hweight, show s.lock.reads + (2 ^ readsBits - 1) = s.lock.reads - 1 + 2 ^ readsBits by omega,
        Nat.add_mod_right, Nat.mod_eq_of_lt (by omega)]
      exact Nat.sub_add_cancel hpos
    · cases hs
      exact h.stay hweight.symm (fun hw => by cases hw) fun _ ho => by cases ho

theorem lockInv_writeLock {pc : WriteLockPc}
    (hpc : s.cpu i = .writeLock pc) : LockInv readsBits (writeLockStep s i pc) := by
  have hweight : readWeight (s.cpu i) = 0 := by rw [hpc]; rfl
  cases pc with
  | test => exact h.stay hweight.symm (fun hw => by cases hw) fun _ ho => by cases ho
  | cas =>
    simp only [writeLockStep]
    split_ifs with he
    · refine h.replace ?_ (Nat.two_pow_pos readsBits) (fun j _ => h.noWriter (by rw [he]; rfl) j)
        (fun _ => rfl) (fun _ => rfl) (fun _ => by simp)
      rw [hweight, he]
      rfl
    · exact h.stay hweight.symm (fun hw => by cases hw) fun _ ho => by cases ho

theorem lockInv_writeUnlock (hpc : s.cpu i = .writeUnlock) :
    LockInv readsBits (writeUnlockStep s i) := by
  have hin : (s.cpu i).Writes := by rw [hpc]; trivial
  refine h.replace ?_ (Nat.two_pow_pos readsBits) (fun j hj hw => hj (h.oneWriter j i hw hin))
    (fun hw => by cases hw) (fun hw => by cases hw) (fun _ => by simp)
  rw [h.alone (h.writer i hin), hpc]
  rfl

theorem lockInv_step {u : State ι} {a : Action ι}
    (hok : ReadSeesNoWriter readsBits s a) (hs : step readsBits s a = some u) :
    LockInv readsBits u := by
  cases a with
  | readLock i | readUnlock i | writeLock i | writeUnlock i =>
    simp only [step] at hs
    split_ifs at hs with hpc
    cases hs
    exact h.stay (by rw [hpc]; rfl) (by rw [hpc]; exact id) fun _ ho => by cases ho
  | step i =>
    simp only [step] at hs
    split at hs
    case h_1 pc hpc => cases hs; exact lockInv_readLock h hpc hok
    case h_2 pc hpc => exact lockInv_readUnlock h hpc hs
    case h_3 pc hpc => cases hs; exact lockInv_writeLock h hpc
    case h_4 hpc => cases hs; exact lockInv_writeUnlock h hpc
    all_goals cases hs

end

/-- In every state reached by steps in which no reader loads a word with a writer in it and `reads`
has room, the lock is exclusive and `reads` counts the readers inside. -/
theorem rwlock_exclusion (readsBits : ℕ) (s : State ι)
    (hrun : Reach (step readsBits) (ReadSeesNoWriter readsBits) State.init s) : Exclusive s :=
  (hrun.invariant lockInv_init fun _ _ _ hu hok hs => lockInv_step hu hok hs).exclusive

/-- The readers `i` and `j` go in and `i` comes out; the writer `k` tries in vain. -/
def readersRun (i j k : ι) : List (Action ι) :=
  [.readLock i, .step i, .readLock j, .step j, .step i, .step j, .step i, .step j, .step j, .step j,
    .step j, .writeLock k, .step k, .readUnlock i, .step i, .step i, .step i]

theorem rwlock_exclusion_of_readers :
    ∃ s, Reach (step 62) (ReadSeesNoWriter 62) (State.init : State (Fin 3)) s ∧ (s.cpu 1).Reads ∧
    Exclusive s := by
  refine exists_reach_of (P := fun s => s.cpu 1 = .reading) (readersRun 0 1 2) (by decide +kernel)
    fun s hs h1 => ?_
  exact ⟨by rw [h1]; trivial, rwlock_exclusion 62 s hs⟩

/-- CPU `i` finds `write` clear; CPU `j` takes the write lock before `i` loads the word, and `i`
replaces the word by one without the writer. -/
def overtakenRun (i j : ι) : List (Action ι) :=
  [.readLock i, .step i, .writeLock j, .step j, .step j, .step i, .step i]

theorem rwlock_reader_joins_writer :
    ¬ ∀ (ι : Type) [Fintype ι] [DecidableEq ι] (readsBits : ℕ) (s : State ι),
      Reach (step readsBits) anyStep State.init s → Exclusive s := by
  intro hclaim
  obtain ⟨s, hs, h0, h1⟩ : ∃ s : State (Fin 2), Reach (step 62) anyStep State.init s ∧
    s.cpu 0 = .reading ∧
      s.cpu 1 = .writing := exists_reach (overtakenRun 0 1) (by decide +kernel)
  have hex := hclaim (Fin 2) 62 s hs
  exact hex.noReader 1 0 (by rw [h1]; trivial) (by rw [h0]; trivial)

end Toddler.Rwlock
