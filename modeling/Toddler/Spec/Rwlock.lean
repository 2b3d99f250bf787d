import Toddler.Lib.Run
import Mathlib.Data.Fintype.Card
import Mathlib.Tactic

/-! The readers-writer lock of `kernel/atomic/rwlock.c`. A step is one load, one CAS or one store of
the lock word by one of the CPUs `ι`; the calls of a CPU are properly paired. -/

namespace Toddler.Rwlock

/-- The bit fields of `rwlock_t`. Two words have the same `value` exactly when the fields agree. -/
structure Word where
  write : Bool
  intEnabled : Bool
  reads : ℕ
  deriving DecidableEq, Repr

def Word.zero : Word := ⟨false, false, 0⟩

inductive ReadLockPc
  | test
  | load
  | cas (oldVal : Word)
  deriving DecidableEq, Repr

inductive ReadUnlockPc
  | check
  | load
  | cas (oldVal : Word)
  deriving DecidableEq, Repr

inductive WriteLockPc
  | test
  | cas
  deriving DecidableEq, Repr

inductive Pc
  | idle
  | readLock (pc : ReadLockPc)
  | reading
  | readUnlock (pc : ReadUnlockPc)
  | writeLock (pc : WriteLockPc)
  | writing
  | writeUnlock
  deriving DecidableEq, Repr

structure State (ι : Type) where
  lock : Word
  cpu : ι → Pc

inductive Action (ι : Type)
  | readLock (i : ι)
  | readUnlock (i : ι)
  | writeLock (i : ι)
  | writeUnlock (i : ι)
  | step (i : ι)
  deriving DecidableEq, Repr

variable {ι : Type}

def State.init : State ι := ⟨Word.zero, fun _ => .idle⟩

variable [DecidableEq ι]

def State.setCpu (s : State ι) (i : ι) (pc : Pc) : State ι :=
  { s with cpu := Function.update s.cpu i pc }

/-- `readsBits` is the width of the field `reads`, in which `reads++` wraps. -/
def readLockStep (readsBits : ℕ) (s : State ι) (i : ι) : ReadLockPc → State ι
  | .test => s.setCpu i (.readLock (if s.lock.write then .test else .load))
  | .load => s.setCpu i (.readLock (.cas s.lock))
  | .cas oldVal =>
    if s.lock = oldVal then
      let newVal := { oldVal with write := false, reads := (oldVal.reads + 1) % 2 ^ readsBits }
      { s with lock := newVal }.setCpu i .reading
    else s.setCpu i (.readLock .test)

/-- A failed `assert` is `none`. -/
def readUnlockStep (readsBits : ℕ) (s : State ι) (i : ι) : ReadUnlockPc → Option (State ι)
  | .check => if s.lock.write then none else some (s.setCpu i (.readUnlock .load))
  | .load => some (s.setCpu i (.readUnlock (.cas s.lock)))
  | .cas oldVal =>
    if s.lock = oldVal then
      let newVal := { oldVal with reads := (oldVal.reads + (2 ^ readsBits - 1)) % 2 ^ readsBits }
      some ({ s with lock := newVal }.setCpu i .idle)
    else some (s.setCpu i (.readUnlock .check))

def writeLockStep (s : State ι) (i : ι) : WriteLockPc → State ι
  | .test => s.setCpu i (.writeLock (if s.lock.reads ≠ 0 then .test else .cas))
  | .cas =>
    if s.lock = Word.zero then { s with lock := ⟨true, false, 0⟩ }.setCpu i .writing
    else s.setCpu i (.writeLock .test)

def writeUnlockStep (s : State ι) (i : ι) : State ι := { s with lock := Word.zero }.setCpu i .idle

def step (readsBits : ℕ) (s : State ι) : Action ι → Option (State ι)
  | .readLock i => if s.cpu i = .idle then some (s.setCpu i (.readLock .test)) else none
  | .readUnlock i => if s.cpu i = .reading then some (s.setCpu i (.readUnlock .check)) else none
  | .writeLock i => if s.cpu i = .idle then some (s.setCpu i (.writeLock .test)) else none
  | .writeUnlock i => if s.cpu i = .writing then some (s.setCpu i .writeUnlock) else none
  | .step i =>
    match s.cpu i with
    | .readLock pc => some (readLockStep readsBits s i pc)
    | .readUnlock pc => readUnlockStep readsBits s i pc
    | .writeLock pc => some (writeLockStep s i pc)
    | .writeUnlock => some (writeUnlockStep s i)
    | .idle | .reading | .writing => none

def Pc.Reads : Pc → Prop
  | .reading | .readUnlock _ => True
  | _ => False

def Pc.Writes : Pc → Prop
  | .writing | .writeUnlock => True
  | _ => False

instance Pc.decidableReads : DecidablePred Pc.Reads := fun pc => by
  cases pc <;> unfold Pc.Reads <;> infer_instance

/-- There is no writer together with a reader or with another writer, and `reads` is the number of
readers inside. -/
structure Exclusive [Fintype ι] (s : State ι) : Prop where
  noReader : ∀ i j, (s.cpu i).Writes → ¬ (s.cpu j).Reads
  oneWriter : ∀ i j, (s.cpu i).Writes → (s.cpu j).Writes → i = j
  reads : s.lock.reads = (Finset.univ.filter fun i => (s.cpu i).Reads).card

/-- The load that follows the test of `write` in `rwlock_read_lock` finds it still clear, and a
reader is let in only while `reads` has room for it. -/
def ReadSeesNoWriter (readsBits : ℕ) (s : State ι) : Action ι → Prop
  | .step i =>
    match s.cpu i with
    | .readLock .load => s.lock.write = false
    | .readLock (.cas oldVal) => oldVal.reads + 1 < 2 ^ readsBits
    | _ => True
  | _ => True

instance ReadSeesNoWriter.decidable (readsBits : ℕ) (s : State ι) (a : Action ι) :
    Decidable (ReadSeesNoWriter readsBits s a) := by
  unfold ReadSeesNoWriter
  split
  · split <;> infer_instance
  · infer_instance

end Toddler.Rwlock
