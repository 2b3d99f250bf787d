import Toddler.Spec.Futex

/-! The readers-writer lock of `libc/kth/rwlock.c` over three futex words. A step is one load or one
CAS of a word, or one wait or wake system call, by one of the threads `ι`; a thread unlocks only
what it has acquired. The calls of `futex_lock`, `futex_trylock` and `futex_unlock` are those of the
mutex. -/

namespace Toddler.UserRwlock

/-- `futex_wait`. `f_new` is a local variable that a round may leave unset. -/
inductive FutexWaitPc
  | load (numSpins : ℕ) (fNew : Futex)
  | cas (numSpins : ℕ) (fOld fNew : Futex)
  | wait (fNew : Futex)
  | waiting (fNew : Futex)
  deriving DecidableEq, Repr

inductive RlockPc
  | futexWait (pc : FutexWaitPc)
  | load
  | cas (fOld : Futex)
  deriving DecidableEq, Repr

inductive RtrylockPc
  | load
  | cas (fOld : Futex)
  deriving DecidableEq, Repr

inductive RunlockPc
  | load
  | cas (fOld : Futex)
  | clearLoad
  | clearCas (fOld : Futex)
  | wake
  deriving DecidableEq, Repr

/-- `rwlock_wlock`; the places from `markLoad` on are in `wait_for_reads`. -/
inductive WlockPc
  | futexLock (pc : LockPc)
  | futexTrylock (pc : TrylockPc)
  | markLoad
  | markCas (fOld : Futex)
  | waitLoad (numSpins : ℕ)
  | waitCas (numSpins : ℕ) (fOld : Futex)
  | wait
  | waiting
  deriving DecidableEq, Repr

inductive WtrylockPc
  | futexTrylock (pc : TrylockPc)
  | load
  | cas (fOld : Futex)
  | futexUnlock (pc : UnlockPc)
  deriving DecidableEq, Repr

inductive WunlockPc
  | load
  | cas (fOld : Futex)
  | unlockWait (pc : UnlockPc)
  | unlockWr (pc : UnlockPc)
  deriving DecidableEq, Repr

/-- `failed` is outside of all functions, after a try-lock that has returned -1. -/
inductive Pc
  | idle
  | failed
  | rlock (pc : RlockPc)
  | rtrylock (pc : RtrylockPc)
  | reading
  | runlock (pc : RunlockPc)
  | wlock (pc : WlockPc)
  | wtrylock (pc : WtrylockPc)
  | writing
  | wunlock (pc : WunlockPc)
  | panicked
  deriving DecidableEq, Repr

structure Held where
  rd : Bool
  wr : Bool
  wait : Bool
  deriving DecidableEq, Repr

def Held.none : Held := ⟨false, false, false⟩

/-- The process that owns the lock, the addresses of its words, `max_spin`, and the threads'
tids. -/
structure Config (ι : Type) where
  pid : ℕ
  rdPtr : ℕ
  wrPtr : ℕ
  waitPtr : ℕ
  maxSpin : ℤ
  tid : ι → ℕ

/-- `rd_futex`, `wr_futex`, `wait_futex` and the threads. `held` is history. -/
structure State (ι : Type) where
  rd : Futex
  wr : Futex
  wait : Futex
  waitQueue : List Waiter
  thread : ι → Pc
  held : ι → Held

/-- `junk` is what an uninitialised `f_new` holds, for a call of `futex_wait` that begins in this
step. -/
inductive Action (ι : Type)
  | rlock (t : ι) (junk : Futex)
  | rtrylock (t : ι)
  | runlock (t : ι)
  | wlock (t : ι)
  | wtrylock (t : ι)
  | wunlock (t : ι)
  | step (t : ι) (junk : Futex)
  deriving DecidableEq, Repr

variable {ι : Type}

def State.init : State ι := ⟨Futex.zero, Futex.zero, Futex.zero, [], fun _ => .idle, fun _ => .none⟩

def State.Asleep (c : Config ι) (s : State ι) (t : ι) : Prop := ∃ w ∈ s.waitQueue, w.tid = c.tid t

instance State.decidableAsleep (c : Config ι) (s : State ι) (t : ι) : Decidable (s.Asleep c t) :=
  inferInstanceAs (Decidable (∃ w ∈ s.waitQueue, w.tid = c.tid t))

variable [DecidableEq ι]

def State.goto (s : State ι) (t : ι) (pc : Pc) : State ι :=
  { s with thread := Function.update s.thread t pc }

def State.hold (s : State ι) (t : ι) (f : Held → Held) : State ι :=
  { s with held := Function.update s.held t (f (s.held t)) }

/-- `syscall_wait_on_futex` on a word `f` at `ptr`; `asleep` is the place of a sleeping thread. -/
def waitOnFutex (c : Config ι) (s : State ι) (t : ι) (f : Futex) (ptr waitValue : ℕ)
    (asleep awake : Pc) : State ι :=
  match waitOnObject (some f) c.pid (c.tid t) .futex ptr waitValue 0 0 with
  | some w => { s with waitQueue := sleepThread s.waitQueue w }.goto t asleep
  | none => s.goto t awake

/-- A step inside `futex_lock` on a word: the word, the wait queue, and the place unless it has
returned. -/
def futexLock (c : FutexConfig ι) (f : Futex) (queue : List Waiter) (t : ι) (pc : LockPc) :
    Option (Futex × List Waiter × Option LockPc) :=
  (lockStep c ⟨f, queue, fun _ => .lock pc⟩ t pc).map fun u =>
    (u.futex, u.waitQueue, (u.thread t).locking)

def futexTrylockErr (f : Futex) : TrylockPc → ℤ
  | .load => -1
  | .cas fOld => if f = fOld then 0 else -1

def futexTrylock (f : Futex) (t : ι) (pc : TrylockPc) : Futex × (TrylockPc ⊕ ℤ) :=
  let u := trylockStep ⟨f, [], fun _ => .trylock pc⟩ t pc
  (u.futex, match u.thread t with | .trylock pc => .inl pc | _ => .inr (futexTrylockErr f pc))

def futexUnlock (c : FutexConfig ι) (f : Futex) (queue : List Waiter) (t : ι) (pc : UnlockPc) :
    Futex × List Waiter × Option UnlockPc :=
  let u := unlockStep c ⟨f, queue, fun _ => .unlock pc⟩ t pc
  (u.futex, u.waitQueue, match u.thread t with | .unlock pc => some pc | _ => none)

/-- `futex_unlock` unlocks the word in this step, or finds it unlocked. -/
def futexUnlocks (f : Futex) : UnlockPc → Bool
  | .load => f.locked = 0
  | .cas fOld => f = fOld
  | _ => false

def futexWaitStep (c : Config ι) (s : State ι) (t : ι) : FutexWaitPc → Option (State ι)
  | .load numSpins fNew =>
    if s.wait.locked = 0 then some (s.goto t (.rlock .load))
    else if c.maxSpin < 0 then
      -- `continue` goes to the CAS of the loop condition with `f_new` as it is
      some (s.goto t (.rlock (.futexWait (.cas numSpins s.wait fNew))))
    else if c.maxSpin < (numSpins + 1 : ℕ) then
      some (s.goto t (.rlock (.futexWait (.cas (numSpins + 1) s.wait fNew))))
    else some (s.goto t (.rlock (.futexWait (.cas (numSpins + 1) s.wait { s.wait with kernel := true }))))
  | .cas numSpins fOld fNew =>
    if s.wait = fOld then
      some ({ s with wait := fNew }.goto t
        (.rlock (.futexWait (if fNew.kernel then .wait fNew else .load 0 fNew))))
    else some (s.goto t (.rlock (.futexWait (.load numSpins fNew))))
  | .wait fNew =>
    some (waitOnFutex c s t s.wait c.waitPtr (futexWhenEq + 1) (.rlock (.futexWait (.waiting fNew)))
      (.rlock (.futexWait (.load 0 fNew))))
  | .waiting fNew =>
    if s.Asleep c t then none else some (s.goto t (.rlock (.futexWait (.load 0 fNew))))

def rlockStep (c : Config ι) (s : State ι) (t : ι) (junk : Futex) : RlockPc → Option (State ι)
  | .futexWait pc => futexWaitStep c s t pc
  | .load =>
    if s.rd.locked % 2 = 1 then some (s.goto t (.rlock (.futexWait (.load 0 junk))))
    else some (s.goto t (.rlock (.cas s.rd)))
  | .cas fOld =>
    if s.rd = fOld then
      some (({ s with rd := { fOld with locked := (fOld.locked + 2) % 2 ^ 63 } }.goto t
        .reading).hold t fun h => { h with rd := true })
    else some (s.goto t (.rlock (.futexWait (.load 0 junk))))

def rtrylockStep (s : State ι) (t : ι) : RtrylockPc → State ι
  | .load => if s.rd.locked % 2 = 1 then s.goto t .failed else s.goto t (.rtrylock (.cas s.rd))
  | .cas fOld =>
    if s.rd = fOld then
      ({ s with rd := { fOld with locked := (fOld.locked + 2) % 2 ^ 63 } }.goto t .reading).hold t
        fun h => { h with rd := true }
    else s.goto t .failed

def runlockStep (c : Config ι) (s : State ι) (t : ι) : RunlockPc → State ι
  | .load => if s.rd.locked ≤ 1 then s.goto t .panicked else s.goto t (.runlock (.cas s.rd))
  | .cas fOld =>
    if s.rd = fOld then
      let fNew := { fOld with locked := fOld.locked - 2 }
      ({ s with rd := fNew }.goto t (if fNew.locked = 1 then .runlock .clearLoad else .idle)).hold t
        fun h => { h with rd := false }
    else s.goto t (.runlock .load)
  | .clearLoad => if s.rd.kernel then s.goto t (.runlock (.clearCas s.rd)) else s.goto t .idle
  | .clearCas fOld =>
    if s.rd = fOld then { s with rd := { fOld with kernel := false } }.goto t (.runlock .wake)
    else s.goto t (.runlock .clearLoad)
  | .wake =>
    { s with waitQueue := (wakeOnObject s.waitQueue (some s.rd) c.pid .futex c.rdPtr
      futexWhenNe 0).1 }.goto t .idle

def waitForReadsNew (spin : ℤ) (numSpins : ℕ) (fOld : Futex) : Futex :=
  if fOld.locked ≠ 1 then
    if 0 ≤ spin ∨ spin < (numSpins + 1 : ℕ) then { fOld with kernel := true } else fOld
  else { fOld with kernel := false }

def wlockStep (c : Config ι) (s : State ι) (t : ι) : WlockPc → Option (State ι)
  | .futexLock pc => do
    let (wr, queue, next) ← futexLock ⟨c.pid, c.wrPtr, c.tid⟩ s.wr s.waitQueue t pc
    let s := { s with wr := wr, waitQueue := queue }
    match next with
    | some pc => some (s.goto t (.wlock (.futexLock pc)))
    | none => some ((s.goto t (.wlock (.futexTrylock .load))).hold t fun h => { h with wr := true })
  | .futexTrylock pc =>
    let r := futexTrylock s.wait t pc
    let s := { s with wait := r.1 }
    match r.2 with
    | .inl pc => some (s.goto t (.wlock (.futexTrylock pc)))
    | .inr err =>
      if err ≠ 0 then some (s.goto t .panicked)
      else some ((s.goto t (.wlock .markLoad)).hold t fun h => { h with wait := true })
  | .markLoad =>
    if s.rd.locked % 2 = 1 then some (s.goto t .panicked) else some (s.goto t (.wlock (.markCas s.rd)))
  | .markCas fOld =>
    if s.rd = fOld then
      some (({ s with rd := { fOld with locked := (fOld.locked + 1) % 2 ^ 63 } }.goto t
        (.wlock (.waitLoad 0))).hold t fun h => { h with rd := true })
    else some (s.goto t (.wlock .markLoad))
  | .waitLoad numSpins => some (s.goto t (.wlock (.waitCas numSpins s.rd)))
  | .waitCas numSpins fOld =>
    if s.rd = fOld then
      let fNew := waitForReadsNew c.maxSpin numSpins fOld
      some ({ s with rd := fNew }.goto t
        (if fOld.locked = 1 then .writing
          else if fNew.kernel then .wlock .wait else .wlock (.waitLoad 0)))
    else
      some (s.goto t (.wlock (.waitLoad
        (if fOld.locked ≠ 1 ∧ c.maxSpin < 0 then numSpins + 1 else numSpins))))
  | .wait =>
    some (waitOnFutex c s t s.rd c.rdPtr (futexWhenNe + 1) (.wlock .waiting) (.wlock (.waitLoad 0)))
  | .waiting => if s.Asleep c t then none else some (s.goto t (.wlock (.waitLoad 0)))

def wtrylockStep (c : Config ι) (s : State ι) (t : ι) : WtrylockPc → State ι
  | .futexTrylock pc =>
    let r := futexTrylock s.wr t pc
    let s := { s with wr := r.1 }
    match r.2 with
    | .inl pc => s.goto t (.wtrylock (.futexTrylock pc))
    | .inr err =>
      -- `if (!err) return -1`
      if err = 0 then (s.goto t .failed).hold t fun h => { h with wr := true }
      else s.goto t (.wtrylock .load)
  | .load =>
    if s.rd.locked % 2 = 1 then s.goto t .panicked
    else if s.rd.locked ≠ 0 then s.goto t (.wtrylock (.futexUnlock .load))
    else s.goto t (.wtrylock (.cas s.rd))
  | .cas fOld =>
    if s.rd = fOld then
      ({ s with rd := { fOld with locked := fOld.locked ||| 1 } }.goto t .writing).hold t
        fun h => { h with rd := true }
    else s.goto t (.wtrylock (.futexUnlock .load))
  | .futexUnlock pc =>
    let (wr, queue, next) := futexUnlock ⟨c.pid, c.wrPtr, c.tid⟩ s.wr s.waitQueue t pc
    let u := { s with wr := wr, waitQueue := queue }.goto t
      (match next with | some pc => .wtrylock (.futexUnlock pc) | none => .failed)
    if futexUnlocks s.wr pc then u.hold t fun h => { h with wr := false } else u

def wunlockStep (c : Config ι) (s : State ι) (t : ι) : WunlockPc → State ι
  | .load => if s.rd.locked ≠ 1 then s.goto t .panicked else s.goto t (.wunlock (.cas s.rd))
  | .cas fOld =>
    if s.rd = fOld then
      ({ s with rd := { fOld with locked := 0 } }.goto t (.wunlock (.unlockWait .load))).hold t
        fun h => { h with rd := false }
    else s.goto t .panicked
  | .unlockWait pc =>
    let (wait, queue, next) := futexUnlock ⟨c.pid, c.waitPtr, c.tid⟩ s.wait s.waitQueue t pc
    let u := { s with wait := wait, waitQueue := queue }.goto t
      (match next with | some pc => .wunlock (.unlockWait pc) | none => .wunlock (.unlockWr .load))
    if futexUnlocks s.wait pc then u.hold t fun h => { h with wait := false } else u
  | .unlockWr pc =>
    let (wr, queue, next) := futexUnlock ⟨c.pid, c.wrPtr, c.tid⟩ s.wr s.waitQueue t pc
    let u := { s with wr := wr, waitQueue := queue }.goto t
      (match next with | some pc => .wunlock (.unlockWr pc) | none => .idle)
    if futexUnlocks s.wr pc then u.hold t fun h => { h with wr := false } else u

/-- The thread is outside of all functions and has nothing to unlock. -/
def Pc.Free : Pc → Prop
  | .idle | .failed => True
  | _ => False

instance Pc.decidableFree : DecidablePred Pc.Free :=
  fun pc => by cases pc <;> unfold Pc.Free <;> infer_instance

def step (c : Config ι) (s : State ι) : Action ι → Option (State ι)
  | .rlock t junk => if (s.thread t).Free then some (s.goto t (.rlock (.futexWait (.load 0 junk))))
      else none
  | .rtrylock t => if (s.thread t).Free then some (s.goto t (.rtrylock .load)) else none
  | .runlock t => if s.thread t = .reading then some (s.goto t (.runlock .load)) else none
  | .wlock t => if (s.thread t).Free then some (s.goto t (.wlock (.futexLock (.load c.maxSpin 0))))
      else none
  | .wtrylock t => if (s.thread t).Free then some (s.goto t (.wtrylock (.futexTrylock .load))) else none
  | .wunlock t => if s.thread t = .writing then some (s.goto t (.wunlock .load)) else none
  | .step t junk =>
    match s.thread t with
    | .rlock pc => rlockStep c s t junk pc
    | .rtrylock pc => some (rtrylockStep s t pc)
    | .runlock pc => some (runlockStep c s t pc)
    | .wlock pc => wlockStep c s t pc
    | .wtrylock pc => some (wtrylockStep c s t pc)
    | .wunlock pc => some (wunlockStep c s t pc)
    | .idle | .failed | .reading | .writing | .panicked => none

def Pc.Reads : Pc → Prop
  | .reading | .runlock .load | .runlock (.cas _) => True
  | _ => False

def Pc.Writes : Pc → Prop
  | .writing | .wunlock .load | .wunlock (.cas _) => True
  | _ => False

structure LockSafe (s : State ι) : Prop where
  noReader : ∀ t u, (s.thread t).Writes → ¬ (s.thread u).Reads
  oneWriter : ∀ t u, (s.thread t).Writes → (s.thread u).Writes → t = u
  noPanic : ∀ t, s.thread t ≠ .panicked
  failedHoldsNone : ∀ t, s.thread t = .failed → s.held t = .none

/-- `rwlock_wtrylock` is not called, and a reader is let in only while `locked` has room for it. -/
def NoWtrylock (s : State ι) : Action ι → Prop
  | .wtrylock _ => False
  | .step t _ =>
    match s.thread t with
    | .rlock (.cas fOld) | .rtrylock (.cas fOld) => fOld.locked + 2 < 2 ^ 63
    | _ => True
  | _ => True

instance NoWtrylock.decidable (s : State ι) (a : Action ι) : Decidable (NoWtrylock s a) := by
  unfold NoWtrylock
  split
  · infer_instance
  · split <;> infer_instance
  · infer_instance

end Toddler.UserRwlock
