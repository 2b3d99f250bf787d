import Toddler.Lib.Run
import Toddler.Spec.Wait

/-! The user mutex of `libc/sys/futex.c`. Any of the threads `ι` may call `futex_lock`,
`futex_trylock` and `futex_unlock` at any time. A step is one load or one CAS of the
word, or one wait or wake system call. -/

namespace Toddler

inductive LockPc
  | load (spin : ℤ) (numSpins : ℕ)
  | cas (spin : ℤ) (numSpins : ℕ) (fOld : Futex)
  | wait (spin : ℤ)
  | waiting (spin : ℤ)
  deriving DecidableEq, Repr

inductive TrylockPc
  | load
  | cas (fOld : Futex)
  deriving DecidableEq, Repr

inductive UnlockPc
  | load
  | cas (fOld : Futex)
  | clearLoad
  | clearCas (fOld : Futex)
  | wake
  deriving DecidableEq, Repr

inductive FutexPc
  | idle
  | lock (pc : LockPc)
  | trylock (pc : TrylockPc)
  | unlock (pc : UnlockPc)
  deriving DecidableEq, Repr

def FutexPc.locking : FutexPc → Option LockPc
  | .lock pc => some pc
  | _ => none

structure FutexConfig (ι : Type) where
  pid : ℕ
  futexPtr : ℕ
  tid : ι → ℕ

structure FutexState (ι : Type) where
  futex : Futex
  waitQueue : List Waiter
  thread : ι → FutexPc

inductive FutexAction (ι : Type)
  | lock (t : ι) (spin : ℤ)
  | trylock (t : ι)
  | unlock (t : ι)
  | step (t : ι)
  deriving DecidableEq, Repr

variable {ι : Type}

def FutexState.init : FutexState ι := ⟨Futex.zero, [], fun _ => .idle⟩

def FutexState.Asleep (c : FutexConfig ι) (s : FutexState ι) (t : ι) : Prop :=
  ∃ w ∈ s.waitQueue, w.tid = c.tid t

instance FutexState.decidableAsleep (c : FutexConfig ι) (s : FutexState ι) (t : ι) :
    Decidable (s.Asleep c t) :=
  inferInstanceAs (Decidable (∃ w ∈ s.waitQueue, w.tid = c.tid t))

/-- `f_new` in `futex_lock`: take the lock, or ask to be woken. `numSpins` counts the earlier
rounds of the inner loop. -/
def lockNew (spin : ℤ) (numSpins : ℕ) (fOld : Futex) : Futex :=
  if fOld.locked ≠ 0 then
    if 0 ≤ spin ∨ spin < (numSpins + 1 : ℕ) then { fOld with kernel := true } else fOld
  else { fOld with locked := 1 }

variable [DecidableEq ι]

def FutexState.setThread (s : FutexState ι) (t : ι) (pc : FutexPc) : FutexState ι :=
  { s with thread := Function.update s.thread t pc }

def lockStep (c : FutexConfig ι) (s : FutexState ι) (t : ι) : LockPc → Option (FutexState ι)
  | .load spin numSpins => some (s.setThread t (.lock (.cas spin numSpins s.futex)))
  | .cas spin numSpins fOld =>
    if s.futex = fOld then
      let fNew := lockNew spin numSpins fOld
      some ({ s with futex := fNew }.setThread t
        (if fOld.locked = 0 then .idle
          else if fNew.kernel then .lock (.wait spin) else .lock (.load spin 0)))
    else
      -- `++num_spins` is evaluated only for a locked word and a negative `spin`
      some (s.setThread t (.lock (.load spin
        (if fOld.locked ≠ 0 ∧ spin < 0 then numSpins + 1 else numSpins))))
  | .wait spin =>
    match waitOnObject (some s.futex) c.pid (c.tid t) .futex c.futexPtr (futexWhenEq + 1) 0 0 with
    | some w =>
      some ({ s with waitQueue := sleepThread s.waitQueue w }.setThread t (.lock (.waiting spin)))
    | none => some (s.setThread t (.lock (.load spin 0)))
  | .waiting spin =>
    if s.Asleep c t then none else some (s.setThread t (.lock (.load spin 0)))

def trylockStep (s : FutexState ι) (t : ι) : TrylockPc → FutexState ι
  | .load =>
    if s.futex.locked ≠ 0 then s.setThread t .idle
    else s.setThread t (.trylock (.cas s.futex))
  | .cas fOld =>
    if s.futex = fOld then { s with futex := { fOld with locked := 1 } }.setThread t .idle
    else s.setThread t .idle

def unlockStep (c : FutexConfig ι) (s : FutexState ι) (t : ι) : UnlockPc → FutexState ι
  | .load =>
    if s.futex.locked = 0 then s.setThread t .idle
    else s.setThread t (.unlock (.cas s.futex))
  | .cas fOld =>
    if s.futex = fOld then
      { s with futex := { fOld with locked := 0 } }.setThread t
        (if fOld.kernel then .unlock .clearLoad else .idle)
    else s.setThread t (.unlock .load)
  | .clearLoad =>
    if s.futex.locked ≠ 0 ∨ s.futex.kernel = false then s.setThread t .idle
    else s.setThread t (.unlock (.clearCas s.futex))
  | .clearCas fOld =>
    if s.futex = fOld then
      { s with futex := { fOld with kernel := false } }.setThread t (.unlock .wake)
    else s.setThread t (.unlock .clearLoad)
  | .wake =>
    { s with waitQueue := (wakeOnObject s.waitQueue (some s.futex) c.pid .futex c.futexPtr
      futexWhenEq 0).1 }.setThread t .idle

def futexStep (c : FutexConfig ι) (s : FutexState ι) : FutexAction ι → Option (FutexState ι)
  | .lock t spin =>
    if s.thread t = .idle then some (s.setThread t (.lock (.load spin 0))) else none
  | .trylock t =>
    if s.thread t = .idle then some (s.setThread t (.trylock .load)) else none
  | .unlock t =>
    if s.thread t = .idle then some (s.setThread t (.unlock .load)) else none
  | .step t =>
    match s.thread t with
    | .idle => none
    | .lock pc => lockStep c s t pc
    | .trylock pc => some (trylockStep s t pc)
    | .unlock pc => some (unlockStep c s t pc)

/-- The thread is past its unlocking CAS and still inside `futex_unlock`. -/
def FutexPc.Unlocking : FutexPc → Prop
  | .unlock .clearLoad | .unlock (.clearCas _) | .unlock .wake => True
  | _ => False

/-- The wake call of an unlocker does not find that another thread has taken the lock: it does not
see `kernel = 0` together with `locked != 0`. -/
def WakeSeesUnlocked (s : FutexState ι) : FutexAction ι → Prop
  | .step t => s.thread t = .unlock .wake → s.futex.kernel = false → s.futex.locked = 0
  | _ => True

instance WakeSeesUnlocked.decidable (s : FutexState ι) (a : FutexAction ι) :
    Decidable (WakeSeesUnlocked s a) :=
  match a with
  | .step t => inferInstanceAs (Decidable
      (s.thread t = .unlock .wake → s.futex.kernel = false → s.futex.locked = 0))
  | .lock _ _ | .trylock _ | .unlock _ => isTrue trivial

end Toddler
