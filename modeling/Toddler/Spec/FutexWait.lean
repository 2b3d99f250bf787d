import Toddler.Spec.UserRwlock

/-! `futex_wait` of `libc/sys/futex.c` by one thread, on a word that other threads lock and
unlock. -/

namespace Toddler

open UserRwlock (FutexWaitPc)

inductive FutexWaitCall
  | inside (pc : FutexWaitPc)
  | returned (fOld : Futex)
  deriving DecidableEq, Repr

structure FutexWaiting (ι : Type) where
  others : FutexState ι
  waiter : FutexWaitCall

variable {ι : Type}

/-- A step of the waiter, whose tid is `tid`. `continue` goes to the CAS of the loop condition with
`f_new` as the rounds before have left it. -/
def futexWait (c : FutexConfig ι) (tid : ℕ) (spin : ℤ) (s : FutexState ι) :
    FutexWaitPc → Option (FutexState ι × FutexWaitCall)
  | .load numSpins fNew =>
    if s.futex.locked = 0 then some (s, .returned s.futex)
    else if spin < 0 then some (s, .inside (.cas numSpins s.futex fNew))
    else if spin < (numSpins + 1 : ℕ) then some (s, .inside (.cas (numSpins + 1) s.futex fNew))
    else some (s, .inside (.cas (numSpins + 1) s.futex { s.futex with kernel := true }))
  | .cas numSpins fOld fNew =>
    if s.futex = fOld then
      some ({ s with futex := fNew }, .inside (if fNew.kernel then .wait fNew else .load 0 fNew))
    else some (s, .inside (.load numSpins fNew))
  | .wait fNew =>
    match waitOnObject (some s.futex) c.pid tid .futex c.futexPtr (futexWhenEq + 1) 0 0 with
    | some w => some ({ s with waitQueue := sleepThread s.waitQueue w }, .inside (.waiting fNew))
    | none => some (s, .inside (.load 0 fNew))
  | .waiting fNew =>
    if ∃ w ∈ s.waitQueue, w.tid = tid then none else some (s, .inside (.load 0 fNew))

def FutexWaiting.wait (c : FutexConfig ι) (tid : ℕ) (spin : ℤ) (s : FutexWaiting ι) :
    Option (FutexWaiting ι) :=
  match s.waiter with
  | .inside pc => (futexWait c tid spin s.others pc).map fun r => ⟨r.1, r.2⟩
  | .returned _ => none

def futexWaitingStep [DecidableEq ι] (c : FutexConfig ι) (tid : ℕ) (spin : ℤ) (s : FutexWaiting ι) :
    Option (FutexAction ι) → Option (FutexWaiting ι)
  | some a => (futexStep c s.others a).map fun others => { s with others }
  | none => s.wait c tid spin

structure OnlyWaits (c : FutexConfig ι) (tid : ℕ) (spin : ℤ) (s : FutexWaiting ι) : Prop where
  locked : ∀ s', s.wait c tid spin = some s' → s'.others.futex.locked = s.others.futex.locked
  returned : ∀ f, s.waiter = .returned f → f.locked = 0

end Toddler
