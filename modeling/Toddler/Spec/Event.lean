import Toddler.Lib.Run
import Toddler.Spec.Wait

/-! The wait event of `kernel/proc/event.c`: one waiter that calls `event_wait` again and again,
and signallers `ι` that call `event_signal`. A step is one load or one CAS of the futex word, or one
call of the wait queue under its lock. A program counter holds the locals that are live there. -/

namespace Toddler

inductive EventWaitPc
  | idle
  | spin (numSpins : ℕ)
  | load
  | cas (fOld : Futex)
  | wait
  | waiting
  | resetLoad
  | resetCas (fOld : Futex)
  deriving DecidableEq, Repr

inductive EventSignalPc
  | idle
  | load
  | cas (fOld : Futex)
  | clearLoad
  | clearCas (fOld : Futex)
  | wake
  deriving DecidableEq, Repr

/-- The event and its only waiter: a kernel thread, whose futex pointer is not translated. -/
structure EventConfig where
  kernelPid : ℕ
  waiterTid : ℕ
  futexPtr : ℕ
  maxSpin : ℤ

structure EventState (ι : Type) where
  futex : Futex
  waitQueue : List Waiter
  waiter : EventWaitPc
  signaller : ι → EventSignalPc

inductive EventAction (ι : Type)
  | waiter
  | signaller (i : ι)
  deriving DecidableEq, Repr

variable {ι : Type}

def EventState.init : EventState ι := ⟨Futex.zero, [], .idle, fun _ => .idle⟩

def EventState.Asleep (c : EventConfig) (s : EventState ι) : Prop :=
  ∃ w ∈ s.waitQueue, w.tid = c.waiterTid

instance EventState.decidableAsleep (c : EventConfig) (s : EventState ι) : Decidable (s.Asleep c) :=
  inferInstanceAs (Decidable (∃ w ∈ s.waitQueue, w.tid = c.waiterTid))

def eventWaitStep (c : EventConfig) (s : EventState ι) : Option (EventState ι) :=
  match s.waiter with
  | .idle => some { s with waiter := .spin 0 }
  | .spin n =>
    if c.maxSpin < 0 ∨ (n : ℤ) ≤ c.maxSpin then
      if s.futex.locked ≠ 0 then some { s with waiter := .resetLoad }
      else some { s with waiter := .spin (n + 1) }
    else some { s with waiter := .load }
  | .load =>
    if s.futex.locked ≠ 0 then some { s with waiter := .resetLoad }
    else some { s with waiter := .cas s.futex }
  | .cas fOld =>
    if s.futex = fOld then some { s with futex := { fOld with kernel := true }, waiter := .wait }
    else some { s with waiter := .load }
  | .wait =>
    match waitOnObject (some s.futex) c.kernelPid c.waiterTid .futex c.futexPtr
        (futexWhenEq + 0) 0 0 with
    | some w => some { s with waitQueue := sleepThread s.waitQueue w, waiter := .waiting }
    | none => some { s with waiter := .resetLoad }
  | .waiting =>
    -- the thread runs again only after it was taken off the queue
    if s.Asleep c then none else some { s with waiter := .resetLoad }
  | .resetLoad =>
    if s.futex.locked = 0 then some { s with waiter := .idle }
    else some { s with waiter := .resetCas s.futex }
  | .resetCas fOld =>
    if s.futex = fOld then some { s with futex := { fOld with locked := 0 }, waiter := .idle }
    else some { s with waiter := .resetLoad }

variable [DecidableEq ι]

def EventState.setSignaller (s : EventState ι) (i : ι) (pc : EventSignalPc) : EventState ι :=
  { s with signaller := Function.update s.signaller i pc }

def eventSignalStep (c : EventConfig) (s : EventState ι) (i : ι) : EventState ι :=
  match s.signaller i with
  | .idle => s.setSignaller i .load
  | .load => s.setSignaller i (.cas s.futex)
  | .cas fOld =>
    if s.futex = fOld then
      { s with futex := { fOld with locked := 1 } }.setSignaller i
        (if fOld.kernel then .clearLoad else .idle)
    else s.setSignaller i .load
  | .clearLoad =>
    if s.futex.kernel then s.setSignaller i (.clearCas s.futex) else s.setSignaller i .idle
  | .clearCas fOld =>
    if s.futex = fOld then
      { s with futex := { fOld with kernel := false } }.setSignaller i .wake
    else s.setSignaller i .clearLoad
  | .wake =>
    { s with waitQueue := (wakeOnObject s.waitQueue (some s.futex) c.kernelPid .futex c.futexPtr
        (futexWhenEq + 1) 0).1 }.setSignaller i .idle

def eventStep (c : EventConfig) (s : EventState ι) : EventAction ι → Option (EventState ι)
  | .waiter => eventWaitStep c s
  | .signaller i => some (eventSignalStep c s i)

/-- The second loop of `event_signal` never finds the flag of a waiter that has already consumed
the signal: it does not read `kernel = 1` together with `locked = 0`. -/
def ClearSeesSignal (s : EventState ι) : EventAction ι → Prop
  | .waiter => True
  | .signaller i => s.signaller i = .clearLoad → s.futex.kernel = true → s.futex.locked ≠ 0

instance ClearSeesSignal.decidable (s : EventState ι) (a : EventAction ι) :
    Decidable (ClearSeesSignal s a) :=
  match a with
  | .waiter => isTrue trivial
  | .signaller i =>
    inferInstanceAs (Decidable (s.signaller i = .clearLoad → s.futex.kernel = true → s.futex.locked ≠ 0))

end Toddler
