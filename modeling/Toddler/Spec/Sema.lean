import Toddler.Lib.Run
import Toddler.Spec.Wait

/-! The semaphore of `libc/kth/semaphore.c`: its count is the field `locked` of a futex word. Any of
the threads `ι` may call `sema_wait_spin`, `sema_trywait` and `sema_post_count` at any time. A step
is one load or one CAS of the word, or one wait or wake system call. -/

namespace Toddler.Sema

inductive WaitPc
  | load (maxSpin : ℤ) (numSpins : ℕ)
  | cas (maxSpin : ℤ) (numSpins : ℕ) (fOld : Futex)
  | wait (maxSpin : ℤ)
  | waiting (maxSpin : ℤ)
  deriving DecidableEq, Repr

inductive TrywaitPc
  | load
  | cas (fOld : Futex)
  deriving DecidableEq, Repr

inductive PostPc
  | load (count : ℕ)
  | cas (count : ℕ) (fOld : Futex)
  | clearLoad
  | clearCas (fOld : Futex)
  | wake
  deriving DecidableEq, Repr

inductive Pc
  | idle
  | wait (pc : WaitPc)
  | trywait (pc : TrywaitPc)
  | post (pc : PostPc)
  deriving DecidableEq, Repr

/-- The process that owns the semaphore, the address of its futex word, `max_count`, and the
threads' tids. -/
structure Config (ι : Type) where
  pid : ℕ
  futexPtr : ℕ
  maxCount : ℕ
  tid : ι → ℕ

/-- `posted` and `taken` are history: the sum of the counts posted and the number of successful
waits. -/
structure State (ι : Type) where
  futex : Futex
  waitQueue : List Waiter
  thread : ι → Pc
  posted : ℕ
  taken : ℕ

inductive Action (ι : Type)
  | wait (t : ι) (maxSpin : ℤ)
  | trywait (t : ι)
  | post (t : ι) (count : ℕ)
  | step (t : ι)
  deriving DecidableEq, Repr

variable {ι : Type}

def State.init : State ι := ⟨Futex.zero, [], fun _ => .idle, 0, 0⟩

def State.Asleep (c : Config ι) (s : State ι) (t : ι) : Prop := ∃ w ∈ s.waitQueue, w.tid = c.tid t

instance State.decidableAsleep (c : Config ι) (s : State ι) (t : ι) : Decidable (s.Asleep c t) :=
  inferInstanceAs (Decidable (∃ w ∈ s.waitQueue, w.tid = c.tid t))

/-- `f_new` in `sema_wait_spin`: take one, or ask to be woken. `numSpins` counts the earlier rounds
of the inner loop. -/
def waitNew (maxSpin : ℤ) (numSpins : ℕ) (fOld : Futex) : Futex :=
  if fOld.locked = 0 then
    if 0 ≤ maxSpin ∨ maxSpin < (numSpins + 1 : ℕ) then { fOld with kernel := true } else fOld
  else { fOld with locked := fOld.locked - 1 }

/-- `f_new` in `sema_post_count`; `locked` is a field of 63 bits. -/
def postNew (maxCount count : ℕ) (fOld : Futex) : Futex :=
  let locked := (fOld.locked + count) % 2 ^ 63
  { fOld with locked := if maxCount ≠ 0 ∧ maxCount < locked then maxCount else locked }

variable [DecidableEq ι]

def State.setThread (s : State ι) (t : ι) (pc : Pc) : State ι :=
  { s with thread := Function.update s.thread t pc }

def waitStep (c : Config ι) (s : State ι) (t : ι) : WaitPc → Option (State ι)
  | .load maxSpin numSpins => some (s.setThread t (.wait (.cas maxSpin numSpins s.futex)))
  | .cas maxSpin numSpins fOld =>
    if s.futex = fOld then
      let fNew := waitNew maxSpin numSpins fOld
      if fOld.locked ≠ 0 then some ({ s with futex := fNew, taken := s.taken + 1 }.setThread t .idle)
      else some ({ s with futex := fNew }.setThread t
        (if fNew.kernel then .wait (.wait maxSpin) else .wait (.load maxSpin 0)))
    else
      -- `++num_spins` is evaluated only for a zero count and a negative `max_spin`
      some (s.setThread t (.wait (.load maxSpin
        (if fOld.locked = 0 ∧ maxSpin < 0 then numSpins + 1 else numSpins))))
  | .wait maxSpin =>
    match waitOnObject (some s.futex) c.pid (c.tid t) .futex c.futexPtr (futexWhenEq + 0) 0 0 with
    | some w =>
      some ({ s with waitQueue := sleepThread s.waitQueue w }.setThread t (.wait (.waiting maxSpin)))
    | none => some (s.setThread t (.wait (.load maxSpin 0)))
  | .waiting maxSpin =>
    if s.Asleep c t then none else some (s.setThread t (.wait (.load maxSpin 0)))

def trywaitStep (s : State ι) (t : ι) : TrywaitPc → State ι
  | .load =>
    if s.futex.locked = 0 then s.setThread t .idle else s.setThread t (.trywait (.cas s.futex))
  | .cas fOld =>
    if s.futex = fOld then
      { s with futex := { fOld with locked := fOld.locked - 1 }, taken := s.taken + 1 }.setThread t .idle
    else s.setThread t .idle

def postStep (c : Config ι) (s : State ι) (t : ι) : PostPc → State ι
  | .load count => s.setThread t (.post (.cas count s.futex))
  | .cas count fOld =>
    if s.futex = fOld then
      let fNew := postNew c.maxCount count fOld
      { s with futex := fNew, posted := s.posted + count }.setThread t
        (if fNew.kernel then .post .clearLoad else .idle)
    else s.setThread t (.post (.load count))
  | .clearLoad =>
    if s.futex.locked = 0 ∨ s.futex.kernel = false then s.setThread t .idle
    else s.setThread t (.post (.clearCas s.futex))
  | .clearCas fOld =>
    if s.futex = fOld then
      { s with futex := { fOld with kernel := false } }.setThread t (.post .wake)
    else s.setThread t (.post .clearLoad)
  | .wake =>
    { s with waitQueue := (wakeOnObject s.waitQueue (some s.futex) c.pid .futex c.futexPtr
      futexWhenNe 0).1 }.setThread t .idle

def step (c : Config ι) (s : State ι) : Action ι → Option (State ι)
  | .wait t maxSpin => if s.thread t = .idle then some (s.setThread t (.wait (.load maxSpin 0))) else none
  | .trywait t => if s.thread t = .idle then some (s.setThread t (.trywait .load)) else none
  | .post t count => if s.thread t = .idle then some (s.setThread t (.post (.load count))) else none
  | .step t =>
    match s.thread t with
    | .idle => none
    | .wait pc => waitStep c s t pc
    | .trywait pc => some (trywaitStep s t pc)
    | .post pc => some (postStep c s t pc)

def Pc.Posting : Pc → Prop
  | .post _ => True
  | _ => False

/-- The count is what was posted less what was taken, and a thread does not sleep on a positive
count unless somebody is in the middle of posting. -/
structure CountsAndWakes (c : Config ι) (s : State ι) : Prop where
  count : s.futex.locked + s.taken = s.posted
  awake : 0 < s.futex.locked → (∀ t, ¬ (s.thread t).Posting) → ∀ t, ¬ s.Asleep c t

/-- A post does not overflow the count, and the wake call of a poster does not find that the count
has been taken: it does not see `kernel = 0` together with `locked = 0`. -/
def WakeSeesCount (s : State ι) : Action ι → Prop
  | .step t =>
    match s.thread t with
    | .post (.cas count fOld) => fOld.locked + count < 2 ^ 63
    | .post .wake => s.futex.kernel = false → s.futex.locked ≠ 0
    | _ => True
  | _ => True

instance WakeSeesCount.decidable (s : State ι) (a : Action ι) : Decidable (WakeSeesCount s a) := by
  unfold WakeSeesCount
  split
  · split <;> infer_instance
  · infer_instance

end Toddler.Sema
