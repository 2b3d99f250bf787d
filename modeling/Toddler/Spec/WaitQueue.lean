import Toddler.Spec.Wait
import Toddler.Spec.Thread

/-! Runs of the wait queue (`kernel/proc/wait.c`). Each call is one step under the lock of the
queue, at the clock that `hal_get_ms` shows. A `wait_type` other than the two known ones changes
nothing in either call and is left out. A panic is `none`. -/

namespace Toddler

structure WaitState where
  threads : ℕ → Option Thread
  waitQueue : List Waiter
  nowMs : ℕ

inductive WaitAction
  /-- `wait_on_object` of the thread `tid`, and `sleep_thread` if it returns 0. -/
  | wait (tid : ℕ) (futex : Option Futex) (waitType : WaitType) (waitObj waitValue timeoutMs : ℕ)
  /-- Time passes. -/
  | tick (ms : ℕ)
  /-- A pass of `timeout_wakeup_worker`. -/
  | timeout
  /-- `wake_on_object` for the process `pid`. -/
  | wake (pid : ℕ) (futex : Option Futex) (waitType : WaitType)
    (waitObj waitValue maxWakeupCount : ℕ)
  | purge (pid : ℕ)
  deriving DecidableEq, Repr

/-- The loop of `timeout_wakeup_worker`: what stays on the queue and who is woken. -/
def timeoutLoop (nowMs : ℕ) : List Waiter → List Waiter × List Waiter
  | [] => ([], [])
  | w :: ws =>
    if nowMs < w.waitTimeoutMs then (w :: ws, [])
    else
      let r := timeoutLoop nowMs ws
      (r.1, w :: r.2)

def purgeLoop (pid : ℕ) : List Waiter → List Waiter × List Waiter
  | [] => ([], [])
  | w :: ws =>
    let r := purgeLoop pid ws
    if w.pid = pid then (r.1, w :: r.2) else (w :: r.1, r.2)

def wakeupWaiter (threads : ℕ → Option Thread) (w : Waiter) : Option (ℕ → Option Thread) := do
  let t ← threads w.tid
  let t ← t.wakeup
  some (Function.update threads w.tid (some t))

namespace WaitState

def wakeup (s : WaitState) (r : List Waiter × List Waiter) : Option WaitState :=
  (r.2.foldlM wakeupWaiter s.threads).map fun threads =>
    { s with threads := threads, waitQueue := r.1 }

def isWaitQueueReady (s : WaitState) : Bool :=
  (s.waitQueue.head?.map Waiter.waitTimeoutMs).getD noTimeout ≤ s.nowMs

end WaitState

def waitStep (s : WaitState) : WaitAction → Option WaitState
  | .wait tid futex waitType waitObj waitValue timeoutMs => do
    let t ← s.threads tid
    -- the caller is running
    if t.state ≠ .normal then none
    else
      match waitOnObject futex t.pid tid waitType waitObj waitValue timeoutMs s.nowMs with
      | none => some s
      | some w => do
        let t ← t.setState .wait
        some { s with
          threads := Function.update s.threads tid (some t)
          waitQueue := sleepThread s.waitQueue w }
  | .tick ms => if s.nowMs + ms < 2 ^ 64 then some { s with nowMs := s.nowMs + ms } else none
  | .timeout => s.wakeup (timeoutLoop s.nowMs s.waitQueue)
  | .wake pid futex waitType waitObj waitValue maxWakeupCount =>
    s.wakeup (wakeOnObject s.waitQueue futex pid waitType waitObj waitValue maxWakeupCount)
  | .purge pid => s.wakeup (purgeLoop pid s.waitQueue)

structure WaitInit (s : WaitState) : Prop where
  waitQueue : s.waitQueue = []
  threads : ∀ tid t, s.threads tid = some t → t.state ≠ .wait
  nowMs : s.nowMs < 2 ^ 64

/-- The queue is sorted by deadline and holds the sleeping threads, once each. -/
structure WaitQueueOk (s : WaitState) : Prop where
  sorted : s.waitQueue.Pairwise fun a b => a.waitTimeoutMs ≤ b.waitTimeoutMs
  once : (s.waitQueue.map Waiter.tid).Nodup
  sleeping : ∀ tid, tid ∈ s.waitQueue.map Waiter.tid ↔ ∃ t, s.threads tid = some t ∧ t.state = .wait

/-- Between `s` and `s'` the waiters `woken` are taken off the queue and wake up, and nothing else
happens. -/
structure Wakes (s s' : WaitState) (woken : List Waiter) : Prop where
  waitQueue : s'.waitQueue = s.waitQueue.filter fun w => w ∉ woken
  threads : ∀ tid, s'.threads tid =
    if tid ∈ woken.map Waiter.tid then (s.threads tid).map fun t =>
    { t with state := .normal } else s.threads tid
  nowMs : s'.nowMs = s.nowMs

def Waiter.expired (nowMs : ℕ) (w : Waiter) : Bool := w.waitTimeoutMs ≤ nowMs

def Waiter.waitsFor (pid waitObj : ℕ) (w : Waiter) : Bool :=
  w.waitType = .futex ∧ w.waitObj = waitObj ∧ w.pid = pid

/-- The condition that `wake_on_object` tests. -/
def futexWakes (f : Futex) (waitValue : ℕ) : Prop :=
  f.kernel = false ∧ futexMatches f.locked waitValue = true

/-- What the calls do in a state: a pass of the worker wakes who has expired, and `wake_on_object`
with a futex that meets its condition the first `maxWakeupCount` waiters for it, or all of them. -/
structure WaitCallsOk (s : WaitState) : Prop where
  timeout : ∃ s', waitStep s .timeout = some s' ∧
    Wakes s s' (s.waitQueue.filter (Waiter.expired s.nowMs))
  wake : ∀ pid f waitObj waitValue maxWakeupCount, futexWakes f waitValue →
    ∃ s', waitStep s (.wake pid (some f) .futex waitObj waitValue maxWakeupCount) = some s' ∧
      Wakes s s' (if maxWakeupCount = 0 then s.waitQueue.filter (Waiter.waitsFor pid waitObj)
        else (s.waitQueue.filter (Waiter.waitsFor pid waitObj)).take maxWakeupCount)

end Toddler
