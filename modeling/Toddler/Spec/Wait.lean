import Mathlib.Data.List.Sort
import Mathlib.Tactic

/-! The kernel wait queue (`kernel/proc/wait.c`) and the futex word it inspects. A `Waiter` is the
part of `struct thread` that the queue reads. `wait_on_object` leaves the queue locked for
`sleep_thread`, so the pair is one step of the callers' models. -/

namespace Toddler

/-- `futex_t`: the `kernel` bit and the remaining bits of the word. Two words have the same
`value` exactly when both fields agree. -/
structure Futex where
  kernel : Bool
  locked : ℕ
  deriving DecidableEq, Repr

def Futex.zero : Futex := ⟨false, 0⟩

inductive WaitType
  | timeout
  | futex
  deriving DecidableEq, Repr

def futexWhenEq : ℕ := 0
def futexWhenNe : ℕ := 2 ^ 63

/-- The comparison of `futex->locked` with `wait_value & FUTEX_VALUE_MASK` that both
`wait_on_object` and `wake_on_object` make. -/
def futexMatches (locked waitValue : ℕ) : Bool :=
  let whenNe := waitValue.testBit 63
  let whenVal := waitValue % futexWhenNe
  (!whenNe && locked == whenVal) || (whenNe && locked != whenVal)

structure Waiter where
  tid : ℕ
  pid : ℕ
  waitType : WaitType
  waitObj : ℕ
  waitTimeoutMs : ℕ
  deriving DecidableEq, Repr

def noTimeout : ℕ := 2 ^ 64 - 1

/-- `wait_on_object` for thread `tid` of process `pid`; `futex` is the word that `wait_obj`
translates to. The result is the record to put to sleep, or `none` for `err = -1`. -/
def waitOnObject (futex : Option Futex) (pid tid : ℕ) (waitType : WaitType)
    (waitObj waitValue timeoutMs nowMs : ℕ) : Option Waiter :=
  let deadline := if timeoutMs ≠ 0 then (nowMs + timeoutMs) % 2 ^ 64 else noTimeout
  match waitType with
  | .timeout => some ⟨tid, pid, waitType, tid, deadline⟩
  | .futex =>
    match futex with
    | some f =>
      if f.kernel && futexMatches f.locked waitValue then
        some ⟨tid, pid, waitType, waitObj, deadline⟩
      else none
    | none => none

def sleepThread (queue : List Waiter) (w : Waiter) : List Waiter :=
  queue.orderedInsert (fun a b => a.waitTimeoutMs ≤ b.waitTimeoutMs) w

/-- The loop of `wake_on_object`: what stays on the queue and who is woken, in queue order. -/
def wakeLoop (selected : Waiter → Bool) (maxCount : ℕ) : ℕ → List Waiter → List Waiter × List Waiter
  | _, [] => ([], [])
  | count, w :: ws =>
    if selected w then
      if maxCount ≠ 0 ∧ maxCount ≤ count + 1 then (ws, [w])
      else
        let r := wakeLoop selected maxCount (count + 1) ws
        (r.1, w :: r.2)
    else
      let r := wakeLoop selected maxCount count ws
      (w :: r.1, r.2)

def wakeOnObject (queue : List Waiter) (futex : Option Futex) (pid : ℕ) (waitType : WaitType)
    (waitObj waitValue maxWakeupCount : ℕ) : List Waiter × List Waiter :=
  let doWakeup : Bool := match waitType, futex with
    | .futex, some f => !f.kernel && futexMatches f.locked waitValue
    | _, _ => false
  if doWakeup then
    wakeLoop (fun w => w.waitType == waitType && w.waitObj == waitObj && w.pid == pid)
      maxWakeupCount 0 queue
  else (queue, [])

@[simp] theorem futexMatches_eq_zero (locked : ℕ) :
    futexMatches locked futexWhenEq = (locked == 0) := by
  simp [futexMatches, futexWhenEq]

@[simp] theorem futexMatches_eq_one (locked : ℕ) :
    futexMatches locked (futexWhenEq + 1) = (locked == 1) := by
  have h : Nat.testBit 1 63 = false := by decide
  simp [futexMatches, futexWhenEq, futexWhenNe, h]

@[simp] theorem futexMatches_ne_zero (locked : ℕ) :
    futexMatches locked futexWhenNe = (locked != 0) := by
  have h : Nat.testBit 9223372036854775808 63 = true := by decide
  simp [futexMatches, futexWhenNe, h]

theorem wakeLoop_all (selected : Waiter → Bool) (count : ℕ) (queue : List Waiter) :
    (wakeLoop selected 0 count queue).1 = queue.filter fun w => !selected w := by
  induction queue generalizing count with
  | nil => rfl
  | cons w ws ih =>
    cases h : selected w <;> simp [wakeLoop, h, ih]

/-- A futex wait sleeps exactly when the word matches with its kernel flag set. -/
theorem waitOnObject_futex {f : Futex} {pid tid obj value now : ℕ} {w : Waiter} :
    waitOnObject (some f) pid tid .futex obj value 0 now = some w ↔
      f.kernel = true ∧ futexMatches f.locked value = true ∧ w = ⟨tid, pid, .futex, obj, noTimeout⟩ := by
  simp only [waitOnObject, Bool.and_eq_true, ne_eq, not_true_eq_false, if_false]
  constructor
  · intro h
    split_ifs at h with hc
    exact ⟨hc.1, hc.2, (Option.some.inj h).symm⟩
  · rintro ⟨hk, hm, rfl⟩
    rw [if_pos ⟨hk, hm⟩]

/-- A wake without a limit clears a queue that holds only waiters of the object. -/
theorem wakeOnObject_futex {queue : List Waiter} {f : Futex} {pid obj value : ℕ}
    (hq : ∀ w ∈ queue, w.waitType = .futex ∧ w.waitObj = obj ∧ w.pid = pid) :
    (wakeOnObject queue (some f) pid .futex obj value 0).1 =
      if f.kernel = false ∧ futexMatches f.locked value = true then [] else queue := by
  by_cases h : f.kernel = false ∧ futexMatches f.locked value = true
  · have hall : (queue.filter fun w => !(w.waitType == .futex && w.waitObj == obj &&
        w.pid == pid)) = [] := by
      rw [List.filter_eq_nil_iff]
      intro w hw
      obtain ⟨h1, h2, h3⟩ := hq w hw
      simp [h1, h2, h3]
    have hdo : (!f.kernel && futexMatches f.locked value) = true := by simp [h]
    simp only [wakeOnObject, hdo, if_true, wakeLoop_all, hall, if_pos h]
  · rw [if_neg h]
    simp only [wakeOnObject, Bool.and_eq_true, Bool.not_eq_true']
    rw [if_neg h]

theorem mem_sleepThread {queue : List Waiter} {v w : Waiter} :
    v ∈ sleepThread queue w ↔ v = w ∨ v ∈ queue := by
  simp [sleepThread]

end Toddler
