import Toddler.Lib.Shared
import Mathlib.Data.List.Basic

/-! The spinlock of `kernel/atomic/spinlock.c`. The first part is one lock and the loads, CASes and
stores of any number of CPUs; the second is one CPU with its interrupts and any number of locks. -/

namespace Toddler.Spinlock

/-- The bit fields of `spinlock_t`. Two words have the same `value` exactly when the fields
agree. -/
structure Word where
  locked : Bool
  intEnabled : Bool
  deriving DecidableEq, Repr

/-- `int` is the result of `hal_disable_local_int` in the `_int` functions. From `saveLoad` on they
store it in the word. -/
inductive Pc
  | idle
  | lockLoad (int : Option Bool)
  | lockCas (int : Option Bool) (oldVal : Word)
  | tryLoad (int : Option Bool)
  | tryCas (int : Option Bool) (oldVal : Word)
  | saveLoad (enabled : Bool)
  | saveCas (enabled : Bool) (oldVal : Word)
  | holding
  | unlockInt
  | unlockCheck
  | unlockStore
  deriving DecidableEq, Repr

inductive Action
  | lock (int : Option Bool)
  | trylock (int : Option Bool)
  | unlock (int : Bool)
  | step
  deriving DecidableEq, Repr

def acquired : Option Bool → Pc
  | none => .holding
  | some enabled => .saveLoad enabled

/-- A failed `assert` is `none`, as is a call that a CPU cannot make where it is. -/
def next (lock : Word) : Pc → Action → Option (Word × Pc)
  | .idle, .lock int => some (lock, .lockLoad int)
  | .idle, .trylock int => some (lock, .tryLoad int)
  | .holding, .unlock int => some (lock, if int then .unlockInt else .unlockCheck)
  | .lockLoad int, .step => some (lock, if lock.locked then .lockLoad int else .lockCas int lock)
  | .lockCas int oldVal, .step =>
    if lock = oldVal then some (⟨true, false⟩, acquired int) else some (lock, .lockLoad int)
  | .tryLoad int, .step => some (lock, if lock.locked then .idle else .tryCas int lock)
  | .tryCas int oldVal, .step =>
    if lock = oldVal then some (⟨true, false⟩, acquired int) else some (lock, .idle)
  | .saveLoad enabled, .step => if lock.locked then some (lock, .saveCas enabled lock) else none
  | .saveCas enabled oldVal, .step => if lock = oldVal then some (⟨true, enabled⟩, .holding) else none
  | .unlockInt, .step => some (lock, .unlockCheck)
  | .unlockCheck, .step => if lock.locked then some (lock, .unlockStore) else none
  | .unlockStore, .step => some (⟨false, false⟩, .idle)
  | _, _ => none

def Pc.Holds : Pc → Prop
  | .saveLoad _ | .saveCas _ _ | .holding | .unlockInt | .unlockCheck | .unlockStore => True
  | _ => False

def Pc.Calling : Pc → Prop
  | .idle | .holding => False
  | _ => True

structure Exclusive {ι : Type} (s : Shared ι Word Pc) : Prop where
  one : ∀ i j, (s.thread i).Holds → (s.thread j).Holds → i = j
  asserts : ∀ i, (s.thread i).Calling → (next s.mem (s.thread i) .step).isSome

/-- Whether interrupts are enabled, the words of all locks, and the locks that the CPU has, the last
one first. -/
structure Cpu (Λ : Type) where
  int : Bool
  lock : Λ → Word
  held : List Λ

/-- `cas` says whether the CAS of `spinlock_trylock` finds the word it has loaded. Other CPUs do
anything to the locks that this one does not have. -/
inductive Call (Λ : Type)
  | lockInt (l : Λ)
  | trylockInt (l : Λ) (cas : Bool)
  | unlockInt (l : Λ)
  | others (lock : Λ → Word)

variable {Λ : Type} [DecidableEq Λ]

def acquire (s : Cpu Λ) (l : Λ) : Cpu Λ :=
  { int := false, lock := Function.update s.lock l ⟨true, s.int⟩, held := l :: s.held }

def trylockFails (s : Cpu Λ) (l : Λ) (cas : Bool) : Bool := (s.lock l).locked || !cas

/-- `spinlock_lock_int` returns when the lock is free. Unlocks are of the lock taken last. -/
def call (s : Cpu Λ) : Call Λ → Option (Cpu Λ)
  | .lockInt l => if (s.lock l).locked then none else some (acquire s l)
  | .trylockInt l cas => some (if trylockFails s l cas then { s with int := false } else acquire s l)
  | .unlockInt l =>
    if s.held.head? = some l ∧ (s.lock l).locked then
      some ⟨(s.lock l).intEnabled, Function.update s.lock l ⟨false, false⟩, s.held.tail⟩
    else none
  | .others lock => if ∀ l ∈ s.held, lock l = s.lock l then some { s with lock } else none

/-- A `spinlock_lock_int`, and the words of the locks after what other CPUs have done before it. -/
structure Taken (Λ : Type) where
  others : Λ → Word
  lock : Λ

/-- `spinlock_exclusive_int`, `list_access_exclusive` and `dict_access_exclusive`. -/
def exclusiveInt (l : Taken Λ) (body : Cpu Λ → Option (Cpu Λ)) (s : Cpu Λ) : Option (Cpu Λ) := do
  let s ← call s (.others l.others)
  let s ← call s (.lockInt l.lock)
  let s ← body s
  call s (.unlockInt l.lock)

def exclusiveEach (ls : List (Taken Λ)) (s : Cpu Λ) : Option (Cpu Λ) :=
  ls.foldlM (fun s l => exclusiveInt l some s) s

/-- The locks of `dict_rehash_exclusive`. `palloc_ptr` tries `regions`, and `nodes` are the old and
the new bucket of each node. -/
structure RehashLocks (Λ : Type) where
  rehashLock : Λ
  regions : List (Taken Λ)
  allocStats : Taken Λ
  lock : Taken Λ
  seqNodes : Taken Λ
  nodes : List (Taken Λ × Taken Λ)
  freeRegion : Taken Λ
  freeStats : Taken Λ

/-- `_dict_rehash`, as far as it goes with locks. -/
def dictRehash (need : Bool) (l : RehashLocks Λ) (s : Cpu Λ) : Option (Cpu Λ) :=
  if !need then some s
  else exclusiveInt l.seqNodes (exclusiveEach (l.nodes.flatMap fun node => [node.1, node.2])) s

/-- `dict_rehash_exclusive`, as far as it goes with locks. `need` and `need'` are the answers of
`_dict_needs_rehash`, before the rehash lock is taken and under the lock of the dictionary. -/
def dictRehashExclusive (need need' cas : Bool) (l : RehashLocks Λ) (s : Cpu Λ) : Option (Cpu Λ) :=
  if !need then some s
  else if trylockFails s l.rehashLock cas then call s (.trylockInt l.rehashLock cas)
  else do
    let s ← call s (.trylockInt l.rehashLock cas)
    -- the last region has the pages, so that `palloc_region` counts them
    let s ← exclusiveEach (l.regions ++ [l.allocStats]) s
    let s ← exclusiveInt l.lock (dictRehash need' l) s
    let s ← call s (.unlockInt l.rehashLock)
    exclusiveEach [l.freeRegion, l.freeStats] s

/-- A `spinlock_trylock_int` that fails is made with interrupts disabled. -/
def FailsDisabled (s : Cpu Λ) : Call Λ → Prop
  | .trylockInt l cas => trylockFails s l cas = true → s.int = false
  | _ => True

structure IntKept (int : Bool) (ok : Cpu Λ → Call Λ → Prop) (s : Cpu Λ) : Prop where
  released : s.held = [] → s.int = int
  holding : s.held ≠ [] → s.int = false
  rehash : ∀ need need' cas l t, ok s (.trylockInt l.rehashLock cas) →
    dictRehashExclusive need need' cas l s = some t → t.int = s.int

end Toddler.Spinlock
