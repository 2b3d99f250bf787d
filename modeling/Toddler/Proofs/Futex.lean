import Toddler.Lib.Shared
import Toddler.Spec.Futex
import Mathlib.Tactic

/-! A thread sleeps on the mutex only while a wake-up is owed to it: the lock is taken with the
kernel flag set, or an unlocker is about to clear the flag, or has cleared it and is about to make
its wake call. A wake call that finds the lock taken again with the flag clear breaks the chain. -/

namespace Toddler

variable {ι : Type}

def FutexPc.Clearing : FutexPc → Prop
  | .unlock .clearLoad | .unlock (.clearCas _) => True
  | _ => False

def FutexState.WillWake (s : FutexState ι) : Prop :=
  (s.futex.kernel = true ∧ s.futex.locked ≠ 0) ∨
  (s.futex.kernel = true ∧ ∃ t, (s.thread t).Clearing) ∨
  (s.futex.kernel = false ∧ ∃ t, s.thread t = .unlock .wake)

structure FutexInv (c : FutexConfig ι) (s : FutexState ι) : Prop where
  queued : ∀ w ∈ s.waitQueue, w.waitType = .futex ∧ w.waitObj = c.futexPtr ∧ w.pid = c.pid
  asleep : s.waitQueue ≠ [] → s.WillWake

variable [DecidableEq ι] {c : FutexConfig ι} {s : FutexState ι} {t : ι} {pc : FutexPc}

theorem FutexInv.move (hi : FutexInv c s) {f : Futex}
    (hw : s.WillWake → ({ s with futex := f }.setThread t pc).WillWake) :
    FutexInv c ({ s with futex := f }.setThread t pc) :=
  ⟨hi.queued, fun hq => hw (hi.asleep hq)⟩

/-- The wake-up stays owed when a thread moves that the sleepers do not rely on. -/
theorem FutexState.WillWake.other (h : s.WillWake) {f : Futex}
    (hk : s.futex.kernel = true → f.kernel = true)
    (hl : s.futex.kernel = true → s.futex.locked ≠ 0 → f.locked ≠ 0)
    (hf : s.futex.kernel = false → f.kernel = true → f.locked ≠ 0)
    (hc : ¬ (s.thread t).Clearing) (hw : s.futex.kernel = false → s.thread t ≠ .unlock .wake) :
    ({ s with futex := f }.setThread t pc).WillWake :=
  Owed.other (P := FutexPc.Clearing) h hk hl hf hc hw

theorem FutexState.WillWake.takeOver (h : s.WillWake) (hw : s.thread t ≠ .unlock .wake)
    (hl : s.futex.kernel = true → s.futex.locked ≠ 0 ∨ pc.Clearing) : (s.setThread t pc).WillWake :=
  Owed.takeOver (P := FutexPc.Clearing) h hw hl

section

variable (hi : FutexInv c s)
include hi

/-- A thread that is not in the second half of `futex_unlock` may move without touching the word. -/
theorem FutexInv.stay (hc : ¬ (s.thread t).Clearing) (hw : s.thread t ≠ .unlock .wake) :
    FutexInv c (s.setThread t pc) :=
  hi.move fun h => h.other id (fun _ => id) (fun h0 h1 => by simp [h0] at h1) hc fun _ => hw

theorem futexInv_lock {u : FutexState ι} {pc : LockPc}
    (hpc : s.thread t = .lock pc) (hs : lockStep c s t pc = some u) : FutexInv c u := by
  have hc : ¬ (s.thread t).Clearing := by simp [hpc, FutexPc.Clearing]
  have hw : s.thread t ≠ .unlock .wake := by simp [hpc]
  cases pc with
  | load spin n => cases hs; exact hi.stay hc hw
  | cas spin n fOld =>
    by_cases he : s.futex = fOld
    · -- both values of `f_new` keep the flag and leave the word locked
      subst he
      simp only [lockStep, if_true, Option.some.injEq] at hs
      subst hs
      have hlocked : (lockNew spin n s.futex).locked ≠ 0 := by
        unfold lockNew; split_ifs <;> simp_all
      have hkernel : s.futex.kernel = true → (lockNew spin n s.futex).kernel = true := by
        unfold lockNew; split_ifs <;> simp
      exact hi.move fun h => h.other hkernel (fun _ _ => hlocked) (fun _ _ => hlocked) hc fun _ => hw
    · simp only [lockStep, if_neg he, Option.some.injEq] at hs
      subst hs
      exact hi.stay hc hw
  | wait spin =>
    simp only [lockStep] at hs
    split at hs
    case h_1 w hwait =>
      cases hs
      obtain ⟨hk, hm, rfl⟩ := waitOnObject_futex.mp hwait
      have hl : s.futex.locked = 1 := by simpa using hm
      refine ⟨?_, fun _ => .inl ⟨hk, by simp [FutexState.setThread, hl]⟩⟩
      intro v hv
      rcases mem_sleepThread.mp hv with rfl | hv
      · exact ⟨rfl, rfl, rfl⟩
      · exact hi.queued v hv
    case h_2 => cases hs; exact hi.stay hc hw
  | waiting spin =>
    simp only [lockStep] at hs
    split_ifs at hs
    cases hs; exact hi.stay hc hw

theorem futexInv_trylock {pc : TrylockPc} (hpc : s.thread t = .trylock pc) :
    FutexInv c (trylockStep s t pc) := by
  have hc : ¬ (s.thread t).Clearing := by simp [hpc, FutexPc.Clearing]
  have hw : s.thread t ≠ .unlock .wake := by simp [hpc]
  cases pc with
  | load => simp only [trylockStep]; split_ifs <;> exact hi.stay hc hw
  | cas fOld =>
    simp only [trylockStep]
    split_ifs with he
    · subst he
      exact hi.move fun h => h.other id (fun _ _ => by simp) (fun _ _ => by simp) hc fun _ => hw
    · exact hi.stay hc hw

theorem futexInv_unlock {pc : UnlockPc} (hpc : s.thread t = .unlock pc)
    (hok : s.thread t = .unlock .wake → s.futex.kernel = false → s.futex.locked = 0) :
    FutexInv c (unlockStep c s t pc) := by
  cases pc with
  | load =>
    simp only [unlockStep]
    split_ifs <;> exact hi.stay (by simp [hpc, FutexPc.Clearing]) (by simp [hpc])
  | cas fOld =>
    simp only [unlockStep]
    split_ifs with he hk
    · -- the unlocker itself now owes the wake-up
      exact hi.move fun _ => .inr (.inl ⟨hk, t, by simp [FutexState.setThread, FutexPc.Clearing]⟩)
    · subst he
      exact hi.move fun h => h.other id (fun h0 => absurd h0 hk) (fun _ h1 => absurd h1 hk)
        (by simp [hpc, FutexPc.Clearing]) (by simp [hpc])
    · exact hi.stay (by simp [hpc, FutexPc.Clearing]) (by simp [hpc])
  | clearLoad =>
    simp only [unlockStep]
    split_ifs with he
    · exact hi.move fun h => h.takeOver (by simp [hpc]) fun hk => .inl (he.resolve_right (by simp [hk]))
    · exact hi.move fun h => h.takeOver (by simp [hpc]) fun _ => .inr trivial
  | clearCas fOld =>
    simp only [unlockStep]
    split_ifs with he
    · exact hi.move fun _ => .inr (.inr ⟨rfl, t, by simp [FutexState.setThread]⟩)
    · exact hi.move fun h => h.takeOver (by simp [hpc]) fun _ => .inr trivial
  | wake =>
    simp only [unlockStep]
    rw [wakeOnObject_futex hi.queued]
    split_ifs with hk
    · exact ⟨by simp [FutexState.setThread], fun h => absurd rfl h⟩
    · -- nobody is woken, so the flag is set and the caller was not relied upon
      have hkernel : s.futex.kernel = true := by
        by_contra hne
        have hf : s.futex.kernel = false := by simpa using hne
        exact hk ⟨hf, by simpa using hok hpc hf⟩
      exact hi.move fun h => h.other id (fun _ => id) (fun h0 => by simp [hkernel] at h0)
        (by simp [hpc, FutexPc.Clearing]) fun h0 => by simp [hkernel] at h0

theorem futexInv_step {u : FutexState ι} {a : FutexAction ι}
    (hok : WakeSeesUnlocked s a) (hs : futexStep c s a = some u) : FutexInv c u := by
  cases a with
  | lock t spin | trylock t | unlock t =>
    simp only [futexStep] at hs
    split_ifs at hs with hidle
    cases hs
    exact hi.stay (by simp [hidle, FutexPc.Clearing]) (by simp [hidle])
  | step t =>
    simp only [futexStep] at hs
    split at hs
    case h_1 => cases hs
    case h_2 pc hpc => exact futexInv_lock hi hpc hs
    case h_3 pc hpc => cases hs; exact futexInv_trylock hi hpc
    case h_4 pc hpc => cases hs; exact futexInv_unlock hi hpc hok

end

/-- In every state reached by steps whose wake calls do not find the lock taken again, an unlocked
mutex that nobody is in the middle of unlocking has no sleeper. -/
theorem futex_no_stranded_waiter (c : FutexConfig ι) (s : FutexState ι)
    (hrun : Reach (futexStep c) WakeSeesUnlocked FutexState.init s)
    (hlocked : s.futex.locked = 0) (hdone : ∀ t, ¬ (s.thread t).Unlocking) (t : ι) : ¬ s.Asleep c t := by
  have hi : FutexInv c s := hrun.invariant ⟨by simp [FutexState.init], by simp [FutexState.init]⟩
    fun _ _ _ hu hok hs => futexInv_step hu hok hs
  rintro ⟨w, hw, -⟩
  rcases hi.asleep (List.ne_nil_of_mem hw) with ⟨-, h1⟩ | ⟨-, j, hj⟩ | ⟨-, j, hj⟩
  · exact h1 hlocked
  · apply hdone j
    revert hj
    cases s.thread j with
    | unlock pc => cases pc <;> simp [FutexPc.Clearing, FutexPc.Unlocking]
    | _ => simp [FutexPc.Clearing]
  · exact hdone j (by simp [hj, FutexPc.Unlocking])

/-- Thread 0 holds the lock, thread 1 sleeps, thread 0 unlocks and wakes it. -/
def handoverRun : List (FutexAction (Fin 2)) :=
  [.lock 0 0, .step 0, .step 0, .lock 1 0, .step 1, .step 1, .step 1,
    .unlock 0, .step 0, .step 0, .step 0, .step 0, .step 0]

theorem futex_no_stranded_waiter_handover :
    ∃ s, Reach (futexStep (⟨1, 4096, fun t => t.val⟩ : FutexConfig (Fin 2))) WakeSeesUnlocked
        FutexState.init s ∧ s.futex.locked = 0 ∧ (∀ t, ¬ (s.thread t).Unlocking) ∧
      ∀ t, ¬ s.Asleep ⟨1, 4096, fun t => t.val⟩ t := by
  have hrun : ∃ s, execute (futexStep ⟨1, 4096, fun t => t.val⟩)
      WakeSeesUnlocked FutexState.init handoverRun = some s ∧ s.futex.locked = 0 ∧
      ∀ t, ¬ (s.thread t).Unlocking :=
    ⟨_, rfl, rfl, fun t => by fin_cases t <;> exact id⟩
  obtain ⟨s, hs, hlocked, hdone⟩ := hrun
  exact ⟨s, reach_of_execute hs, hlocked, hdone,
    futex_no_stranded_waiter _ s (reach_of_execute hs) hlocked hdone⟩

/-- Thread 0 holds the lock and thread 1 sleeps. Thread 0 unlocks and clears the flag; thread 2
takes the lock before the wake call, which then wakes nobody, and unlocks without a flag. -/
def strandedRun : List (FutexAction (Fin 3)) :=
  [.lock 0 0, .step 0, .step 0, .lock 1 0, .step 1, .step 1, .step 1,
    .unlock 0, .step 0, .step 0, .step 0, .step 0, .lock 2 0, .step 2, .step 2, .step 0,
    .unlock 2, .step 2, .step 2]

theorem futex_stranded_waiter :
    ¬ ∀ (ι : Type) [DecidableEq ι] (c : FutexConfig ι) (s : FutexState ι),
      Reach (futexStep c) anyStep FutexState.init s → s.futex.locked = 0 →
      (∀ t, ¬ (s.thread t).Unlocking) → ∀ t, ¬ s.Asleep c t := by
  intro hclaim
  have hrun : ∃ s, execute (futexStep ⟨1, 4096, fun t => t.val⟩)
      anyStep FutexState.init strandedRun = some s ∧ s.futex.locked = 0 ∧
      (∀ t, ¬ (s.thread t).Unlocking) ∧ s.Asleep ⟨1, 4096, fun t => t.val⟩ 1 :=
    ⟨_, rfl, rfl, fun t => by fin_cases t <;> exact id, ⟨1, 1, .futex, 4096, noTimeout⟩, by decide, rfl⟩
  obtain ⟨s, hs, hlocked, hdone, hasleep⟩ := hrun
  exact hclaim (Fin 3) _ s (reach_of_execute hs) hlocked hdone 1 hasleep

end Toddler
