import Toddler.Spec.FutexWait
import Mathlib.Tactic

/-! With a positive `spin`, the first round of the loop in `futex_wait` sets `f_new`, and a later
round that uses an old `f_new` finds the word locked as it was then: a mutex is locked by 1 only. -/

namespace Toddler

open UserRwlock (FutexWaitPc)

variable {ι : Type} {c : FutexConfig ι} {tid : ℕ} {spin : ℤ}

/-- What the waiter knows of `f_old` and `f_new`; a round has set `f_new` if it is not the first. -/
def FutexWaitCall.Sound : FutexWaitCall → Prop
  | .inside (.load numSpins fNew) => numSpins ≠ 0 → fNew.locked = 1
  | .inside (.cas _ fOld fNew) => fOld.locked = 1 ∧ fNew.locked = 1
  | .inside (.wait _) | .inside (.waiting _) => True
  | .returned fOld => fOld.locked = 0

structure WaitInv (s : FutexWaiting ι) : Prop where
  locked : s.others.futex.locked ≤ 1
  waiter : s.waiter.Sound

theorem futexWait_spec {s t : FutexState ι} {pc : FutexWaitPc} {r : FutexWaitCall}
    (hspin : 0 < spin) (hlocked : s.futex.locked ≤ 1) (hpc : (FutexWaitCall.inside pc).Sound)
    (h : futexWait c tid spin s pc = some (t, r)) : t.futex.locked = s.futex.locked ∧ r.Sound := by
  cases pc with
  | load numSpins fNew =>
    simp only [futexWait, if_neg hspin.not_gt] at h
    split_ifs at h with hzero hover
    · cases h
      exact ⟨rfl, hzero⟩
    · cases h
      exact ⟨rfl, show s.futex.locked = 1 by omega, hpc (by omega)⟩
    · cases h
      exact ⟨rfl, show s.futex.locked = 1 by omega, show s.futex.locked = 1 by omega⟩
  | cas numSpins fOld fNew =>
    simp only [futexWait] at h
    split_ifs at h with heq hkernel
    · cases h
      exact ⟨by rw [heq, hpc.1, hpc.2], trivial⟩
    · cases h
      exact ⟨by rw [heq, hpc.1, hpc.2], fun hne => absurd rfl hne⟩
    · cases h
      exact ⟨rfl, fun _ => hpc.2⟩
  | wait fNew =>
    simp only [futexWait] at h
    split at h
    · cases h
      exact ⟨rfl, trivial⟩
    · cases h
      exact ⟨rfl, fun hne => absurd rfl hne⟩
  | waiting fNew =>
    simp only [futexWait] at h
    split_ifs at h
    cases h
    exact ⟨rfl, fun hne => absurd rfl hne⟩

theorem lockNew_locked {numSpins : ℕ} {f : Futex} (h : f.locked ≤ 1) :
    (lockNew spin numSpins f).locked ≤ 1 := by
  unfold lockNew
  split_ifs
  · exact h
  · exact h
  · exact le_rfl

variable [DecidableEq ι]

theorem FutexState.futex_setThread (s : FutexState ι) (i : ι) (pc : FutexPc) :
    (s.setThread i pc).futex = s.futex := rfl

/-- The other threads write 0 or 1 to `locked`, or what they have found there. -/
theorem futexStep_locked {s t : FutexState ι} {a : FutexAction ι} (h : s.futex.locked ≤ 1)
    (hs : futexStep c s a = some t) : t.futex.locked ≤ 1 := by
  cases a with
  | step i =>
    simp only [futexStep] at hs
    split at hs
    · simp at hs
    · rename_i pc _
      cases pc <;> simp only [lockStep] at hs <;> grind [FutexState.futex_setThread, lockNew_locked]
    · rename_i pc _
      cases pc <;> simp only [trylockStep] at hs <;> grind [FutexState.futex_setThread]
    · rename_i pc _
      cases pc <;> simp only [unlockStep] at hs <;> grind [FutexState.futex_setThread]
  | lock | trylock | unlock =>
    simp only [futexStep] at hs
    split_ifs at hs
    cases hs
    exact h

theorem WaitInv.step {s t : FutexWaiting ι} {a : Option (FutexAction ι)} (h : WaitInv s)
    (hspin : 0 < spin) (hs : futexWaitingStep c tid spin s a = some t) : WaitInv t := by
  cases a with
  | some a =>
    obtain ⟨others, hothers, rfl⟩ := Option.map_eq_some_iff.mp hs
    exact ⟨futexStep_locked h.locked hothers, h.waiter⟩
  | none =>
    obtain ⟨others, waiter⟩ := s
    cases waiter with
    | inside pc =>
      obtain ⟨⟨others', r⟩, hwait, rfl⟩ := Option.map_eq_some_iff.mp hs
      obtain ⟨hlocked, hsound⟩ := futexWait_spec hspin h.locked h.waiter hwait
      exact ⟨hlocked.trans_le h.locked, hsound⟩
    | returned => cases hs

/-- `futex_wait` leaves `locked` alone and returns when it has read 0, if it may spin and the mutex
is 0 or 1. -/
theorem futex_wait_only_waits {s : FutexWaiting ι} {f junk : Futex} (hspin : 0 < spin)
    (hf : f.locked ≤ 1) (hreach : Reach (futexWaitingStep c tid spin) anyStep ⟨⟨f, [],
    fun _ => .idle⟩, .inside (.load 0 junk)⟩ s) :
    OnlyWaits c tid spin s := by
  have h0 : WaitInv (⟨⟨f, [], fun _ => .idle⟩, .inside (.load 0 junk)⟩ : FutexWaiting ι) :=
    ⟨hf, fun hne => absurd rfl hne⟩
  have h : WaitInv s := hreach.invariant h0 fun _ _ _ hu _ hs => hu.step hspin hs
  refine ⟨fun s' hs => ?_, fun fOld hret => ?_⟩
  · obtain ⟨others, waiter⟩ := s
    cases waiter with
    | inside pc =>
      obtain ⟨⟨others', r⟩, hwait, rfl⟩ := Option.map_eq_some_iff.mp hs
      exact (futexWait_spec hspin h.locked h.waiter hwait).1
    | returned => cases hs
  · have := h.waiter
    rwa [hret] at this

def oneOther : FutexConfig Unit := ⟨1, 0x1000, fun _ => 7⟩

/-- The waiter sleeps until another thread unlocks and wakes it. -/
theorem futex_wait_only_waits_woken : ∃ s :
    FutexWaiting Unit, Reach (futexWaitingStep oneOther 8 3) anyStep
      ⟨⟨⟨false, 1⟩, [], fun _ => .idle⟩, .inside (.load 0 ⟨false, 0⟩)⟩ s ∧
      s.waiter = .returned ⟨false, 0⟩ ∧ OnlyWaits oneOther 8 3 s := by
  refine exists_reach_of (P := fun s => s.waiter = .returned ⟨false, 0⟩) [none, none, none,
    some (.unlock ()),
    some (.step ()), some (.step ()), some (.step ()), some (.step ()), some (.step ()), none, none]
    (by decide +kernel) fun s hs h => ?_
  exact ⟨h, futex_wait_only_waits (by norm_num) le_rfl hs⟩

/-- With `spin = 0` no round sets `f_new`, and the CAS writes what the variable held. -/
theorem futex_wait_writes_junk : ∃ s :
    FutexWaiting Unit, Reach (futexWaitingStep oneOther 8 0) anyStep
      ⟨⟨⟨false, 1⟩, [], fun _ => .idle⟩, .inside (.load 0 ⟨false, 0⟩)⟩ s ∧
      ¬ OnlyWaits oneOther 8 0 s := by
  refine exists_reach_of (P := fun s => s.others.futex.locked = 1 ∧
    (s.wait oneOther 8 0).map (fun t => t.others.futex.locked) = some 0) [none] (by decide +kernel)
    fun s _ hP h => ?_
  obtain ⟨t, ht, hafter⟩ := Option.map_eq_some_iff.mp hP.2
  have := h.locked t ht
  rw [hP.1, hafter] at this
  cases this

end Toddler
