import Toddler.Lib.Tally
import Toddler.Spec.UserRwlock
import Mathlib.Tactic

/-! Safety of the user readers-writer lock when `rwlock_wtrylock` is not called. Which futexes a
thread holds follows from its place. `wr_futex` has at most one holder; only it may hold
`wait_futex` or set the lowest bit of `rd_futex`, whose `locked` counts two for each reader. -/

namespace Toddler.UserRwlock

open Function FutexState State Option

variable {ι : Type} {c : Config ι} {s s' u : State ι} {t : ι} {pc₀ pc : Pc}

def Pc.held : Pc → Held
  | .reading | .runlock .load | .runlock (.cas _) => ⟨true, false, false⟩
  | .wlock (.futexTrylock _) => ⟨false, true, false⟩
  | .wlock .markLoad | .wlock (.markCas _) => ⟨false, true, true⟩
  | .wlock (.waitLoad _) | .wlock (.waitCas _ _) | .wlock .wait | .wlock .waiting =>
    ⟨true, true, true⟩
  | .writing | .wunlock .load | .wunlock (.cas _) => ⟨true, true, true⟩
  | .wunlock (.unlockWait .load) | .wunlock (.unlockWait (.cas _)) => ⟨false, true, true⟩
  | .wunlock (.unlockWait _) | .wunlock (.unlockWr .load) | .wunlock (.unlockWr (.cas _)) =>
    ⟨false, true, false⟩
  | _ => .none

def Held.rdWeight (h : Held) : ℕ := if h.rd then (if h.wr then 1 else 2) else 0

/-- What a thread adds to `locked` of `rd_futex`. -/
def rdWeight (pc : Pc) : ℕ := pc.held.rdWeight

/-- What a thread knows about the value it has loaded; `wait` is `wait_futex`. -/
def Pc.Seen (wait : Futex) : Pc → Prop
  | .rlock (.cas fOld) | .rtrylock (.cas fOld) | .wlock (.markCas fOld) => fOld.locked % 2 = 0
  | .rlock (.futexWait (.cas _ fOld _)) => fOld.locked ≠ 0
  | .runlock (.cas fOld) => 2 ≤ fOld.locked
  | .runlock (.clearCas fOld) => fOld.kernel = true
  | .wlock (.futexTrylock (.cas fOld)) => wait = fOld
  | .wunlock (.cas fOld) => fOld = ⟨false, 1⟩
  | .wtrylock _ | .panicked => False
  | _ => True

variable [Fintype ι]

structure Inv (s : State ι) : Prop where
  held : ∀ t, s.held t = (s.thread t).held
  wrOne : ∀ t u, (s.thread t).held.wr = true → (s.thread u).held.wr = true → t = u
  wrLocked : ∀ t, (s.thread t).held.wr = true → s.wr.locked ≠ 0
  rd : s.rd.locked = tally rdWeight s.thread
  room : s.rd.locked < 2 ^ 63
  writes : ∀ t, (s.thread t).Writes → s.rd = ⟨false, 1⟩
  wait : s.wait.locked ≠ 0 → ∃ t, (s.thread t).held.wait = true
  seen : ∀ t, (s.thread t).Seen s.wait

theorem inv_init : Inv (State.init : State ι) := by
  constructor <;> simp [State.init, Futex.zero, Pc.held, Held.none, Pc.Writes, Pc.Seen]
  exact (tally_eq_zero.mpr fun _ => rfl).symm

theorem Pc.Writes.held (h : pc.Writes) : pc.held = ⟨true, true, true⟩ := by
  cases pc with
  | writing => rfl
  | wunlock pc => cases pc <;> simp_all [Pc.Writes, Pc.held]
  | _ => cases h

theorem Pc.Reads.held (h : pc.Reads) : pc.held = ⟨true, false, false⟩ := by
  cases pc with
  | reading => rfl
  | runlock pc => cases pc <;> simp_all [Pc.Reads, Pc.held]
  | _ => cases h

theorem Pc.held_wr_of_wait (h : pc.held.wait = true) : pc.held.wr = true := by
  unfold Pc.held at h ⊢
  split at h <;> simp_all [Held.none]

/-- Only the CAS of `futex_trylock` in `rwlock_wlock` depends on `wait_futex`. -/
theorem Pc.Seen.of_ne {wait wait' : Futex} (h : pc.Seen wait)
    (hne : ∀ fOld, pc ≠ .wlock (.futexTrylock (.cas fOld))) : pc.Seen wait' := by
  unfold Pc.Seen at h ⊢
  split at h <;> simp_all

theorem Inv.safe (h : Inv s) : LockSafe s where
  noReader t u ht hu := by
    have hle := le_tally rdWeight s.thread u
    have hw : rdWeight (s.thread u) = 2 := by rw [rdWeight, hu.held]; rfl
    have hone : s.rd.locked = 1 := by rw [h.writes t ht]
    have := h.rd
    omega
  oneWriter t u ht hu := h.wrOne t u (by rw [ht.held]) (by rw [hu.held])
  noPanic t ht := by
    have := h.seen t
    rwa [ht] at this
  failedHoldsNone t ht := by
    rw [h.held t, ht]
    rfl

variable {v : ι}

section

variable (h : Inv s) (ht : s.thread t = pc₀) (hwr : pc₀.held.wr = true) (hv : v ≠ t)
include h ht hwr hv

/-- A thread that holds `wr_futex` is the only one to hold it. -/
theorem Inv.others_wr : (s.thread v).held.wr = false := by
  by_contra hne
  exact hv (h.wrOne v t (by simpa using hne) (by rw [ht, hwr]))

theorem Inv.others_write : ¬ (s.thread v).Writes :=
  fun hw => by simpa [hw.held] using h.others_wr ht hwr hv

/-- The other threads are not in `futex_trylock` of `rwlock_wlock`. -/
theorem Inv.others_trylock (fOld : Futex) : s.thread v ≠ .wlock (.futexTrylock (.cas fOld)) :=
  fun hv' => by
  simpa [hv', Pc.held] using h.others_wr ht hwr hv

end

/-- A value of `rd_futex` without the writer's bit was not loaded while there is a writer. -/
theorem Inv.no_writer_of_even (h : Inv s) (heven : s.rd.locked % 2 = 0) (v : ι) :
    ¬ (s.thread v).Writes := by
  intro hv
  rw [h.writes v hv] at heven
  simp at heven

theorem Inv.two_of_reader (h : Inv s) (ht : s.thread t = pc₀)
    (hread : pc₀.held = ⟨true, false, false⟩) : 2 ≤ s.rd.locked := by
  have hle := le_tally rdWeight s.thread t
  rw [show rdWeight (s.thread t) = 2 by rw [rdWeight, ht, hread]; rfl] at hle
  rw [h.rd]
  exact hle

/-- Who holds `wait_futex` is the thread that holds `wr_futex`. -/
theorem Inv.wait_held (h : Inv s) (ht : s.thread t = pc₀) (hwr : pc₀.held.wr = true)
    (hlocked : s.wait.locked ≠ 0) : pc₀.held.wait = true := by
  obtain ⟨v, hv⟩ := h.wait hlocked
  obtain rfl := h.wrOne v t (Pc.held_wr_of_wait hv) (by rw [ht, hwr])
  rwa [ht] at hv

/-- A thread that holds `wr_futex` and has not set the writer's bit finds it clear. -/
theorem Inv.unmarked (h : Inv s) (ht : s.thread t = pc₀) (hwr : pc₀.held.wr = true)
    (hrd : pc₀.held.rd = false) : s.rd.locked % 2 = 0 := by
  have hdvd : 2 ∣ tally rdWeight s.thread := by
    refine dvd_tally fun v => ?_
    by_cases hv : v = t
    · simp [hv, rdWeight, Held.rdWeight, ht, hrd]
    · have := h.others_wr ht hwr hv
      by_cases hr : (s.thread v).held.rd = true <;> simp [rdWeight, Held.rdWeight, this, hr]
  rw [h.rd]
  omega

section

variable (s s' : State ι) (t : ι) (pc : Pc)

/-- What has to be checked of `wr_futex` when thread `t` moves to `pc`. -/
structure MoveWr : Prop where
  one : pc.held.wr = true → ∀ u, u ≠ t → (s.thread u).held.wr = false
  others : ∀ u, u ≠ t → (s.thread u).held.wr = true → s'.wr.locked ≠ 0
  locked : pc.held.wr = true → s'.wr.locked ≠ 0

structure MoveRd : Prop where
  weight : s'.rd.locked + rdWeight (s.thread t) = s.rd.locked + rdWeight pc
  room : s'.rd.locked < 2 ^ 63
  others : ∀ u, u ≠ t → (s.thread u).Writes → s'.rd = ⟨false, 1⟩
  writes : pc.Writes → s'.rd = ⟨false, 1⟩

structure MoveWait : Prop where
  holder : s'.wait.locked ≠ 0 → pc.held.wait = true ∨ ∃ u, u ≠ t ∧ (s.thread u).held.wait = true
  others : ∀ u, u ≠ t → (s.thread u).Seen s'.wait
  seen : pc.Seen s'.wait

end

section

variable (h : Inv s)
include h

theorem Inv.wr_kept (hpc₀ : s.thread t = pc₀) (hwr : s'.wr.locked = s.wr.locked)
    (hpc : pc.held.wr = pc₀.held.wr) : MoveWr s s' t pc where
  one h0 u hu := h.others_wr hpc₀ (hpc ▸ h0) hu
  others u _ hu := hwr ▸ h.wrLocked u hu
  locked h0 := hwr ▸ h.wrLocked t (by rwa [hpc₀, ← hpc])

theorem Inv.rd_kept (hpc₀ : s.thread t = pc₀) (hrd : s'.rd = s.rd)
    (hpc : rdWeight pc = rdWeight pc₀) (hw : pc.Writes → pc₀.Writes) : MoveRd s s' t pc where
  weight := by rw [hrd, hpc₀, hpc]
  room := hrd ▸ h.room
  others u _ hu := hrd ▸ h.writes u hu
  writes h0 := hrd ▸ h.writes t (hpc₀ ▸ hw h0)

/-- A holder of `wait_futex` is one after the move as well. -/
theorem Inv.wait_kept (hpc₀ : s.thread t = pc₀) (hwait : s'.wait = s.wait)
    (hpc : pc.held.wait = pc₀.held.wait) (hseen : pc.Seen s.wait) : MoveWait s s' t pc where
  holder hlocked := by
    obtain ⟨v, hv⟩ := h.wait (hwait ▸ hlocked)
    by_cases hvt : v = t
    · exact .inl (by rw [hpc, ← hpc₀, ← hvt, hv])
    · exact .inr ⟨v, hvt, hv⟩
  others u _ := hwait ▸ h.seen u
  seen := hwait ▸ hseen

end

variable [DecidableEq ι]

section

variable (h : Inv s)
include h

theorem Inv.move (ht : s'.thread = update s.thread t pc) (hh : s'.held = update s.held t pc.held)
    (mwr : MoveWr s s' t pc) (mrd : MoveRd s s' t pc) (mwait : MoveWait s s' t pc) : Inv s' := by
  have hother : ∀ u, u ≠ t → s'.thread u = s.thread u := fun u hu => by rw [ht, update_of_ne hu]
  have hself : s'.thread t = pc := by rw [ht, update_self]
  -- what holds of the moving thread and of the others, holds of all
  have hall : ∀ {P : ι → Pc → Prop}, P t pc → (∀ u, u ≠ t → P u (s.thread u)) →
      ∀ u, P u (s'.thread u) := by
    intro P hpc hrest u
    by_cases hu : u = t
    · rw [hu, hself]
      exact hpc
    · rw [hother u hu]
      exact hrest u hu
  constructor
  · refine hall (P := fun u pc => s'.held u = pc.held) (by rw [hh, update_self]) fun u hu => ?_
    rw [hh, update_of_ne hu]
    exact h.held u
  · intro u v hu hv
    by_cases hut : u = t
    · by_cases hvt : v = t
      · exact hut.trans hvt.symm
      · rw [hother v hvt] at hv
        rw [hut, hself] at hu
        exact absurd hv (by simp [mwr.one hu v hvt])
    · by_cases hvt : v = t
      · rw [hother u hut] at hu
        rw [hvt, hself] at hv
        exact absurd hu (by simp [mwr.one hv u hut])
      · rw [hother u hut] at hu
        rw [hother v hvt] at hv
        exact h.wrOne u v hu hv
  · exact hall (P := fun _ pc => pc.held.wr = true → s'.wr.locked ≠ 0) mwr.locked mwr.others
  · have := tally_update rdWeight s.thread t pc
    have h1 := h.rd
    have h2 := mrd.weight
    rw [ht]
    omega
  · exact mrd.room
  · exact hall (P := fun _ pc => pc.Writes → s'.rd = ⟨false, 1⟩) mrd.writes mrd.others
  · intro hw
    rcases mwait.holder hw with hpc | ⟨u, hut, hu⟩
    · exact ⟨t, by rwa [hself]⟩
    · exact ⟨u, by rwa [hother u hut]⟩
  · exact hall mwait.seen mwait.others

theorem Inv.held_eq (ht : s.thread t = pc₀) (hpc : pc.held = pc₀.held) :
    s.held = update s.held t pc.held := by
  rw [hpc, ← ht, ← h.held t, update_eq_self]

/-- What a thread holds after it has acquired a futex or given it up. -/
theorem Inv.hold_eq (ht : s.thread t = pc₀) (hh : s'.held = s.held) {f : Held → Held}
    (hpc : f pc₀.held = pc.held) : (s'.hold t f).held = update s.held t pc.held := by
  simp only [hold, hh, h.held t, ht, hpc]

/-- A thread moves without a change of what is locked and of what it holds. -/
theorem Inv.stay (hpc₀ : s.thread t = pc₀) (ht : s'.thread = update s.thread t pc)
    (hh : s'.held = s.held) (hrd : s'.rd = s.rd) (hwr : s'.wr.locked = s.wr.locked)
    (hwait : s'.wait = s.wait)
    (hpc : pc.held = pc₀.held) (hw : pc.Writes → pc₀.Writes) (hseen : pc.Seen s.wait) : Inv s' := by
  exact h.move ht (hh ▸ h.held_eq hpc₀ hpc) (h.wr_kept hpc₀ hwr (by rw [hpc]))
    (h.rd_kept hpc₀ hrd (by rw [rdWeight, rdWeight, hpc]) hw)
    (h.wait_kept hpc₀ hwait (by rw [hpc]) hseen)

theorem Inv.goto (ht : s.thread t = pc₀) (hpc : pc.held = pc₀.held) (hw : pc.Writes → pc₀.Writes)
    (hseen : pc.Seen s.wait) : Inv (s.goto t pc) :=
  h.stay ht rfl rfl rfl rfl rfl hpc hw hseen

section

variable (hpc₀ : s.thread t = pc₀) (ht : s'.thread = update s.thread t pc)
  (hh : s'.held = update s.held t pc.held)
include hpc₀ ht hh

/-- Thread `t` replaces `rd_futex` while no other thread has the lock as a writer. -/
theorem Inv.setRd (hwr : s'.wr = s.wr) (hwait : s'.wait = s.wait)
    (hpc : pc.held.wr = pc₀.held.wr) (hpc' : pc.held.wait = pc₀.held.wait)
    (hrd : s'.rd.locked + rdWeight pc₀ = s.rd.locked + rdWeight pc) (hroom : s'.rd.locked < 2 ^ 63)
    (hothers : ∀ u, u ≠ t → ¬ (s.thread u).Writes) (hwrites : pc.Writes → s'.rd = ⟨false, 1⟩)
    (hseen : pc.Seen s.wait) : Inv s' := by
  exact h.move ht hh (h.wr_kept hpc₀ (by rw [hwr]) hpc)
    ⟨hpc₀ ▸ hrd, hroom, fun u hu hw => absurd hw (hothers u hu),
    hwrites⟩ (h.wait_kept hpc₀ hwait hpc' hseen)

/-- Thread `t` replaces `wait_futex`, which no other thread is about to take. -/
theorem Inv.setWait (hrd : s'.rd = s.rd) (hwr : s'.wr = s.wr)
    (hpc : pc.held.wr = pc₀.held.wr) (hpc' : pc.held.rd = pc₀.held.rd) (hw : pc.Writes → pc₀.Writes)
    (hwait : s'.wait.locked ≠ 0 → pc.held.wait = true ∨ ∃ u, u ≠ t ∧ (s.thread u).held.wait = true)
    (hothers : ∀ u, u ≠ t → ∀ fOld, s.thread u ≠ .wlock (.futexTrylock (.cas fOld)))
      (hseen : pc.Seen s'.wait) :
    Inv s' := by
  exact h.move ht hh (h.wr_kept hpc₀ (by rw [hwr]) hpc)
    (h.rd_kept hpc₀ hrd (by rw [rdWeight, rdWeight, Held.rdWeight, Held.rdWeight, hpc, hpc']) hw)
    ⟨hwait, fun u hu => (h.seen u).of_ne (hothers u hu), hseen⟩

theorem Inv.setWr (hrd : s'.rd = s.rd) (hwait : s'.wait = s.wait)
    (hwt : pc₀.held.rd = false ∧ pc₀.held.wait = false)
    (hpc : pc.held.rd = false ∧ pc.held.wait = false)
    (hnone : ∀ u, u ≠ t → (s.thread u).held.wr = false)
    (hlocked : pc.held.wr = true → s'.wr.locked ≠ 0) (hseen : pc.Seen s.wait) : Inv s' := by
  refine h.move ht hh ⟨fun _ => hnone, fun u hu h0 => ?_, hlocked⟩
    (h.rd_kept hpc₀ hrd (by simp [rdWeight, Held.rdWeight, hwt.1, hpc.1]) fun h0 => ?_)
    (h.wait_kept hpc₀ hwait (hpc.2.trans hwt.2.symm) hseen)
  · simp [hnone u hu] at h0
  · simp [h0.held] at hpc

end

theorem Inv.waitOnFutex {f : Futex} {ptr waitValue : ℕ} {asleep awake : Pc} (ht : s.thread t = pc₀)
    (hasleep : asleep.held = pc₀.held ∧ ¬ asleep.Writes ∧ asleep.Seen s.wait)
    (hawake : awake.held = pc₀.held ∧ ¬ awake.Writes ∧ awake.Seen s.wait) :
    Inv (waitOnFutex c s t f ptr waitValue asleep awake) := by
  unfold UserRwlock.waitOnFutex
  split
  · exact h.stay ht rfl rfl rfl rfl rfl hasleep.1 (fun hw => absurd hw hasleep.2.1) hasleep.2.2
  · exact h.goto ht hawake.1 (fun hw => absurd hw hawake.2.1) hawake.2.2

theorem Inv.enter {fOld : Futex} (ht : s.thread t = pc₀) (hnone : pc₀.held = .none)
    (hcas : s.rd = fOld) (heven : fOld.locked % 2 = 0) (hroom : fOld.locked + 2 < 2 ^ 63) :
    Inv (({ s with rd := { fOld with locked := (fOld.locked + 2) % 2 ^ 63 } }.goto t .reading).hold
    t
      fun h => { h with rd := true }) := by
  subst hcas
  refine h.setRd ht rfl (h.hold_eq ht (by rfl) (by rw [hnone]; rfl)) rfl rfl (by rw [hnone]; rfl)
    (by rw [hnone]; rfl) ?_ (Nat.mod_lt _ (by norm_num)) (fun v _ => h.no_writer_of_even heven v)
    (by simp [Pc.Writes]) trivial
  rw [rdWeight, hnone]
  exact Nat.mod_eq_of_lt hroom

theorem inv_futexWait {pc : FutexWaitPc} (hpc : s.thread t = .rlock (.futexWait pc))
    (hs : futexWaitStep c s t pc = some u) : Inv u := by
  cases pc with
  | load n fNew =>
    simp only [futexWaitStep] at hs
    split_ifs at hs with h0 h1 h2
    · cases hs; exact h.goto hpc rfl False.elim trivial
    all_goals cases hs; exact h.goto hpc rfl False.elim h0
  | cas n fOld fNew =>
    by_cases he : s.wait = fOld
    · simp only [futexWaitStep, if_pos he, some.injEq] at hs
      subst hs
      -- the word was locked, so its holder is past `futex_trylock`
      have hlocked : s.wait.locked ≠ 0 := by
        have := h.seen t
        rw [hpc] at this
        rw [he]
        exact this
      obtain ⟨v, hv⟩ := h.wait hlocked
      have hvt : v ≠ t := by
        rintro rfl
        simp [hpc, Pc.held, Held.none] at hv
      refine h.setWait hpc rfl (h.held_eq hpc rfl) rfl rfl rfl rfl False.elim (fun _ => .inr ⟨v, hvt, hv⟩)
        (fun w _ fOld' hw => ?_) ?_
      · have hwv : w = v := h.wrOne w v (by rw [hw]; rfl) (Pc.held_wr_of_wait hv)
        rw [← hwv, hw] at hv
        cases hv
      · split_ifs <;> trivial
    · simp only [futexWaitStep, if_neg he, some.injEq] at hs
      subst hs
      exact h.goto hpc rfl False.elim trivial
  | wait fNew =>
    cases hs
    exact h.waitOnFutex hpc ⟨rfl, id, trivial⟩ ⟨rfl, id, trivial⟩
  | waiting fNew =>
    simp only [futexWaitStep] at hs
    split_ifs at hs
    cases hs
    exact h.goto hpc rfl False.elim trivial

theorem inv_rlock {junk : Futex} {pc : RlockPc} (hpc : s.thread t = .rlock pc)
    (hok : NoWtrylock s (.step t junk)) (hs : rlockStep c s t junk pc = some u) : Inv u := by
  have hseen := h.seen t
  rw [hpc] at hseen
  simp only [NoWtrylock, hpc] at hok
  cases pc with
  | futexWait pc => exact inv_futexWait h hpc hs
  | load =>
    simp only [rlockStep] at hs
    split_ifs at hs with h0
    · cases hs
      exact h.goto hpc rfl False.elim trivial
    · cases hs
      exact h.goto hpc rfl False.elim (by simp only [Pc.Seen]; omega)
  | cas fOld =>
    simp only [rlockStep] at hs
    split_ifs at hs with he
    · cases hs
      exact h.enter hpc rfl he hseen hok
    · cases hs
      exact h.goto hpc rfl False.elim trivial

theorem inv_rtrylock {junk : Futex} {pc : RtrylockPc} (hpc : s.thread t = .rtrylock pc)
    (hok : NoWtrylock s (.step t junk)) : Inv (rtrylockStep s t pc) := by
  have hseen := h.seen t
  rw [hpc] at hseen
  simp only [NoWtrylock, hpc] at hok
  cases pc with
  | load =>
    simp only [rtrylockStep]
    split_ifs with h0
    · exact h.goto hpc rfl False.elim trivial
    · exact h.goto hpc rfl False.elim (by simp only [Pc.Seen]; omega)
  | cas fOld =>
    simp only [rtrylockStep]
    split_ifs with he
    · exact h.enter hpc rfl he hseen hok
    · exact h.goto hpc rfl False.elim trivial

theorem inv_runlock {pc : RunlockPc} (hpc : s.thread t = .runlock pc) :
    Inv (runlockStep c s t pc) := by
  have hseen := h.seen t
  rw [hpc] at hseen
  cases pc with
  | load =>
    have htwo := h.two_of_reader hpc rfl
    simp only [runlockStep, if_neg (show ¬ s.rd.locked ≤ 1 by omega)]
    exact h.goto hpc rfl False.elim htwo
  | cas fOld =>
    by_cases he : s.rd = fOld
    · subst he
      have htwo := h.two_of_reader hpc rfl
      have hroom := h.room
      -- the reader leaves
      have hnext : ∀ p : Prop, ∀ [Decidable p], (if p then Pc.runlock .clearLoad
        else .idle).held = .none ∧
          ¬ (if p then Pc.runlock .clearLoad else .idle).Writes ∧
          (if p then Pc.runlock .clearLoad else .idle).Seen s.wait := by
        intro p _
        split_ifs <;> exact ⟨rfl, id, trivial⟩
      obtain ⟨hheld, hwrites, hseen'⟩ := hnext (s.rd.locked - 2 = 1)
      simp only [runlockStep, if_true]
      refine h.setRd hpc rfl (h.hold_eq hpc (by rfl) (by rw [hheld]; rfl)) rfl rfl (by rw [hheld]; rfl)
        (by rw [hheld]; rfl) ?_ ?_ (fun v _ hv => ?_) (fun hw => absurd hw hwrites) hseen'
      · rw [rdWeight, rdWeight, hheld]
        exact Nat.sub_add_cancel htwo
      · exact (Nat.sub_le ..).trans_lt hroom
      · rw [h.writes v hv] at htwo
        simp at htwo
    · simp only [runlockStep, if_neg he]
      exact h.goto hpc rfl False.elim trivial
  | clearLoad =>
    simp only [runlockStep]
    split_ifs with hk
    · exact h.goto hpc rfl False.elim hk
    · exact h.goto hpc rfl False.elim trivial
  | clearCas fOld =>
    simp only [runlockStep]
    split_ifs with he
    · subst he
      -- a writer has cleared the flag
      have hothers : ∀ v, v ≠ t → ¬ (s.thread v).Writes := fun v _ hv => by
        have hk : s.rd.kernel = true := hseen
        simp [h.writes v hv] at hk
      exact h.setRd hpc rfl (h.held_eq hpc rfl) rfl rfl rfl rfl rfl h.room hothers False.elim trivial
    · exact h.goto hpc rfl False.elim trivial
  | wake => exact h.stay hpc rfl rfl rfl rfl rfl rfl False.elim trivial

end

omit [Fintype ι] in
/-- `futex_lock` goes on with the word as locked as before, or returns with the lock taken. -/
theorem futexLock_cases {c : FutexConfig ι} {f f' : Futex} {q q' : List Waiter} {t : ι}
    {pc : LockPc} {next : Option LockPc} (h : futexLock c f q t pc = some (f', q', next)) :
    (f'.locked = f.locked ∧ ∃ pc', next = some pc') ∨
    (f.locked = 0 ∧ f'.locked = 1 ∧ next = none) := by
  obtain ⟨u, hu, heq⟩ := map_eq_some_iff.mp h
  obtain ⟨rfl, hrest⟩ := Prod.mk.inj heq
  obtain ⟨-, rfl⟩ := Prod.mk.inj hrest
  have hgo : ∀ (v : FutexState ι) pc', ∃ pc'', ((v.setThread t (.lock pc')).thread t).locking =
      some pc'' :=
    fun v pc' => ⟨pc', by simp [setThread, FutexPc.locking]⟩
  cases pc with
  | load spin n =>
    cases hu
    exact .inl ⟨rfl, hgo _ _⟩
  | cas spin n fOld =>
    by_cases he : f = fOld
    · simp only [lockStep, if_pos he, some.injEq] at hu
      subst hu
      by_cases hl : fOld.locked = 0
      · exact .inr ⟨he ▸ hl, by simp [setThread, lockNew, hl], by simp [setThread, FutexPc.locking, hl]⟩
      · refine .inl ⟨?_, ?_⟩
        · simp only [lockNew, he]
          split_ifs <;> rfl
        · simp only [setThread, update_self]
          split_ifs <;> exact ⟨_, rfl⟩
    · simp only [lockStep, if_neg he, some.injEq] at hu
      subst hu
      exact .inl ⟨rfl, hgo _ _⟩
  | wait spin =>
    simp only [lockStep] at hu
    split at hu <;> cases hu <;> exact .inl ⟨rfl, hgo _ _⟩
  | waiting spin =>
    simp only [lockStep] at hu
    split_ifs at hu
    cases hu
    exact .inl ⟨rfl, hgo _ _⟩

theorem inv_futexLock {pc : LockPc} (h : Inv s) (hpc : s.thread t = .wlock (.futexLock pc))
    (hs : wlockStep c s t (.futexLock pc) = some u) : Inv u := by
  simp only [wlockStep, bind_eq_bind, bind_eq_some_iff] at hs
  obtain ⟨⟨wr, queue, next⟩, hlock, hs⟩ := hs
  rcases futexLock_cases hlock with ⟨hl, pc', rfl⟩ | ⟨hfree, hl, rfl⟩
  · cases hs
    exact h.stay hpc rfl rfl rfl hl rfl rfl False.elim trivial
  · cases hs
    have hothers : ∀ v, v ≠ t → (s.thread v).held.wr = false := by
      intro v _
      by_contra hne
      exact h.wrLocked v (by simpa using hne) hfree
    refine h.setWr hpc rfl (h.hold_eq hpc (by rfl) (by rfl)) rfl rfl ⟨rfl, rfl⟩ ⟨rfl,
      rfl⟩ hothers (fun _ => ?_) trivial
    simp [goto, hold, hl]

theorem inv_wlockTrylock {pc : TrylockPc} (h : Inv s) (hpc : s.thread t = .wlock (.futexTrylock pc))
    (hs : wlockStep c s t (.futexTrylock pc) = some u) : Inv u := by
  have hfree : s.wait.locked = 0 := by
    by_contra hne
    cases h.wait_held hpc rfl hne
  cases pc with
  | load =>
    simp only [wlockStep, futexTrylock, trylockStep, hfree, ne_eq, not_true_eq_false, if_false,
      setThread, update_self, some.injEq] at hs
    subst hs
    exact h.stay hpc rfl rfl rfl rfl rfl rfl False.elim rfl
  | cas fOld =>
    have he := h.seen t
    rw [hpc] at he
    replace he : s.wait = fOld := he
    simp only [wlockStep, futexTrylock, futexTrylockErr, trylockStep, if_pos he, setThread,
      update_self, ne_eq, not_true_eq_false, if_false, some.injEq] at hs
    subst hs
    exact h.setWait hpc rfl (h.hold_eq hpc (by rfl) (by rfl)) rfl rfl rfl rfl False.elim (fun _ =>
      .inl rfl)
      (fun v hv => h.others_trylock hpc rfl hv) trivial

theorem inv_wlock {pc : WlockPc} (h : Inv s) (hpc : s.thread t = .wlock pc)
    (hs : wlockStep c s t pc = some u) : Inv u := by
  have hseen := h.seen t
  rw [hpc] at hseen
  have hroom := h.room
  cases pc with
  | futexLock pc => exact inv_futexLock h hpc hs
  | futexTrylock pc => exact inv_wlockTrylock h hpc hs
  | markLoad =>
    have heven := h.unmarked hpc rfl rfl
    simp only [wlockStep, if_neg (show ¬ s.rd.locked % 2 = 1 by omega), some.injEq] at hs
    subst hs
    exact h.goto hpc rfl False.elim heven
  | markCas fOld =>
    by_cases he : s.rd = fOld
    · subst he
      simp only [wlockStep, if_true, some.injEq] at hs
      subst hs
      have heven : s.rd.locked % 2 = 0 := hseen
      refine h.setRd hpc rfl (h.hold_eq hpc (by rfl) (by rfl)) rfl rfl rfl rfl ?_
        (Nat.mod_lt _ (by norm_num)) (fun v hv => h.others_write hpc rfl hv) False.elim trivial
      exact Nat.mod_eq_of_lt (show s.rd.locked + 1 < 2 ^ 63 by omega)
    · simp only [wlockStep, if_neg he, some.injEq] at hs
      subst hs
      exact h.goto hpc rfl False.elim trivial
  | waitLoad n =>
    cases hs
    exact h.goto hpc rfl False.elim trivial
  | waitCas n fOld =>
    have hothers : ∀ v, v ≠ t → ¬ (s.thread v).Writes := fun v hv => h.others_write hpc rfl hv
    by_cases he : s.rd = fOld
    · subst he
      simp only [wlockStep, if_true, some.injEq] at hs
      by_cases hone : s.rd.locked = 1
      · rw [if_pos hone] at hs
        subst hs
        have hrd : waitForReadsNew c.maxSpin n s.rd = ⟨false, 1⟩ := by
          rw [waitForReadsNew, if_neg (by simp [hone]), ← hone]
        refine h.setRd hpc rfl (h.held_eq hpc rfl) rfl rfl rfl rfl ?_ ?_ hothers (fun _ => hrd) trivial
        · simp only [hrd, hone]
          rfl
        · simp [goto, hrd]
      · rw [if_neg hone] at hs
        subst hs
        have hrd : (waitForReadsNew c.maxSpin n s.rd).locked = s.rd.locked := by
          rw [waitForReadsNew]
          split_ifs <;> rfl
        have hpc' : (if (waitForReadsNew c.maxSpin n s.rd).kernel = true then Pc.wlock .wait
            else .wlock (.waitLoad 0)).held = ⟨true, true, true⟩ := by split_ifs <;> rfl
        refine h.setRd hpc rfl (h.held_eq hpc hpc') rfl rfl (by rw [hpc']; rfl) (by rw [hpc']; rfl)
          ?_ ?_ hothers ?_ ?_
        · simp only [goto, hrd, rdWeight, hpc']
          rfl
        · simpa [goto, hrd] using hroom
        · split_ifs <;> exact False.elim
        · split_ifs <;> trivial
    · simp only [wlockStep, if_neg he, some.injEq] at hs
      subst hs
      exact h.goto hpc rfl False.elim trivial
  | wait =>
    cases hs
    exact h.waitOnFutex hpc ⟨rfl, id, trivial⟩ ⟨rfl, id, trivial⟩
  | waiting =>
    simp only [wlockStep] at hs
    split_ifs at hs
    cases hs
    exact h.goto hpc rfl False.elim trivial

/-- `futex_unlock` has not given up the word yet. -/
def unlockHolds : UnlockPc → Bool
  | .load | .cas _ => true
  | _ => false

omit [Fintype ι] in
/-- `futex_unlock` gives up the word, and leaves it unlocked, or changes its flag at most. -/
theorem futexUnlock_cases (c : FutexConfig ι) (f : Futex) (queue : List Waiter) (t : ι)
    (pc : UnlockPc) : ∃ f' queue' next, futexUnlock c f queue t pc = (f', queue', next) ∧
      next.any unlockHolds = (unlockHolds pc && !futexUnlocks f pc) ∧
      if futexUnlocks f pc then f'.locked = 0 ∧ unlockHolds pc else f'.locked = f.locked := by
  refine ⟨_, _, _, rfl, ?_⟩
  cases pc with
  | load => by_cases hl : f.locked = 0 <;> simp [unlockStep, futexUnlocks, setThread, hl, unlockHolds]
  | cas fOld =>
    by_cases he : f = fOld
    · by_cases hk : fOld.kernel <;> simp [unlockStep, futexUnlocks, setThread, he, hk, unlockHolds]
    · simp [unlockStep, futexUnlocks, setThread, he, unlockHolds]
  | clearLoad =>
    by_cases hl : f.locked ≠ 0 ∨ f.kernel = false <;> simp [unlockStep, futexUnlocks, setThread, hl,
      unlockHolds]
  | clearCas fOld =>
    by_cases he : f = fOld <;> simp [unlockStep, futexUnlocks, setThread, he, unlockHolds]
  | wake => simp [unlockStep, futexUnlocks, setThread, unlockHolds]

theorem Pc.held_unlockWait (pc : UnlockPc) :
    (Pc.wunlock (.unlockWait pc)).held = ⟨false, true, unlockHolds pc⟩ := by
  cases pc <;> rfl

theorem Pc.held_unlockWr (pc : UnlockPc) :
    (Pc.wunlock (.unlockWr pc)).held = ⟨false, unlockHolds pc, false⟩ := by
  cases pc <;> rfl

theorem inv_unlockWait {pc : UnlockPc} (h : Inv s) (hpc : s.thread t = .wunlock (.unlockWait pc)) :
    Inv (wunlockStep c s t (.unlockWait pc)) := by
  obtain ⟨wait, queue, next, hunlock, hnext, hlocked⟩ :=
    futexUnlock_cases ⟨c.pid, c.waitPtr, c.tid⟩ s.wait s.waitQueue t pc
  have hwr : (Pc.wunlock (.unlockWait pc)).held.wr = true := by rw [Pc.held_unlockWait]
  have hothers : ∀ v, v ≠ t → ∀ fOld, s.thread v ≠ .wlock (.futexTrylock (.cas fOld)) :=
    fun v hv => h.others_trylock hpc hwr hv
  have hwait := h.wait_held hpc hwr
  have hnone : (Pc.wunlock (.unlockWr .load)).held = ⟨false, true, false⟩ := rfl
  simp only [wunlockStep, hunlock]
  cases hun : futexUnlocks s.wait pc with
  | true =>
    simp only [hun, if_true] at hlocked ⊢
    refine h.setWait hpc rfl (h.hold_eq hpc (by rfl) ?_) rfl rfl ?_ ?_ ?_ (fun h0 =>
      absurd hlocked.1 h0) hothers ?_
    all_goals cases next <;> simp_all [Pc.held_unlockWait, Pc.Writes, Pc.Seen]
  | false =>
    refine h.setWait hpc rfl (h.held_eq hpc ?_) rfl rfl ?_ ?_ ?_ (fun h0 => .inl ?_) hothers ?_
    all_goals cases next <;> simp_all [Pc.held_unlockWait, Pc.Writes, Pc.Seen, goto]

theorem inv_unlockWr {pc : UnlockPc} (h : Inv s) (hpc : s.thread t = .wunlock (.unlockWr pc)) :
    Inv (wunlockStep c s t (.unlockWr pc)) := by
  obtain ⟨wr, queue, next, hunlock, hnext, hlocked⟩ :=
    futexUnlock_cases ⟨c.pid, c.wrPtr, c.tid⟩ s.wr s.waitQueue t pc
  have hidle : Pc.idle.held = .none := rfl
  simp only [wunlockStep, hunlock]
  cases hun : futexUnlocks s.wr pc with
  | true =>
    simp only [if_true]
    refine h.setWr hpc rfl (h.hold_eq hpc (by rfl) ?_) rfl rfl ?_ ?_ (fun v hv =>
      h.others_wr hpc ?_ hv) ?_ ?_
    all_goals cases next <;> simp_all [Pc.held_unlockWr, Held.none, Pc.Seen]
  | false =>
    simp only [hun] at hlocked
    refine h.stay hpc rfl rfl rfl hlocked rfl ?_ ?_ ?_
    all_goals cases next <;> simp_all [Pc.held_unlockWr, Held.none, Pc.Writes, Pc.Seen]

theorem inv_wunlock {pc : WunlockPc} (h : Inv s) (hpc : s.thread t = .wunlock pc) :
    Inv (wunlockStep c s t pc) := by
  cases pc with
  | load =>
    have hrd := h.writes t (by rw [hpc]; trivial)
    simp only [wunlockStep, hrd]
    exact h.goto hpc rfl id rfl
  | cas fOld =>
    have hrd := h.writes t (by rw [hpc]; trivial)
    have hseen := h.seen t
    rw [hpc] at hseen
    have he : s.rd = fOld := hrd.trans (Eq.symm hseen)
    simp only [wunlockStep, if_pos he]
    refine h.setRd hpc rfl (h.hold_eq hpc (by rfl) (by rfl)) rfl rfl rfl rfl ?_
      (by simp [goto, hold]) (fun v hv => h.others_write hpc rfl hv) False.elim trivial
    simp only [hold, hrd]
    rfl
  | unlockWait pc => exact inv_unlockWait h hpc
  | unlockWr pc => exact inv_unlockWr h hpc

theorem Pc.Free.held (h : pc.Free) : pc.held = .none := by
  cases pc <;> first | rfl | cases h

theorem inv_step {a : Action ι} (h : Inv s) (hok : NoWtrylock s a) (hs : step c s a = some u) :
    Inv u := by
  cases a with
  | rlock t junk | rtrylock t | wlock t =>
    simp only [step] at hs
    split_ifs at hs with hfree
    cases hs
    exact h.goto rfl hfree.held.symm False.elim trivial
  | runlock t =>
    simp only [step] at hs
    split_ifs at hs with hpc
    cases hs
    exact h.goto hpc rfl False.elim trivial
  | wunlock t =>
    simp only [step] at hs
    split_ifs at hs with hpc
    cases hs
    exact h.goto hpc rfl (fun _ => trivial) trivial
  | wtrylock t => exact hok.elim
  | step t junk =>
    simp only [step] at hs
    split at hs
    case h_1 pc hpc => exact inv_rlock h hpc hok hs
    case h_2 pc hpc => cases hs; exact inv_rtrylock h hpc hok
    case h_3 pc hpc => cases hs; exact inv_runlock h hpc
    case h_4 pc hpc => exact inv_wlock h hpc hs
    case h_5 pc hpc =>
      have := h.seen t
      rw [hpc] at this
      exact this.elim
    case h_6 pc hpc => cases hs; exact inv_wunlock h hpc
    all_goals cases hs

/-- In every run without `rwlock_wtrylock` the lock is safe, whatever `futex_wait` finds in its
uninitialised variable. -/
theorem user_rwlock_safe (c : Config ι) (s : State ι) (hrun : Reach (step c) NoWtrylock init s) :
    LockSafe s :=
  (hrun.invariant inv_init fun _ _ _ hu hok hs => inv_step hu hok hs).safe

/-- A reader is inside when a writer comes; the writer sleeps until the reader has left, and a
second reader fails. -/
def waitingWriterRun (i j k : ι) : List (Action ι) :=
  let s := fun t : ι => Action.step t ⟨true, 5⟩
  [.rlock i ⟨true, 5⟩, s i, s i, s i, .wlock j, s j, s j, s j, s j, s j, s j, s j, s j, s j,
    .rtrylock k, s k, .runlock i, s i, s i, s i, s i, s i, s j, s j, s j]

theorem user_rwlock_safe_of_a_writer :
    ∃ s, Reach (step (⟨1, 4096, 4104, 4112, -1, fun t => t.val⟩ : Config (Fin 3))) NoWtrylock
    init s ∧
      s.thread 1 = .writing ∧ s.thread 2 = .failed ∧ LockSafe s := by
  refine exists_reach_of (P := fun s => s.thread 1 = .writing ∧
    s.thread 2 = .failed) (waitingWriterRun 0 1 2) (by decide +kernel) fun s hs h => ?_
  exact ⟨h.1, h.2, user_rwlock_safe _ s hs⟩

/-- One thread calls `rwlock_wtrylock` on a free lock: `futex_trylock` succeeds and -1 is
returned. -/
def invertedRun (i : ι) : List (Action ι) :=
  [.wtrylock i, .step i Futex.zero, .step i Futex.zero]

theorem user_rwlock_wtrylock_keeps_futex :
    ¬ ∀ (ι : Type) [Fintype ι] [DecidableEq ι] (c : Config ι) (s : State ι),
      Reach (step c) anyStep init s → LockSafe s := by
  intro hclaim
  obtain ⟨s, hs, h0, hheld⟩ : ∃ s,
    Reach (step (⟨1, 4096, 4104, 4112, -1, fun t => t.val⟩ : Config (Fin 1))) anyStep
      init s ∧ s.thread 0 = .failed ∧ s.held 0 = ⟨false, true, false⟩ :=
      exists_reach (invertedRun 0) (by decide +kernel)
  have := (hclaim (Fin 1) _ s hs).failedHoldsNone 0 h0
  simp [hheld, Held.none] at this

end Toddler.UserRwlock
