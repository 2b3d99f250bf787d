import Toddler.Spec.Event
import Mathlib.Tactic

/-! A waiter of the event is asleep only while a signal is still owed to it: nobody has signalled,
or some signaller is about to clear the kernel flag, or has cleared it and is about to wake. The
argument needs that the flag is cleared only while the signal is pending. -/

namespace Toddler

variable {ι : Type}

def EventSignalPc.Clearing : EventSignalPc → Prop
  | .clearLoad | .clearCas _ => True
  | _ => False

def EventState.WillWake (s : EventState ι) : Prop :=
  s.futex = ⟨true, 0⟩ ∨
  (s.futex = ⟨true, 1⟩ ∧ ∃ i, (s.signaller i).Clearing) ∨
  (s.futex = ⟨false, 1⟩ ∧ ∃ i, s.signaller i = .wake)

structure EventInv (c : EventConfig) (s : EventState ι) : Prop where
  locked : s.futex.locked = 0 ∨ s.futex.locked = 1
  clearCas : ∀ i f, s.signaller i = .clearCas f → f = ⟨true, 1⟩
  queued : ∀ w ∈ s.waitQueue, w.waitType = .futex ∧ w.waitObj = c.futexPtr ∧ w.pid = c.kernelPid
  asleep : s.waitQueue ≠ [] → s.waiter = .waiting ∧ s.Asleep c ∧ s.WillWake

theorem eventInv_init (c : EventConfig) : EventInv c (EventState.init : EventState ι) :=
  ⟨.inl rfl, fun i f h => by simp [EventState.init] at h, by simp [EventState.init], by
    simp [EventState.init]⟩

variable {c : EventConfig} {s : EventState ι}

/-- A step that leaves the queue empty only has to keep the word and the cleared values. -/
theorem EventInv.of_empty (hq : s.waitQueue = []) (hl : s.futex.locked = 0 ∨ s.futex.locked = 1)
    (hc : ∀ i f, s.signaller i = .clearCas f → f = ⟨true, 1⟩) : EventInv c s :=
  ⟨hl, hc, by simp [hq], fun h => absurd hq h⟩

theorem eventInv_wait {t : EventState ι} (hi : EventInv c s) (hs : eventWaitStep c s = some t) :
    EventInv c t := by
  by_cases hq : s.waitQueue = []
  · -- nobody sleeps: only the call of `wait_on_object` can change that
    have keep : ∀ f pc, (f.locked = 0 ∨ f.locked = 1) → EventInv c { s with futex := f, waiter := pc } :=
      fun f pc hf => EventInv.of_empty hq hf hi.clearCas
    unfold eventWaitStep at hs
    split at hs
    case h_1 => cases hs; exact keep _ _ hi.locked
    case h_2 n =>
      split_ifs at hs <;> cases hs <;> exact keep _ _ hi.locked
    case h_3 =>
      split_ifs at hs <;> cases hs <;> exact keep _ _ hi.locked
    case h_4 fOld =>
      split_ifs at hs with he
      · cases hs; exact keep _ _ (he ▸ hi.locked)
      · cases hs; exact keep _ _ hi.locked
    case h_5 =>
      split at hs
      case h_1 w hw =>
        cases hs
        obtain ⟨hk, hm, rfl⟩ := waitOnObject_futex.mp hw
        have hf : s.futex = ⟨true, 0⟩ := congrArg₂ Futex.mk hk (by simpa using hm)
        refine ⟨hi.locked, hi.clearCas, ?_, fun _ => ⟨rfl, ?_, .inl hf⟩⟩
        · intro v hv
          rcases mem_sleepThread.mp hv with rfl | hv
          · exact ⟨rfl, rfl, rfl⟩
          · exact hi.queued v hv
        · exact ⟨_, mem_sleepThread.mpr (.inl rfl), rfl⟩
      case h_2 => cases hs; exact keep _ _ hi.locked
    case h_6 =>
      split_ifs at hs
      cases hs; exact keep _ _ hi.locked
    case h_7 =>
      split_ifs at hs <;> cases hs <;> exact keep _ _ hi.locked
    case h_8 fOld =>
      split_ifs at hs
      · cases hs; exact keep _ _ (.inl rfl)
      · cases hs; exact keep _ _ hi.locked
  · -- the waiter sleeps and does not run
    obtain ⟨hpc, hasleep, -⟩ := hi.asleep hq
    simp [eventWaitStep, hpc, hasleep] at hs

variable [DecidableEq ι] {i : ι} {pc : EventSignalPc}

/-- A signaller's step that leaves the queue alone has to keep the wake-up of a sleeper owed. -/
theorem EventInv.move (hi : EventInv c s) {f : Futex} (hl : f.locked = 0 ∨ f.locked = 1)
    (hcas : ∀ g, pc = .clearCas g → g = ⟨true, 1⟩)
    (hw : s.WillWake → ({ s with futex := f }.setSignaller i pc).WillWake) :
    EventInv c ({ s with futex := f }.setSignaller i pc) := by
  refine ⟨hl, ?_, hi.queued, fun hq => ?_⟩
  · intro j g hj
    by_cases hji : j = i
    · subst hji; exact hcas g (by simpa [EventState.setSignaller] using hj)
    · exact hi.clearCas j g (by simpa [EventState.setSignaller, hji] using hj)
  · obtain ⟨h1, h2, h3⟩ := hi.asleep hq
    exact ⟨h1, h2, hw h3⟩

/-- The wake-up stays owed when the mover was not the one relied upon, or still owes it. -/
theorem EventState.WillWake.update (h : s.WillWake)
    (hc : (s.signaller i).Clearing → pc.Clearing ∨ s.futex.kernel = false)
    (hw : s.signaller i = .wake → s.futex.kernel = true) : (s.setSignaller i pc).WillWake := by
  rcases h with hf | ⟨hf, j, hj⟩ | ⟨hf, j, hj⟩
  · exact .inl hf
  · refine .inr (.inl ⟨hf, ?_⟩)
    by_cases hji : j = i
    · subst hji
      have hpc := (hc hj).resolve_right (by simp [hf])
      exact ⟨j, by simpa [EventState.setSignaller] using hpc⟩
    · exact ⟨j, by simpa [EventState.setSignaller, hji] using hj⟩
  · have hji : j ≠ i := fun h => by simpa [hf] using hw (h ▸ hj)
    exact .inr (.inr ⟨hf, j, by simpa [EventState.setSignaller, hji] using hj⟩)

theorem eventInv_signal (hi : EventInv c s)
    (hok : ClearSeesSignal s (.signaller i)) : EventInv c (eventSignalStep c s i) := by
  unfold eventSignalStep
  split
  case h_1 h =>
    exact hi.move hi.locked (by simp) fun hw =>
      hw.update (by simp [h, EventSignalPc.Clearing]) (by simp [h])
  case h_2 h =>
    exact hi.move hi.locked (by simp) fun hw =>
      hw.update (by simp [h, EventSignalPc.Clearing]) (by simp [h])
  case h_3 fOld h =>
    by_cases he : s.futex = fOld
    · subst he
      rw [if_pos rfl]
      refine hi.move (.inr rfl) (by split_ifs <;> simp) fun hw => ?_
      by_cases hk : s.futex.kernel = true
      · -- the flag is set, and this signaller goes on to clear it
        refine .inr (.inl ⟨by simp [hk, EventState.setSignaller], i, ?_⟩)
        simp [EventState.setSignaller, hk, EventSignalPc.Clearing]
      · rcases hw with hf | ⟨hf, -⟩ | ⟨hf, j, hj⟩
        · simp [hf] at hk
        · simp [hf] at hk
        · have hji : j ≠ i := fun e => by simp [← e, hj] at h
          exact .inr (.inr ⟨by simp [hf, EventState.setSignaller],
            j, by simpa [EventState.setSignaller, hji] using hj⟩)
    · rw [if_neg he]
      exact hi.move hi.locked (by simp) fun hw =>
        hw.update (by simp [h, EventSignalPc.Clearing]) (by simp [h])
  case h_4 h =>
    split_ifs with hk
    · have hl := hi.locked.resolve_left (hok h hk)
      refine hi.move hi.locked ?_ fun hw => hw.update (fun _ => .inl trivial) (by simp [h])
      intro g hg
      cases hg
      exact congrArg₂ Futex.mk hk hl
    · exact hi.move hi.locked (by simp) fun hw =>
        hw.update (fun _ => .inr (by simpa using hk)) (by simp [h])
  case h_5 fOld h =>
    split_ifs with he
    · have hf := hi.clearCas i fOld h
      refine hi.move (by simp [hf]) (by simp) fun _ =>
        .inr (.inr ⟨by simp [hf, EventState.setSignaller], i, ?_⟩)
      simp [EventState.setSignaller]
    · exact hi.move hi.locked (by simp) fun hw => hw.update (fun _ => .inl trivial) (by simp [h])
  case h_6 h =>
    rw [wakeOnObject_futex hi.queued]
    split_ifs with hk
    · refine EventInv.of_empty rfl hi.locked fun j f hj => ?_
      by_cases hji : j = i
      · subst hji; simp [EventState.setSignaller] at hj
      · exact hi.clearCas j f (by simpa [EventState.setSignaller, hji] using hj)
    · -- the call wakes nobody: the word carries the kernel flag, so this signaller was not needed
      refine hi.move hi.locked (by simp) fun hw => ?_
      have hkernel : s.futex.kernel = true := by
        rcases hw with hf | ⟨hf, -⟩ | ⟨hf, -⟩ <;> simp_all
      exact hw.update (by simp [h, EventSignalPc.Clearing]) fun _ => hkernel

/-- In every state reached by steps that clear the kernel flag only under a pending signal, a
signalled event has no sleeping waiter once all signallers have returned. -/
theorem event_signal_not_lost (c : EventConfig) (s : EventState ι)
    (hrun : Reach (eventStep c) ClearSeesSignal EventState.init s)
    (hidle : ∀ i, s.signaller i = .idle) (hlocked : s.futex.locked = 1) : ¬ s.Asleep c := by
  have hi : EventInv c s := by
    refine hrun.invariant (eventInv_init c) fun u a v hu hok hs => ?_
    cases a with
    | waiter => exact eventInv_wait hu hs
    | signaller i =>
      cases hs
      exact eventInv_signal hu hok
  rintro ⟨w, hw, -⟩
  rcases (hi.asleep (List.ne_nil_of_mem hw)).2.2 with hf | ⟨-, i, hc⟩ | ⟨-, i, hc⟩
  · simp [hf] at hlocked
  · simp [hidle i, EventSignalPc.Clearing] at hc
  · simp [hidle i] at hc

/-- The waiter sleeps, one signaller signals and wakes it. -/
def wokenRun : List (EventAction Unit) :=
  List.replicate 6 .waiter ++ List.replicate 6 (.signaller ())

theorem event_signal_not_lost_woken :
    ∃ s : EventState Unit, Reach (eventStep ⟨1, 2, 3, 0⟩) ClearSeesSignal EventState.init s ∧
      (∀ i, s.signaller i = .idle) ∧ s.futex.locked = 1 ∧ ¬ s.Asleep ⟨1, 2, 3, 0⟩ := by
  refine exists_reach_of (P := fun s => (∀ i, s.signaller i = .idle) ∧ s.futex.locked = 1) wokenRun
    (by decide +kernel) fun s hs h => ?_
  exact ⟨h.1, h.2, event_signal_not_lost _ s hs h.1 h.2⟩

/-- The signaller stops before its second loop, the waiter consumes the signal and sleeps again,
the signaller clears the new flag without waking, and signals once more. -/
def lostRun : List (EventAction Unit) :=
  List.replicate 5 .waiter ++ List.replicate 3 (.signaller ()) ++ List.replicate 9 .waiter ++
    List.replicate 6 (.signaller ())

theorem event_signal_lost : ¬ ∀ (ι : Type) [DecidableEq ι] (c : EventConfig) (s : EventState ι),
      Reach (eventStep c) anyStep EventState.init s →
      (∀ i, s.signaller i = .idle) → s.futex.locked = 1 → ¬ s.Asleep c := by
  intro hclaim
  have hrun : ∃ s, execute (eventStep ⟨1, 2, 3, 0⟩) anyStep EventState.init lostRun = some s ∧
      (∀ i, s.signaller i = .idle) ∧ s.futex.locked = 1 ∧ s.Asleep ⟨1, 2, 3, 0⟩ :=
    ⟨_, rfl, fun _ => rfl, rfl, ⟨2, 1, .futex, 3, noTimeout⟩, by decide, rfl⟩
  obtain ⟨s, hs, hidle, hlocked, hasleep⟩ := hrun
  exact hclaim Unit _ s (reach_of_execute hs) hidle hlocked hasleep

end Toddler
