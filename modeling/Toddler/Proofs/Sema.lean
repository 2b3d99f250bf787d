import Toddler.Lib.Shared
import Toddler.Spec.Sema
import Mathlib.Tactic

/-! A thread sleeps on the semaphore only while a wake-up is owed to it: the count is zero with the
kernel flag set, or a poster is about to clear the flag, or has cleared it and is about to make its
wake call. A wake call that finds the count taken with the flag clear breaks the chain. -/

namespace Toddler.Sema

variable {ι : Type}

def Pc.Clearing : Pc → Prop
  | .post .clearLoad | .post (.clearCas _) => True
  | _ => False

def State.WillWake (s : State ι) : Prop :=
  (s.futex.kernel = true ∧ s.futex.locked = 0) ∨
  (s.futex.kernel = true ∧ ∃ t, (s.thread t).Clearing) ∨
  (s.futex.kernel = false ∧ ∃ t, s.thread t = .post .wake)

structure SemaInv (c : Config ι) (s : State ι) : Prop where
  count : s.futex.locked + s.taken = s.posted
  tried : ∀ t fOld, s.thread t = .trywait (.cas fOld) → fOld.locked ≠ 0
  queued : ∀ w ∈ s.waitQueue, w.waitType = .futex ∧ w.waitObj = c.futexPtr ∧ w.pid = c.pid
  asleep : s.waitQueue ≠ [] → s.WillWake

theorem semaInv_init (c : Config ι) : SemaInv c (State.init : State ι) :=
  ⟨rfl, by simp [State.init], by simp [State.init], by simp [State.init]⟩

variable {c : Config ι} {s : State ι}

theorem SemaInv.counts (h : SemaInv c s) : CountsAndWakes c s := by
  refine ⟨h.count, fun hpos hdone t ⟨w, hw, _⟩ => ?_⟩
  rcases h.asleep (List.ne_nil_of_mem hw) with ⟨-, h1⟩ | ⟨-, j, hj⟩ | ⟨-, j, hj⟩
  · omega
  · apply hdone j
    revert hj
    cases s.thread j <;> simp [Pc.Clearing, Pc.Posting]
  · exact hdone j (by simp [hj, Pc.Posting])

variable [DecidableEq ι] {t : ι} {pc : Pc}

theorem SemaInv.tried_update (h : SemaInv c s)
    (htried : ∀ fOld, pc = .trywait (.cas fOld) → fOld.locked ≠ 0) (j : ι) (fOld : Futex)
    (hj : Function.update s.thread t pc j = .trywait (.cas fOld)) : fOld.locked ≠ 0 := by
  by_cases hjt : j = t
  · subst hjt
    exact htried fOld (by simpa using hj)
  · exact h.tried j fOld (by simpa [hjt] using hj)

variable {f : Futex} {posted taken : ℕ}

/-- A thread moves and may replace the word, in balance with the history. -/
theorem SemaInv.move (h : SemaInv c s) (hcount : f.locked + taken = posted)
    (htried : ∀ fOld, pc = .trywait (.cas fOld) → fOld.locked ≠ 0)
    (hw : s.WillWake → ({ s with futex := f, posted := posted, taken := taken }.setThread t
      pc).WillWake) :
    SemaInv c ({ s with futex := f, posted := posted, taken := taken }.setThread t pc) :=
  ⟨hcount, h.tried_update htried, h.queued, fun hq => hw (h.asleep hq)⟩

/-- The wake-up stays owed when a thread moves that the sleepers do not rely on. -/
theorem State.WillWake.other (h : s.WillWake) (hk : s.futex.kernel = true → f.kernel = true)
    (hl : s.futex.kernel = true → s.futex.locked = 0 → f.locked = 0)
    (hf : s.futex.kernel = false → f.kernel = true → f.locked = 0)
    (hc : ¬ (s.thread t).Clearing) (hw : s.futex.kernel = false → s.thread t ≠ .post .wake) :
    ({ s with futex := f, posted := posted, taken := taken }.setThread t pc).WillWake :=
  Owed.other (P := Pc.Clearing) h hk hl hf hc hw

theorem State.WillWake.takeOver (h : s.WillWake) (hw : s.thread t ≠ .post .wake)
    (hl : s.futex.kernel = true → s.futex.locked = 0 ∨ pc.Clearing) : (s.setThread t pc).WillWake :=
  Owed.takeOver (P := Pc.Clearing) h hw hl

/-- A thread that is not in the second half of `sema_post_count` may move without touching the
word. -/
theorem SemaInv.stay (h : SemaInv c s) (hc : ¬ (s.thread t).Clearing)
    (hw : s.thread t ≠ .post .wake) (htried : ∀ fOld, pc = .trywait (.cas fOld) → fOld.locked ≠ 0) :
    SemaInv c (s.setThread t pc) :=
  h.move h.count htried fun hwake =>
    hwake.other id (fun _ => id) (fun h0 h1 => by simp [h0] at h1) hc fun _ => hw

omit [DecidableEq ι] in
/-- Without a maximum, a post that fits adds its count. -/
theorem postNew_count {count : ℕ} (hmax : c.maxCount = 0)
    (h : f.locked + taken = posted) (hfits : f.locked + count < 2 ^ 63) :
    (postNew c.maxCount count f).locked + taken = posted + count := by
  simp only [postNew, hmax, ne_eq, not_true_eq_false, false_and, if_false]
  omega

theorem SemaInv.take (h : SemaInv c s) (hpos : s.futex.locked ≠ 0)
    (hc : ¬ (s.thread t).Clearing) (hw : s.thread t ≠ .post .wake) :
    SemaInv c ({ s with
      futex := { s.futex with locked := s.futex.locked - 1 }
      taken := s.taken + 1 }.setThread t .idle) := by
  have hcount := h.count
  refine h.move (by simp only; omega) (by simp) fun hwake => ?_
  exact hwake.other id (fun _ h0 => absurd h0 hpos) (fun h0 h1 => by simp [h0] at h1) hc fun _ => hw

theorem semaInv_wait {u : State ι} {pc : WaitPc} (h : SemaInv c s)
    (hpc : s.thread t = .wait pc) (hs : waitStep c s t pc = some u) : SemaInv c u := by
  have hc : ¬ (s.thread t).Clearing := by simp [hpc, Pc.Clearing]
  have hw : s.thread t ≠ .post .wake := by simp [hpc]
  cases pc with
  | load maxSpin n => cases hs; exact h.stay hc hw (by simp)
  | cas maxSpin n fOld =>
    by_cases he : s.futex = fOld
    · subst he
      by_cases hzero : s.futex.locked = 0
      · -- the count stays zero, with the flag kept or set
        simp only [waitStep, if_true, hzero, ne_eq, not_true_eq_false, if_false, Option.some.injEq] at hs
        subst hs
        have hlocked : (waitNew maxSpin n s.futex).locked = 0 := by
          unfold waitNew; split_ifs <;> simp_all
        have hkernel : s.futex.kernel = true → (waitNew maxSpin n s.futex).kernel = true := by
          unfold waitNew; split_ifs <;> simp
        have hcount := h.count
        refine h.move (by omega) (fun _ hcas => ?_) fun hwake =>
          hwake.other hkernel (fun _ _ => hlocked) (fun _ _ => hlocked) hc fun _ => hw
        split_ifs at hcas
      · simp only [waitStep, if_true, ne_eq, hzero, not_false_eq_true, Option.some.injEq, waitNew] at hs
        subst hs
        exact h.take hzero hc hw
    · simp only [waitStep, if_neg he, Option.some.injEq] at hs
      subst hs
      exact h.stay hc hw (by simp)
  | wait maxSpin =>
    simp only [waitStep] at hs
    split at hs
    case h_1 w hwait =>
      cases hs
      obtain ⟨hk, hm, rfl⟩ := waitOnObject_futex.mp hwait
      have hl : s.futex.locked = 0 := by simpa using hm
      refine ⟨h.count, h.tried_update (by simp), ?_, fun _ => .inl ⟨hk, hl⟩⟩
      intro v hv
      rcases mem_sleepThread.mp hv with rfl | hv
      · exact ⟨rfl, rfl, rfl⟩
      · exact h.queued v hv
    case h_2 => cases hs; exact h.stay hc hw (by simp)
  | waiting maxSpin =>
    simp only [waitStep] at hs
    split_ifs at hs
    cases hs
    exact h.stay hc hw (by simp)

theorem semaInv_trywait {pc : TrywaitPc} (h : SemaInv c s)
    (hpc : s.thread t = .trywait pc) : SemaInv c (trywaitStep s t pc) := by
  have hc : ¬ (s.thread t).Clearing := by simp [hpc, Pc.Clearing]
  have hw : s.thread t ≠ .post .wake := by simp [hpc]
  cases pc with
  | load =>
    simp only [trywaitStep]
    split_ifs with hz
    · exact h.stay hc hw (by simp)
    · exact h.stay hc hw fun fOld he => by cases he; exact hz
  | cas fOld =>
    simp only [trywaitStep]
    split_ifs with he
    · subst he
      exact h.take (h.tried t s.futex hpc) hc hw
    · exact h.stay hc hw (by simp)

theorem semaInv_post {pc : PostPc} (hmax : c.maxCount = 0)
    (h : SemaInv c s) (hpc : s.thread t = .post pc) (hok : WakeSeesCount s (.step t)) :
    SemaInv c (postStep c s t pc) := by
  simp only [WakeSeesCount, hpc] at hok
  cases pc with
  | load count => exact h.stay (by simp [hpc, Pc.Clearing]) (by simp [hpc]) (by simp)
  | cas count fOld =>
    simp only [postStep]
    split_ifs with he hk
    · -- the poster itself now owes the wake-up
      subst he
      refine h.move (postNew_count hmax h.count hok) (by simp) fun _ => ?_
      exact .inr (.inl ⟨hk, t, by simp [State.setThread, Pc.Clearing]⟩)
    · subst he
      refine h.move (postNew_count hmax h.count hok) (by simp) fun hwake => ?_
      exact hwake.other id (fun h0 => absurd h0 hk) (fun _ h1 => absurd h1 hk)
        (by simp [hpc, Pc.Clearing]) (by simp [hpc])
    · exact h.stay (by simp [hpc, Pc.Clearing]) (by simp [hpc]) (by simp)
  | clearLoad =>
    simp only [postStep]
    split_ifs with he
    · refine h.move h.count (by simp) fun hwake => ?_
      exact hwake.takeOver (by simp [hpc]) fun hk => .inl (he.resolve_right (by simp [hk]))
    · exact h.move h.count (by simp) fun hwake => hwake.takeOver (by simp [hpc]) fun _ => .inr trivial
  | clearCas fOld =>
    simp only [postStep]
    split_ifs with he
    · subst he
      exact h.move h.count (by simp) fun _ => .inr (.inr ⟨rfl, t, by simp [State.setThread]⟩)
    · exact h.move h.count (by simp) fun hwake => hwake.takeOver (by simp [hpc]) fun _ => .inr trivial
  | wake =>
    simp only [postStep]
    rw [wakeOnObject_futex h.queued]
    split_ifs with hk
    · exact ⟨h.count, h.tried_update (by simp), by simp [State.setThread], fun h0 => absurd rfl h0⟩
    · -- nobody is woken, so the flag is set and the caller was not relied upon
      have hkernel : s.futex.kernel = true := by
        by_contra hne
        have hf : s.futex.kernel = false := by simpa using hne
        exact hk ⟨hf, by simpa using hok hf⟩
      exact h.move h.count (by simp) fun hwake =>
        hwake.other id (fun _ => id) (fun h0 => by simp [hkernel] at h0)
        (by simp [hpc, Pc.Clearing]) fun h0 => by simp [hkernel] at h0

theorem semaInv_step {u : State ι} {a : Action ι} (hmax : c.maxCount = 0) (h : SemaInv c s)
    (hok : WakeSeesCount s a) (hs : step c s a = some u) : SemaInv c u := by
  cases a with
  | wait t maxSpin | trywait t | post t count =>
    simp only [step] at hs
    split_ifs at hs with hidle
    cases hs
    exact h.stay (by simp [hidle, Pc.Clearing]) (by simp [hidle]) (by simp)
  | step t =>
    simp only [step] at hs
    split at hs
    case h_1 => cases hs
    case h_2 pc hpc => exact semaInv_wait h hpc hs
    case h_3 pc hpc => cases hs; exact semaInv_trywait h hpc
    case h_4 pc hpc => cases hs; exact semaInv_post hmax h hpc hok

/-- In every state reached by steps whose posts fit and whose wake calls do not find the count
taken, the count is in balance and nobody sleeps on a positive count that no poster is about to
announce. -/
theorem sema_counts_and_wakes (c : Config ι) (hmax : c.maxCount = 0) (s : State ι)
    (hrun : Reach (step c) WakeSeesCount State.init s) : CountsAndWakes c s :=
  (hrun.invariant (semaInv_init c) fun _ _ _ hu hok hs => semaInv_step hmax hu hok hs).counts

/-- Thread `i` sleeps; thread `j` posts two and wakes it, and `i` takes one. -/
def wokenRun (i j : ι) : List (Action ι) :=
  [.wait i 0, .step i, .step i, .step i, .post j 2, .step j, .step j, .step j, .step j, .step j,
    .step i, .step i, .step i]

theorem sema_counts_and_wakes_woken :
    ∃ s, Reach (step (⟨1, 4096, 0, fun t => t.val⟩ : Config (Fin 2))) WakeSeesCount State.init s ∧
      s.futex.locked = 1 ∧ CountsAndWakes ⟨1, 4096, 0, fun t => t.val⟩ s := by
  refine exists_reach_of (P := fun s => s.futex.locked = 1) (wokenRun 0 1) (by decide +kernel) fun s
    hs hf => ?_
  exact ⟨hf, sema_counts_and_wakes _ rfl s hs⟩

/-- Thread `i` sleeps. Thread `j` posts and clears the flag; thread `k` takes the count before the
wake call, which then wakes nobody, and `k` posts again without a flag to clear. -/
def strandedRun (i j k : ι) : List (Action ι) :=
  [.wait i 0, .step i, .step i, .step i, .post j 1, .step j, .step j, .step j, .step j, .trywait k,
    .step k, .step k, .step j, .post k 1, .step k, .step k]

theorem sema_strands_waiter : ¬ ∀ (ι : Type) [DecidableEq ι] (c : Config ι) (s : State ι),
    c.maxCount = 0 →
      Reach (step c) anyStep State.init s → CountsAndWakes c s := by
  intro hclaim
  obtain ⟨s, hs, hf, hq, h0, h1, h2⟩ :
    ∃ s, Reach (step (⟨1, 4096, 0, fun t => t.val⟩ : Config (Fin 3))) anyStep
      State.init s ∧ s.futex = ⟨false, 1⟩ ∧ s.waitQueue.map Waiter.tid = [0] ∧
      s.thread 0 = .wait (.waiting 0) ∧
      s.thread 1 = .idle ∧ s.thread 2 = .idle := exists_reach (strandedRun 0 1 2) (by decide +kernel)
  obtain ⟨w, hw, htid⟩ := List.mem_map.mp (show 0 ∈ s.waitQueue.map Waiter.tid by simp [hq])
  have hok := hclaim (Fin 3) _ s rfl hs
  refine hok.awake (by simp [hf]) (fun t => ?_) 0 ⟨w, hw, htid⟩
  fin_cases t
  · simp [h0, Pc.Posting]
  · simp [h1, Pc.Posting]
  · simp [h2, Pc.Posting]

end Toddler.Sema
