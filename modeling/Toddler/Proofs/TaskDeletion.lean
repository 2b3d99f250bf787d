import Toddler.Lib.Tally
import Toddler.Spec.TaskRefs

/-! Deletion of a task against its users. The count is the number of threads inside an
`access_task`, so `del_task` panics or frees under a user exactly when its cleanup overlaps with an
access. Nothing in the source orders the two: a waiter keeps its reference until it runs again. -/

namespace Toddler

open Function

variable {ι : Type} {c : TaskConfig ι} {s u : TaskRefs ι} {t : ι} {pc : TaskPc}

def TaskPc.holds : TaskPc → Bool
  | .wait _ | .finish _ _ | .access | .release | .cleanup .release => true
  | _ => false

def TaskPc.refs (pc : TaskPc) : ℕ := if pc.holds then 1 else 0

@[simp] theorem TaskPc.refs_of_holds (h : pc.holds = true) : pc.refs = 1 := by
  simp [TaskPc.refs, h]

@[simp] theorem TaskPc.refs_of_not_holds (h : pc.holds = false) : pc.refs = 0 := by
  simp [TaskPc.refs, h]

theorem TaskPc.engaged_of_cleaning (h : pc.cleaning = true) : pc.engaged = true := by
  unfold TaskPc.cleaning at h
  split at h <;> first | rfl | cases h

theorem TaskPc.engaged_of_holds (h : pc.holds = true) : pc.engaged = true := by
  unfold TaskPc.holds at h
  split at h <;> first | rfl | cases h

theorem TaskPc.not_holds_of_not_engaged (h : pc.engaged = false) : pc.holds = false := by
  by_contra hne
  rw [TaskPc.engaged_of_holds (by simpa using hne)] at h
  cases h

/-- A use of a structure that is off the list is made under a reference or by the cleanup. -/
theorem TaskPc.holds_or_cleaning_of_uses (h : pc.uses false = true) :
    pc.holds = true ∨ pc.cleaning = true := by
  cases pc with
  | idle => cases h
  | acquire call => cases h
  | wait pc => exact .inl rfl
  | finish exits pc => exact .inl rfl
  | access => exact .inl rfl
  | release => exact .inl rfl
  | cleanup pc =>
    cases pc with
    | release => exact .inl rfl
    | isZero => exact .inr rfl
    | unlink => exact .inr rfl
    | sfree => cases h
    | recycle => cases h

section Moves

variable [DecidableEq ι]

/-- Thread `t` goes to `pc`, and of what deletion depends on only the count follows it. -/
structure TaskMoves (s u : TaskRefs ι) (t : ι) (pc : TaskPc) : Prop where
  thread : u.thread = update s.thread t pc
  linked : u.linked = s.linked
  freed : u.freed = s.freed
  notified : u.notified = s.notified
  panicked : u.panicked = s.panicked
  usedFreed : u.usedFreed = s.usedFreed
  count : u.refCount + (s.thread t).refs = s.refCount + pc.refs

/-- A thread stays on one side of the cleanup: it becomes engaged by a request only, and a reference
is taken only from the list. -/
structure TaskStays (linked : Bool) (pc pc' : TaskPc) : Prop where
  cleaning : pc'.cleaning = true → pc.cleaning = true
  engaged : pc'.engaged = true → pc.engaged = true
  holds : pc'.holds = true → pc.holds = true ∨ linked = true
  sfree : pc' ≠ .cleanup .sfree

theorem TaskCall.found_stays {call : TaskCall} (h : call ≠ .other) :
    call.found.refs = 1 ∧ TaskStays true (.acquire call) call.found := by
  cases call with
  | other => exact absurd rfl h
  | cleanup => exact ⟨rfl, fun _ => rfl, fun _ => rfl, fun _ => .inr rfl, nofun⟩
  | wait | exit | detach | access => exact ⟨rfl, nofun, fun _ => rfl, fun _ => .inr rfl, nofun⟩

theorem acquireTask_moves {call : TaskCall} (hpc : s.thread t = .acquire call)
    (h : acquireTask s t call = some u) :
    ∃ pc', TaskMoves s u t pc' ∧ TaskStays s.linked (.acquire call) pc' := by
  have hrefs : (s.thread t).refs = 0 := by rw [hpc]; rfl
  have hidle : TaskMoves s (s.setThread t .idle) t .idle ∧ TaskStays s.linked (.acquire call) .idle :=
    ⟨⟨rfl, rfl, rfl, rfl, rfl, rfl, by rw [hrefs]; rfl⟩, ⟨nofun, nofun, nofun, nofun⟩⟩
  by_cases hother : call = .other
  · subst hother
    simp only [acquireTask, Option.some.injEq] at h
    exact ⟨.idle, h ▸ hidle⟩
  obtain ⟨hone, hstays⟩ := TaskCall.found_stays hother
  cases hl : s.linked with
  | true =>
    have hu : { s with refCount := s.refCount + 1 }.setThread t call.found = u := by
      simpa [acquireTask, hl] using h
    subst hu
    exact ⟨call.found, ⟨rfl, rfl, rfl, rfl, rfl, rfl, by rw [hrefs, hone]; rfl⟩, hstays⟩
  | false =>
    have hu : s.setThread t .idle = u := by
      cases call with
      | cleanup => simp [acquireTask, hl] at h
      | other => exact absurd rfl hother
      | wait | exit | detach | access => simpa [acquireTask, hl] using h
    exact ⟨.idle, hu ▸ hl ▸ hidle⟩

/-- Inside an access every place holds the one reference. -/
theorem TaskStays.of_holds {linked : Bool} {pc pc' : TaskPc} (h : pc.holds = true)
    (hc : pc'.cleaning = true → pc.cleaning = true) (hsf : pc' ≠ .cleanup .sfree) :
    TaskStays linked pc pc' :=
  ⟨hc, fun _ => TaskPc.engaged_of_holds h, fun _ => .inl h, hsf⟩

theorem condWaitStep_moves {wpc : CondWaitPc} (hpc : s.thread t = .wait wpc)
    (h : condWaitStep c s t wpc = some u) :
    ∃ pc', TaskMoves s u t pc' ∧ TaskStays s.linked (.wait wpc) pc' := by
  have hrefs : (s.thread t).refs = 1 := by rw [hpc]; rfl
  have hwait : ∀ v : CondWaitPc, TaskStays s.linked (.wait wpc) (.wait v) :=
    fun v => TaskStays.of_holds rfl nofun nofun
  cases wpc with
  | spin =>
    cases h
    exact ⟨_, ⟨rfl, rfl, rfl, rfl, rfl, rfl, by rw [hrefs]; rfl⟩, hwait _⟩
  | load =>
    cases h
    exact ⟨_, ⟨rfl, rfl, rfl, rfl, rfl, rfl, by rw [hrefs]; rfl⟩, hwait _⟩
  | cas fOld =>
    simp only [condWaitStep] at h
    split_ifs at h <;> cases h
    · exact ⟨_, ⟨rfl, rfl, rfl, rfl, rfl, rfl, by rw [hrefs]; rfl⟩, hwait _⟩
    · exact ⟨_, ⟨rfl, rfl, rfl, rfl, rfl, rfl, by rw [hrefs]; rfl⟩, hwait _⟩
  | wait =>
    simp only [condWaitStep] at h
    split at h <;> cases h
    · exact ⟨_, ⟨rfl, rfl, rfl, rfl, rfl, rfl, by rw [hrefs]; rfl⟩, hwait _⟩
    · exact ⟨_, ⟨rfl, rfl, rfl, rfl, rfl, rfl, by rw [hrefs]; rfl⟩, hwait _⟩
  | waiting =>
    simp only [condWaitStep] at h
    split_ifs at h
    cases h
    exact ⟨_, ⟨rfl, rfl, rfl, rfl, rfl, rfl, by rw [hrefs]; rfl⟩, hwait _⟩
  | status =>
    cases h
    exact ⟨_, ⟨rfl, rfl, rfl, rfl, rfl, rfl, by rw [hrefs]; rfl⟩, TaskStays.of_holds rfl nofun nofun⟩

/-- A place of `task_exit` and `task_detach`, or the release after it. -/
def TaskPc.Finishing : TaskPc → Prop
  | .finish _ _ | .release => True
  | _ => False

theorem finishing_signalled (exits : Bool) : (signalled exits).Finishing := by
  cases exits <;> trivial

theorem finishStep_moves {exits : Bool} {epc : EndPc} (hpc : s.thread t = .finish exits epc) :
    ∃ pc', TaskMoves s (finishStep c s t exits epc) t pc' ∧
    TaskStays s.linked (.finish exits epc) pc' := by
  have hrefs : (s.thread t).refs = 1 := by rw [hpc]; rfl
  -- each branch changes fields that deletion does not read and goes to a finishing place
  suffices h : ∃ v pc', finishStep c s t exits epc = TaskRefs.setThread v t pc' ∧
    v.thread = s.thread ∧
      v.linked = s.linked ∧ v.freed = s.freed ∧ v.notified = s.notified ∧ v.panicked = s.panicked ∧
      v.usedFreed = s.usedFreed ∧ v.refCount = s.refCount ∧ pc'.Finishing by
    obtain ⟨v, pc', hv, hth, hl, hf, hn, hp, hu, hr, hpc'⟩ := h
    rw [hv]
    have hone : pc'.refs = 1 ∧ TaskStays s.linked (.finish exits epc) pc' := by
      cases pc' with
      | finish | release => exact ⟨rfl, TaskStays.of_holds rfl nofun nofun⟩
      | idle | acquire | wait | access | cleanup => exact hpc'.elim
    refine ⟨pc', ⟨?_, hl, hf, hn, hp, hu, ?_⟩, hone.2⟩
    · simp only [TaskRefs.setThread, hth]
    · rw [hrefs, hone.1]
      simp only [TaskRefs.setThread, hr]
  cases epc with
  | state status =>
    simp only [finishStep]
    split_ifs <;> exact ⟨_, _, rfl, rfl, rfl, rfl, rfl, rfl, rfl, rfl, trivial⟩
  | status status => exact ⟨_, _, rfl, rfl, rfl, rfl, rfl, rfl, rfl, rfl, trivial⟩
  | load => exact ⟨_, _, rfl, rfl, rfl, rfl, rfl, rfl, rfl, rfl, trivial⟩
  | cas fOld =>
    simp only [finishStep]
    split_ifs
    · exact ⟨_, _, rfl, rfl, rfl, rfl, rfl, rfl, rfl, rfl, trivial⟩
    · exact ⟨_, _, rfl, rfl, rfl, rfl, rfl, rfl, rfl, rfl, finishing_signalled exits⟩
    · exact ⟨_, _, rfl, rfl, rfl, rfl, rfl, rfl, rfl, rfl, trivial⟩
  | clearLoad =>
    simp only [finishStep]
    split_ifs
    · exact ⟨_, _, rfl, rfl, rfl, rfl, rfl, rfl, rfl, rfl, trivial⟩
    · exact ⟨_, _, rfl, rfl, rfl, rfl, rfl, rfl, rfl, rfl, finishing_signalled exits⟩
  | clearCas fOld =>
    simp only [finishStep]
    split_ifs <;> exact ⟨_, _, rfl, rfl, rfl, rfl, rfl, rfl, rfl, rfl, trivial⟩
  | wake => exact ⟨_, _, rfl, rfl, rfl, rfl, rfl, rfl, rfl, rfl, finishing_signalled exits⟩
  | processExit => exact ⟨_, _, rfl, rfl, rfl, rfl, rfl, rfl, rfl, rfl, trivial⟩

variable [Fintype ι]

structure TaskInv (s : TaskRefs ι) : Prop where
  noPanic : s.panicked = false
  noUse : s.usedFreed = false
  count : s.refCount = tally TaskPc.refs s.thread
  alone : ∀ i, (s.thread i).cleaning = true → ∀ j, j ≠ i → (s.thread j).engaged = false
  linked : ∀ i, (s.thread i).cleaning = true → s.linked = true ∧ s.notified = true
  unlinked : s.linked = false → ∀ i, (s.thread i).holds = false
  sfree : ∀ i, s.thread i = .cleanup .sfree → s.linked = false
  freed : s.freed = true → s.linked = false
  notified : s.notified = false → s.linked = true

omit [DecidableEq ι] in
theorem taskInv_init (state : TaskState) : TaskInv (TaskRefs.init state : TaskRefs ι) where
  noPanic := rfl
  noUse := rfl
  count := (tally_eq_zero.mpr fun _ => rfl).symm
  alone := nofun
  linked := nofun
  unlinked := nofun
  sfree := nofun
  freed := nofun
  notified := fun _ => rfl

section

variable (hi : TaskInv s)
include hi

/-- A thread moves without becoming engaged, or becomes engaged when no cleanup is under way. -/
theorem TaskInv.move (pc' : TaskPc) (hm : TaskMoves s u t pc')
    (hc : pc'.cleaning = true → (s.thread t).cleaning = true)
    (he : pc'.engaged = true → (s.thread t).engaged = true ∨ ∀ j, (s.thread j).cleaning = false)
    (hh : pc'.holds = true → (s.thread t).holds = true ∨ s.linked = true)
    (hsf : pc' ≠ .cleanup .sfree) : TaskInv u := by
  have hcl : ∀ i, (u.thread i).cleaning = true → (s.thread i).cleaning = true := by
    intro i h
    rw [hm.thread, update_apply] at h
    split_ifs at h with hit
    · exact hit ▸ hc h
    · exact h
  refine ⟨hm.panicked.trans hi.noPanic, hm.usedFreed.trans hi.noUse, ?_, ?_, ?_, ?_, ?_, ?_, ?_⟩
  · have := tally_update TaskPc.refs s.thread t pc'
    have := hm.count
    have := hi.count
    rw [hm.thread]
    omega
  · intro i h j hj
    have hold := hi.alone i (hcl i h) j hj
    rw [hm.thread, update_apply]
    split_ifs with hjt
    · subst hjt
      by_contra hne
      rcases he (by simpa using hne) with h' | h'
      · rw [hold] at h'
        cases h'
      · exact absurd (hcl i h) (by rw [h' i]; nofun)
    · exact hold
  · intro i h
    rw [hm.linked, hm.notified]
    exact hi.linked i (hcl i h)
  · intro h i
    rw [hm.linked] at h
    rw [hm.thread, update_apply]
    split_ifs with hit
    · by_contra hne
      rcases hh (by simpa using hne) with h' | h'
      · rw [hi.unlinked h t] at h'
        cases h'
      · rw [h] at h'
        cases h'
    · exact hi.unlinked h i
  · intro i h
    rw [hm.thread, update_apply] at h
    rw [hm.linked]
    split_ifs at h
    · exact absurd h hsf
    · exact hi.sfree i h
  · intro h
    rw [hm.linked]
    exact hi.freed (hm.freed ▸ h)
  · intro h
    rw [hm.linked]
    exact hi.notified (hm.notified ▸ h)

theorem TaskInv.stays (pc' : TaskPc) (hm : TaskMoves s u t pc')
    (hs : TaskStays s.linked (s.thread t) pc') : TaskInv u :=
  hi.move pc' hm hs.cleaning (fun h => .inl (hs.engaged h)) hs.holds hs.sfree

omit [DecidableEq ι] in
/-- Under the invariant no step finds the structure freed. -/
theorem TaskInv.use_eq (t : ι) : s.use (s.thread t) = s := by
  have hsafe : (s.freed && (s.thread t).uses s.linked) = false := by
    by_contra hne
    obtain ⟨hf, hu⟩ := Bool.and_eq_true_iff.mp (by simpa using hne)
    have hl := hi.freed hf
    rw [hl] at hu
    rcases TaskPc.holds_or_cleaning_of_uses hu with h | h
    · rw [hi.unlinked hl t] at h
      cases h
    · rw [(hi.linked t h).1] at hl
      cases hl
  simp [TaskRefs.use, hsafe]

omit [DecidableEq ι] in
theorem TaskInv.refCount_pos (h : (s.thread t).holds = true) : 0 < s.refCount := by
  have := le_tally TaskPc.refs s.thread t
  rw [TaskPc.refs_of_holds h] at this
  rw [hi.count]
  omega

omit [DecidableEq ι] in
/-- The cleanup finds the count at zero, because every other thread is outside. -/
theorem TaskInv.refCount_isZero (h : s.thread t = .cleanup .isZero) : s.refCount = 0 := by
  rw [hi.count, tally_eq_zero]
  intro i
  by_cases hit : i = t
  · rw [hit, h]
    rfl
  · have hout := hi.alone t (by rw [h]; rfl) i hit
    exact TaskPc.refs_of_not_holds (TaskPc.not_holds_of_not_engaged hout)

theorem TaskInv.cleanup {cpc : CleanupPc} (hpc : s.thread t = .cleanup cpc) :
    TaskInv (cleanupStep s t cpc) := by
  cases cpc with
  | release =>
    have hpos := hi.refCount_pos (by rw [hpc]; rfl)
    refine hi.stays (.cleanup .isZero) ⟨rfl, rfl, rfl, rfl, rfl, rfl, ?_⟩ ?_
    · rw [hpc]
      exact Nat.sub_add_cancel hpos
    · rw [hpc]
      exact ⟨fun _ => rfl, fun _ => rfl, nofun, nofun⟩
  | isZero =>
    have hzero := hi.refCount_isZero hpc
    simp only [cleanupStep, hzero]
    refine hi.stays (.cleanup .unlink) ⟨rfl, rfl, rfl, rfl, rfl, rfl, by rw [hpc]; rfl⟩ ?_
    rw [hpc]
    exact ⟨fun _ => rfl, fun _ => rfl, nofun, nofun⟩
  | unlink =>
    -- every other thread is outside, and this one has given its reference back
    have hout := hi.alone t (by rw [hpc]; rfl)
    have hthread : ∀ i, (update s.thread t (.cleanup .sfree) i).engaged = false := by
      intro i
      rw [update_apply]
      split_ifs with hit
      · rfl
      · exact hout i hit
    have hclean : ∀ i, (update s.thread t (.cleanup .sfree) i).cleaning ≠ true := by
      intro i h
      have := TaskPc.engaged_of_cleaning h
      rw [hthread i] at this
      cases this
    refine ⟨hi.noPanic, hi.noUse, ?_, fun i h => absurd h (hclean i),
      fun i h => absurd h (hclean i), ?_, fun _ _ => rfl, fun _ => rfl, ?_⟩
    · have hsame : TaskPc.refs (.cleanup .sfree) = (s.thread t).refs := by rw [hpc]; rfl
      exact hi.count.trans (tally_update_same hsame).symm
    · exact fun _ i => TaskPc.not_holds_of_not_engaged (hthread i)
    · intro h
      have hn := (hi.linked t (by rw [hpc]; rfl)).2
      rw [show s.notified = false from h] at hn
      cases hn
  | sfree =>
    have hl := hi.sfree t hpc
    have hmoved : TaskInv (s.setThread t (.cleanup .recycle)) := by
      refine hi.stays (.cleanup .recycle) ⟨rfl, rfl, rfl, rfl, rfl, rfl, by rw [hpc]; rfl⟩ ?_
      exact ⟨nofun, nofun, nofun, nofun⟩
    exact { hmoved with freed := fun _ => hl }
  | recycle =>
    refine hi.stays .idle ⟨rfl, rfl, rfl, rfl, rfl, rfl, by rw [hpc]; rfl⟩ ?_
    exact ⟨nofun, nofun, nofun, nofun⟩

theorem TaskInv.pcStep (h : taskPcStep c s t (s.thread t) = some u) : TaskInv u := by
  cases hpc : s.thread t with
  | idle =>
    rw [hpc] at h
    cases h
  | acquire call =>
    rw [hpc] at h
    obtain ⟨pc', hm, hs⟩ := acquireTask_moves hpc h
    exact hi.stays pc' hm (hpc ▸ hs)
  | wait wpc =>
    rw [hpc] at h
    obtain ⟨pc', hm, hs⟩ := condWaitStep_moves hpc h
    exact hi.stays pc' hm (hpc ▸ hs)
  | finish exits epc =>
    rw [hpc] at h
    cases h
    obtain ⟨pc', hm, hs⟩ := finishStep_moves hpc
    exact hi.stays pc' hm (hpc ▸ hs)
  | access =>
    rw [hpc] at h
    cases h
    refine hi.stays .release ⟨rfl, rfl, rfl, rfl, rfl, rfl, by rw [hpc]; rfl⟩ ?_
    rw [hpc]
    exact TaskStays.of_holds rfl nofun nofun
  | release =>
    rw [hpc] at h
    cases h
    have hpos := hi.refCount_pos (by rw [hpc]; rfl)
    refine hi.stays .idle ⟨rfl, rfl, rfl, rfl, rfl, rfl, ?_⟩ ⟨nofun, nofun, nofun, nofun⟩
    rw [hpc]
    exact Nat.sub_add_cancel hpos
  | cleanup cpc =>
    rw [hpc] at h
    cases h
    exact hi.cleanup hpc

theorem TaskInv.notify (hidle : s.thread t = .idle) (hn : s.notified = false)
    (hout : ∀ j, (s.thread j).engaged = false) :
    TaskInv ({ s with notified := true }.setThread t (.acquire .cleanup)) := by
  have hl := hi.notified hn
  have hcl : ∀ i, (update s.thread t (.acquire .cleanup) i).cleaning = true → i = t := by
    intro i h
    rw [update_apply] at h
    split_ifs at h with hit
    · exact hit
    · have := TaskPc.engaged_of_cleaning h
      rw [hout i] at this
      cases this
  refine ⟨hi.noPanic, hi.noUse, ?_, ?_, fun _ _ => ⟨hl, rfl⟩, ?_, ?_, hi.freed, nofun⟩
  · have hsame : TaskPc.refs (.acquire .cleanup) = (s.thread t).refs := by rw [hidle]; rfl
    exact hi.count.trans (tally_update_same hsame).symm
  · intro i h j hj
    have hjt : j ≠ t := hcl i h ▸ hj
    change (update s.thread t (.acquire .cleanup) j).engaged = false
    rw [update_of_ne hjt]
    exact hout j
  · intro h
    exact absurd (hl.symm.trans h) nofun
  · intro i h
    change update s.thread t (.acquire .cleanup) i = .cleanup .sfree at h
    rw [update_apply] at h
    split_ifs at h
    exact hi.sfree i h

theorem TaskInv.step {a : TaskAction ι} (hok : CleanupAlone s a) (h : taskStep c s a = some u) :
    TaskInv u := by
  cases a with
  | request t call =>
    simp only [taskStep] at h
    split_ifs at h with hreq
    cases h
    refine hi.move (.acquire call) ⟨rfl, rfl, rfl, rfl, rfl, rfl, by rw [hreq.1]; rfl⟩ ?_ ?_ nofun nofun
    · intro hc
      cases call with
      | cleanup => exact absurd rfl hreq.2
      | wait | exit | detach | access | other => cases hc
    · intro he
      refine .inr (hok ?_)
      rintro rfl
      cases he
  | notify t =>
    simp only [taskStep] at h
    split_ifs at h with hn
    cases h
    exact hi.notify hn.1 hn.2.2 hok
  | touch t =>
    simp only [taskStep] at h
    split_ifs at h with hpc
    cases h
    rw [← hpc, hi.use_eq t]
    exact hi
  | step t =>
    simp only [taskStep] at h
    rw [hi.use_eq t] at h
    exact hi.pcStep h

end

/-- While no cleanup overlaps with an access of the task, `del_task` does not panic and no thread
uses the structure after `sfree`. -/
theorem task_deletion_safe (c : TaskConfig ι) (state : TaskState) (s : TaskRefs ι)
    (h : Reach (taskStep c) CleanupAlone (TaskRefs.init state) s) :
    s.panicked = false ∧ s.usedFreed = false := by
  have hi : TaskInv s := h.invariant (taskInv_init state) fun _ _ _ hi hok hs => hi.step hok hs
  exact ⟨hi.noPanic, hi.noUse⟩

end Moves

def taskThreads : TaskConfig (Fin 3) := ⟨1, 4096, fun i => i.val⟩

/-- Thread `t` waits for the task until it sleeps. -/
def waitUntilAsleep (t : ι) : List (TaskAction ι) := .request t .wait :: List.replicate 5 (.step t)

/-- Thread `t` handles the task's exit, with `n` steps to the end of the request. -/
def exitTask (t : ι) (n : ℕ) : List (TaskAction ι) :=
  .request t (.exit 7) :: List.replicate n (.step t)

/-- A waiter sleeps, the task exits and wakes it, and the cleanup runs after the waiter is done. -/
theorem task_deletion_safe_of_waiter :
    ∃ s : TaskRefs (Fin 3), Reach (taskStep taskThreads) CleanupAlone (TaskRefs.init .run) s ∧
      s.freed = true ∧ s.exitStatus = 7 ∧ s.panicked = false ∧ s.usedFreed = false := by
  refine exists_reach_of (P := fun s => s.freed = true ∧
    s.exitStatus = 7) (waitUntilAsleep 0 ++ exitTask 1 10 ++
    List.replicate 3 (.step 0) ++ .notify 2 :: List.replicate 6 (.step 2)) (by decide +kernel) fun s
    hs h => ?_
  exact ⟨h.1, h.2, task_deletion_safe taskThreads .run s hs⟩

/-- Without the order both halves fail. A woken waiter that has not run yet still holds its
reference when `del_task` checks the count; and a request that finds the task after the check uses
it after `sfree`. -/
theorem cleanup_overlaps_access :
    (¬ ∀ s : TaskRefs (Fin 3), Reach (taskStep taskThreads) anyStep (TaskRefs.init .run) s →
    s.panicked = false) ∧
    (¬ ∀ s : TaskRefs (Fin 3), Reach (taskStep taskThreads) anyStep (TaskRefs.init .run) s →
    s.usedFreed = false) := by
  constructor
  · intro hall
    obtain ⟨s, hs, hp⟩ : ∃ s, Reach (taskStep taskThreads) anyStep (TaskRefs.init .run) s ∧
        s.panicked = true :=
      exists_reach (waitUntilAsleep 0 ++ exitTask 1 10 ++ .notify 2 :: List.replicate 3 (.step 2))
        (by decide +kernel)
    rw [hall s hs] at hp
    cases hp
  · intro hall
    obtain ⟨s, hs, hp⟩ : ∃ s, Reach (taskStep taskThreads) anyStep (TaskRefs.init .run) s ∧
        s.usedFreed = true :=
      exists_reach (exitTask 1 7 ++ .notify 2 :: List.replicate 3 (.step 2) ++
        [.request 0 .access, .step 0, .step 2, .step 2, .touch 0]) (by decide +kernel)
    rw [hall s hs] at hp
    cases hp

end Toddler
