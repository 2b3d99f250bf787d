import Toddler.Proofs.Vm
import Toddler.Spec.Process

/-! Teardown of a process. Under `TeardownOrder` the two flags of the cleaner are final once they
are set: without threads and without holders of a reference nobody is left to create a thread or to
allocate a block. -/

namespace Toddler

open Option

variable {c : VmConfig} {s s' : Proc}

structure TeardownInv (s : Proc) : Prop where
  vm : VmCount s.vm
  stopping : s.point = .stopState ∨ s.point = .stopCount → s.allThreadsStopped = false
  stopped : s.allThreadsStopped = true → s.threads = []
  zombie : s.state = .zombie ∨ s.point = .freeCount ∨ s.allVmBlocksFreed = true →
    s.allThreadsStopped = true
  freed : s.allVmBlocksFreed = true → s.handles = 0 ∧ s.vm.active = []
  dying : s.dying → s.allVmBlocksFreed = true

theorem teardownInv_create (c : VmConfig) : TeardownInv (createProcess c) := by
  refine ⟨⟨rfl, rfl⟩, fun _ => rfl, fun _ => rfl, ?_, ?_, ?_⟩ <;> simp [createProcess, Proc.dying]

/-- Once the blocks are freed there is no thread left. -/
theorem TeardownInv.no_threads (hi : TeardownInv s) (h : s.allVmBlocksFreed = true) :
    s.threads = [] :=
  hi.stopped (hi.zombie (.inr (.inr h)))

theorem TeardownInv.safe (hi : TeardownInv s) : TeardownSafe s := by
  intro hd
  have hfreed := hi.dying hd
  obtain ⟨hhandles, hactive⟩ := hi.freed hfreed
  refine ⟨hi.no_threads hfreed, hactive, ?_, hhandles⟩
  rw [hi.vm.count, hactive]
  rfl

/-- What a step of another thread leaves alone, and what it may do to a process that is not done. -/
structure Outside (s s' : Proc) : Prop where
  point : s'.point = s.point
  stop : s'.allThreadsStopped = s.allThreadsStopped
  freed : s'.allVmBlocksFreed = s.allVmBlocksFreed
  threads : s.allThreadsStopped = true → s.threads = [] → s'.threads = []
  zombie : s'.state = .zombie → s.state = .zombie ∨ s.allThreadsStopped = true
  alone : s.allVmBlocksFreed = true → s.threads = [] → s.handles = 0 →
    s'.handles = 0 ∧ (s.vm.active = [] → s'.vm.active = [])

theorem TeardownInv.outside (hi : TeardownInv s) (hvm : VmCount s'.vm) (h : Outside s s') :
    TeardownInv s' := by
  refine ⟨hvm, ?_, ?_, ?_, ?_, ?_⟩
  · rw [h.point, h.stop]
    exact hi.stopping
  · rw [h.stop]
    exact fun hs => h.threads hs (hi.stopped hs)
  · rw [h.point, h.stop, h.freed]
    rintro (hz | hrest)
    · rcases h.zombie hz with hz | hs
      · exact hi.zombie (.inl hz)
      · exact hs
    · exact hi.zombie (.inr hrest)
  · rw [h.freed]
    intro hf
    obtain ⟨hhandles, hactive⟩ := hi.freed hf
    obtain ⟨hhandles', hkeep⟩ := h.alone hf (hi.no_threads hf) hhandles
    exact ⟨hhandles', hkeep hactive⟩
  · unfold Proc.dying
    rw [h.point, h.freed]
    exact hi.dying

variable {vm : Vm} {e : Bool}

/-- A step that leaves the threads and the state of the process alone. -/
theorem outside_frame {handles entry : ℕ}
    (h : s.allVmBlocksFreed = true → s.threads = [] → s.handles = 0 →
      handles = 0 ∧ (s.vm.active = [] → vm.active = [])) :
    Outside s { s with vm := vm, handles := handles, popupMsgHandler := entry, cleanupEvent := e } :=
  ⟨rfl, rfl, rfl, fun _ ht => ht, .inl, h⟩

/-- A step that changes nothing but the virtual memory and the event. -/
theorem outside_vm (h : s.threads = [] → s.handles = 0 → s.vm.active = [] → vm.active = []) :
    Outside s { s with vm := vm, cleanupEvent := e } :=
  outside_frame fun _ ht hh => ⟨hh, h ht hh⟩

theorem Moved.active_nil {v v' : Vm} (h : Moved v v') (hv : v.active = []) : v'.active = [] := by
  have hperm := h.active
  rw [hv] at hperm
  exact hperm.eq_nil

/-- `vm_free_block` moves one block, and signals the cleaner with a single CPU. -/
theorem procFreeBlock_spec {id : ℕ} (hvm : VmCount s.vm) (h : procFreeBlock c s id = some s') :
    ∃ vm e, s' = { s with vm := vm, cleanupEvent := e } ∧ Moved s.vm vm := by
  simp only [procFreeBlock, bind_eq_bind, bind_eq_some_iff, Option.some.injEq] at h
  obtain ⟨vm, hfree, rfl⟩ := h
  have hmoved := vmFreeBlock_moved hvm.reuse hfree
  split_ifs
  · exact ⟨vm, true, rfl, hmoved⟩
  · exact ⟨vm, s.cleanupEvent, rfl, hmoved⟩

section

variable (hi : TeardownInv s)
include hi

theorem teardownInv_createThread {tid blockSize : ℕ} (hok : s.allThreadsStopped = false)
    (h : procCreateThread s tid blockSize = some s') : TeardownInv s' := by
  unfold procCreateThread at h
  split at h
  · rename_i vm b hvm
    simp only [Option.some.injEq] at h
    subst h
    have hcount := vmAllocThread_count hi.vm hvm
    refine hi.outside ⟨hcount.count, hcount.reuse⟩ ⟨rfl, rfl, rfl, ?_, .inl, ?_⟩
    · simp [hok]
    · intro hf
      simp [hi.zombie (.inr (.inr hf))] at hok
  · cases h

theorem teardownInv_exitThread {tid : ℕ} (h : procExitThread c s tid = some s') :
    TeardownInv s' := by
  simp only [procExitThread, bind_eq_bind, bind_eq_some_iff, Option.some.injEq] at h
  obtain ⟨t, ht, u, hu, rfl⟩ := h
  obtain ⟨vm, e, rfl, hmoved⟩ := procFreeBlock_spec hi.vm hu
  have hcount := hmoved.vmCount hi.vm
  refine hi.outside ⟨hcount.count, hcount.reuse⟩ ⟨rfl, rfl, rfl, ?_, .inl, ?_⟩
  · intro _ hnil
    simp [hnil]
  · exact fun _ _ hh => ⟨hh, hmoved.active_nil⟩

/-- A step of the cleaner that only goes on. -/
theorem TeardownInv.goto {p : CleanerPoint}
    (hstop : p = .stopState ∨ p = .stopCount → s.allThreadsStopped = false)
    (hfree : p = .freeCount → s.allThreadsStopped = true)
    (hdying : ({ s with point := p } : Proc).dying → s.allVmBlocksFreed = true) :
    TeardownInv { s with cleanupEvent := e, point := p } := by
  refine ⟨hi.vm, hstop, hi.stopped, ?_, hi.freed, hdying⟩
  rintro (hz | hp | hf)
  · exact hi.zombie (.inl hz)
  · exact hfree hp
  · exact hi.zombie (.inr (.inr hf))

/-- The points at which the invariant says nothing of the flags. -/
def CleanerPoint.neutral : CleanerPoint → Bool
  | .wait | .move | .stopTest | .freeTest | .freeState | .loop | .done => true
  | _ => false

theorem TeardownInv.pass {p : CleanerPoint} (hp : p.neutral = true) :
    TeardownInv { s with cleanupEvent := e, point := p } := by
  apply hi.goto
  · rintro (rfl | rfl) <;> cases hp
  · rintro rfl
    cases hp
  · rintro (rfl | rfl | rfl | rfl) <;> cases hp

/-- The same for a change of the virtual memory that adds no block. -/
theorem TeardownInv.setVm (hvm : VmCount vm)
    (hactive : s.vm.active = [] → vm.active = []) : TeardownInv { s with vm := vm } :=
  hi.outside hvm (outside_vm fun _ _ => hactive)

theorem teardownInv_cleaner (hok : TeardownOrder s .cleaner) (h : processCleaner c s = some s') :
    TeardownInv s' := by
  cases hp : s.point <;> simp only [processCleaner, hp] at h
  case wait =>
    split_ifs at h
    cases h
    exact hi.pass rfl
  case move =>
    cases h
    refine (hi.setVm (vmMoveSanitToAvail_count hi.vm) fun hnil => ?_).pass rfl
    rw [vmMoveSanitToAvail_active]
    have hperm := sanitUnmapped_perm s.vm
    rw [hnil] at hperm
    exact (List.append_eq_nil_iff.mp hperm.symm.eq_nil).2
  case stopTest =>
    split_ifs at h with hstop
    · cases h
      simp only [Bool.and_eq_true, Bool.not_eq_true'] at hstop
      exact hi.goto (fun _ => hstop.1) (by simp) (by simp [Proc.dying])
    · cases h
      exact hi.pass rfl
  case stopState =>
    cases h
    have hfalse := hi.stopping (.inl hp)
    refine hi.goto (fun _ => hfalse) ?_ ?_
    · split_ifs <;> simp
    · split_ifs <;> simp [Proc.dying]
  case stopCount =>
    cases h
    have hfalse := hi.stopping (.inr hp)
    have hopen : ∀ {q : Prop}, s.state = .zombie ∨ s.point = .freeCount ∨
        s.allVmBlocksFreed = true → q := by
      intro q hz
      simp [hi.zombie hz] at hfalse
    refine ⟨hi.vm, by simp, by simp, ?_, hi.freed, by simp [Proc.dying]⟩
    rintro (hz | hpoint | hf)
    · exact hopen (.inl hz)
    · cases hpoint
    · exact hopen (.inr (.inr hf))
  case freeTest =>
    split_ifs at h <;> cases h <;> exact hi.pass rfl
  case freeState =>
    cases h
    by_cases hz : s.state = .zombie
    · simp only [if_pos hz]
      exact hi.goto (by simp) (fun _ => hi.zombie (.inl hz)) (by simp [Proc.dying])
    · simp only [if_neg hz]
      exact hi.pass rfl
  case freeCount =>
    split_ifs at h with hzero
    · cases h
      have hstop := hi.zombie (.inr (.inl hp))
      have hnil : s.vm.active = [] := by
        have hcount := hi.vm.count
        exact List.length_eq_zero_iff.mp (by omega)
      exact ⟨hi.vm, by simp, hi.stopped, fun _ => hstop, fun _ => ⟨hok hp hzero, hnil⟩, by simp⟩
    · simp only [bind_eq_bind, bind_eq_some_iff, Option.some.injEq] at h
      obtain ⟨vm, hpurge, rfl⟩ := h
      have hmoved := vmPurge_moved hi.vm.reuse hpurge
      exact (hi.setVm (hmoved.vmCount hi.vm) hmoved.active_nil).pass rfl
  case loop =>
    cases h
    split_ifs with hdone
    · simp only [Bool.and_eq_true] at hdone
      exact hi.goto (by simp) (by simp) fun _ => hdone.2
    · exact hi.pass rfl
  case destroy =>
    cases h
    have hfreed := hi.dying (.inl hp)
    have hvm : VmCount { s.vm with
        availUnmapped := []
        numSallocObjs := s.vm.numSallocObjs - s.vm.availUnmapped.length } := ⟨hi.vm.count, hi.vm.reuse⟩
    exact (hi.setVm hvm id).goto (by simp) (by simp) fun _ => hfreed
  case freeAddrSpace =>
    cases h
    have hfreed := hi.dying (.inr (.inl hp))
    exact hi.goto (by simp) (by simp) fun _ => hfreed
  case unlink =>
    cases h
    have hfreed := hi.dying (.inr (.inr (.inl hp)))
    have hnext := hi.goto (p := .sfree) (e := s.cleanupEvent) (by simp) (by simp) fun _ => hfreed
    exact ⟨hnext.vm, hnext.stopping, hnext.stopped, hnext.zombie, hnext.freed, hnext.dying⟩
  case sfree =>
    cases h
    exact hi.pass rfl
  case done =>
    cases h

theorem teardownInv_step {a : ProcAction} (hok : TeardownOrder s a)
    (h : procStep c s a = some s') : TeardownInv s' := by
  cases a with
  | acquire =>
    simp only [procStep] at h
    split_ifs at h
    cases h
    have hno : s.allVmBlocksFreed = false := hok
    refine hi.outside ⟨hi.vm.count, hi.vm.reuse⟩ (outside_frame fun hf _ _ => ?_)
    rw [hno] at hf
    cases hf
  | release =>
    simp only [procStep] at h
    split_ifs at h
    cases h
    refine hi.outside ⟨hi.vm.count, hi.vm.reuse⟩ (outside_frame fun _ _ hh => ⟨?_, id⟩)
    rw [hh]
  | register entry =>
    simp only [procStep] at h
    split_ifs at h
    cases h
    exact hi.outside hi.vm (outside_frame fun _ _ hh => ⟨hh, id⟩)
  | createThread via tid blockSize =>
    simp only [procStep] at h
    split_ifs at h
    exact teardownInv_createThread hi hok h
  | exitThread tid =>
    simp only [procStep] at h
    split_ifs at h
    exact teardownInv_exitThread hi h
  | alloc base size =>
    simp only [procStep] at h
    split_ifs at h with hnobody
    cases h
    refine hi.outside (vmAlloc_count hi.vm) (outside_vm fun ht hh _ => absurd ?_ hnobody)
    simp [ht, hh]
  | free base =>
    simp only [procStep] at h
    split_ifs at h
    simp only [bind_eq_bind, bind_eq_some_iff] at h
    obtain ⟨b, -, h⟩ := h
    obtain ⟨vm, e, rfl, hmoved⟩ := procFreeBlock_spec hi.vm h
    exact hi.outside (hmoved.vmCount hi.vm) (outside_vm fun _ _ => hmoved.active_nil)
  | shootdownDone id =>
    simp only [procStep, bind_eq_bind, bind_eq_some_iff, Option.some.injEq] at h
    obtain ⟨vm, hmove, rfl⟩ := h
    have hmoved := vmMoveToSanitUnmapped_moved hmove
    exact hi.outside (hmoved.vmCount hi.vm) (outside_vm fun _ _ => hmoved.active_nil)
  | exitProcess =>
    simp only [procStep] at h
    split_ifs at h
    cases h
    exact hi.outside hi.vm ⟨rfl, rfl, rfl, fun _ ht => ht, fun hz => (by cases hz),
      fun _ _ hh => ⟨hh, id⟩⟩
  | recycleProcess =>
    simp only [procStep] at h
    split_ifs at h
    cases h
    exact hi.outside hi.vm ⟨rfl, rfl, rfl, fun _ ht => ht, fun _ => .inr hok, fun _ _ hh => ⟨hh, id⟩⟩
  | cleaner => exact teardownInv_cleaner hi hok h

end

theorem teardown_safe (c : VmConfig) (s : Proc)
    (h : Reach (procStep c) TeardownOrder (createProcess c) s) : TeardownSafe s := by
  have hinv : TeardownInv s :=
    h.invariant (teardownInv_create c) fun _ _ _ hi hok hstep => teardownInv_step hi hok hstep
  exact hinv.safe

/-- One round of the cleaner that tests for threads, or for blocks. -/
def cleanerRound : List ProcAction := List.replicate 7 .cleaner

/-- The order of the system task: the process is stopped, its thread exits, the cleaner finds it
without threads, and `recycle_process` has given its reference back before the cleaner comes round
again. -/
theorem teardown_safe_after_release :
    ∃ s, Reach (procStep sixteenPages) TeardownOrder (createProcess sixteenPages) s ∧
    s.point = .destroy ∧
      s.threads = [] ∧ s.vm.active = [] ∧ s.vm.numActiveBlocks = 0 ∧ s.handles = 0 := by
  refine exists_reach_of (P := fun s => s.point = .destroy) ([.acquire,
    .createThread .cross 1 0x1000, .exitProcess,
    .release] ++ cleanerRound ++ [.exitThread 1] ++ cleanerRound ++ [.acquire, .recycleProcess,
    .release] ++
    cleanerRound) (by decide +kernel) fun s hs hpoint => ?_
  exact ⟨hpoint, teardown_safe sixteenPages s hs (.inl hpoint)⟩

/-- The caller of `recycle_process` still holds its reference when the cleaner frees the process. -/
theorem recycled_process_freed_while_held :
    ¬ ∀ (c : VmConfig) (s : Proc), Reach (procStep c) anyStep (createProcess c) s →
    TeardownSafe s := by
  intro h
  obtain ⟨s, hs, hpoint, hone⟩ :
    ∃ s, Reach (procStep sixteenPages) anyStep (createProcess sixteenPages) s ∧
      s.point = .destroy ∧ s.handles = 1 :=
    exists_reach ([.acquire, .exitProcess, .release] ++ cleanerRound ++ [.acquire,
      .recycleProcess] ++ cleanerRound) (by decide +kernel)
  obtain ⟨-, -, -, hhandles⟩ := h sixteenPages s hs (.inl hpoint)
  omega

end Toddler
