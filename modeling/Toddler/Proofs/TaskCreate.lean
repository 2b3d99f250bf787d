import Toddler.Spec.TaskCreate
import Mathlib.Tactic

/-! A failing `task_create` undoes what it did exactly when the program was loaded, since
`task_exit` works only for registered tasks. The client is never told. -/

namespace Toddler

variable {A : Arch} {ans : CreateAnswers} {stack : ℕ → UInt8} {s s' : TaskServer} {ppid pid : ℕ}
  {type : ℤ} {path : List UInt8} {argv : List (Option (List UInt8))}

theorem TaskServer.find_eq_none (h : ∀ t ∈ s.tasks, t.pid ≠ pid) : s.find pid = none :=
  List.find?_eq_none.mpr fun t ht => by simpa using h t ht

theorem createUndone_of_registered {t : TaskEntry} (ht : t.pid = pid) (hstate : t.state ≠ .exit)
    (hfresh : ∀ t ∈ s.tasks, t.pid ≠ pid) (status : ℕ) :
    CreateUndone s (taskExit { s with tasks := t :: s.tasks } pid status) pid := by
  subst ht
  have hexit : taskExit { s with tasks := t :: s.tasks } t.pid status =
      ⟨{ t with state := .exit, exitStatus := status } :: s.tasks, t.pid :: s.exitAsked⟩ := by
    simp [taskExit, TaskServer.find, TaskServer.modify, hstate, List.findIdx_cons]
  rw [hexit]
  refine ⟨rfl, ⟨s.tasks, t.pid :: s.exitAsked⟩, ?_, hfresh⟩
  simp [taskCleanup, TaskServer.find]

/-- The pid in the response is not 0, so that the handler reports success. -/
theorem CreateFails.not_reported (h : CreateFails A ans stack s ppid type path argv pid s') :
    ¬ CreateReported A ans stack s ppid type (some path :: argv) := by
  rintro ⟨u, msg, err, hapi, herr, hne⟩
  have hlt : 1 < A.ulong := Nat.one_lt_pow (by unfold Arch.bytes; split <;> simp) (by decide)
  have hpid : A.minusOne ≠ 0 := Nat.sub_ne_zero_of_lt hlt
  have hparams : maxMsgParams = 15 := rfl
  simp [taskApiTaskCreate, h.failed, Slots.appendInt, Slots.appendParam, hpid, hparams] at hapi
  obtain ⟨-, rfl⟩ := hapi
  simp [Slots.getInt, Slots.getParam] at herr
  exact hne herr.symm

/-- When `task_create` fails after it has made a process, the process is asked to exit and its entry
goes exactly when the program was loaded; the client is told of no error. -/
theorem task_create_failure (h : CreateFails A ans stack s ppid type path argv pid s') :
    (CreateUndone s s' pid ↔ ElfLoads ans stack s ppid pid path) ∧
      ¬ CreateReported A ans stack s ppid type (some path :: argv) := by
  refine ⟨?_, h.not_reported⟩
  obtain ⟨⟨hcreate, hpid, hminus⟩, hfresh, hfailed⟩ := h
  simp only [taskCreate, hcreate, if_neg hpid, Option.bind_eq_bind,
    Option.bind_eq_some_iff] at hfailed
  obtain ⟨absPath, habs, hfailed⟩ := hfailed
  unfold ElfLoads
  cases hload : ans.execElf pid absPath with
  | none =>
    simp only [hload, Option.some.injEq, Prod.mk.injEq, and_true] at hfailed
    subst hfailed
    refine iff_of_false (by simp [taskExit, TaskServer.find_eq_none hfresh, CreateUndone]) ?_
    rintro ⟨p, hp, hsome⟩
    obtain rfl : absPath = p := Option.some.inj (habs.symm.trans hp)
    simp [hload] at hsome
  | some loaded =>
    simp only [hload] at hfailed
    refine iff_of_true ?_ ⟨absPath, habs, by simp [hload]⟩
    split_ifs at hfailed with hthread
    · cases hfailed
      exact createUndone_of_registered rfl (by simp [newTask]) hfresh _
    · simp only [Option.some.injEq, Prod.mk.injEq] at hfailed
      exact absurd hfailed.2 hminus

/-- A server that knows only itself (pid 1), and a kernel that makes process 9 and no thread in
it. -/
def onlySystem : TaskServer := ⟨[newTask 0 1 [0x73] .run], []⟩

def noThread (loads : Bool) : CreateAnswers :=
  ⟨fun _ => 9, fun _ _ => if loads then some (0, 0) else none, fun _ _ _ => 0⟩

theorem task_create_failure_without_thread :
    CreateUndone onlySystem (taskExit ⟨[newTask 1 9 [0x2f, 0x61] .enter, newTask 0 1 [0x73] .run],
    []⟩ 9
      (Arch.minusOne ⟨true, false⟩)) 9 := by
  have hfails : CreateFails ⟨true, false⟩ (noThread true) (fun _ => 0) onlySystem 1 0 [0x2f,
    0x61] [] 9
      (taskExit ⟨[newTask 1 9 [0x2f, 0x61] .enter, newTask 0 1 [0x73] .run],
      []⟩ 9 (Arch.minusOne ⟨true, false⟩)) :=
    ⟨⟨rfl, by decide, by decide⟩, by simp [onlySystem, newTask], rfl⟩
  exact (task_create_failure hfails).1.mpr ⟨_, rfl, rfl⟩

/-- The program is missing: nobody asks process 9 to exit. -/
theorem task_create_leaves_process :
    ¬ ∀ (A : Arch) (ans : CreateAnswers) (stack : ℕ →
    UInt8) (s : TaskServer) (ppid : ℕ) (type : ℤ) (path : List UInt8)
      (argv : List (Option (List UInt8))) (pid : ℕ) (s' : TaskServer),
      CreateFails A ans stack s ppid type path argv pid s' →
        CreateUndone s s' pid ∧ CreateReported A ans stack s ppid type (some path :: argv) := by
  intro h
  have hfails : CreateFails ⟨true, false⟩ (noThread false) (fun _ => 0) onlySystem 1 0 [0x2f,
      0x61] [] 9 onlySystem :=
    ⟨⟨rfl, by decide, by decide⟩, by simp [onlySystem, newTask], rfl⟩
  have hundone := (h _ _ _ _ _ _ _ _ _ _ hfails).1.1
  simp [onlySystem] at hundone

end Toddler
