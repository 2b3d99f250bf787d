import Toddler.Spec.OpenApi
import Toddler.Spec.TaskRefs

/-! `task_create`, `task_exit` and `task_cleanup` (`system/task/task.c`) and the handler of
`SYS_API_TASK_CREATE`, one call at a time. The block of arguments, which only the new process reads,
is left out. A panic and an access through a null pointer are `none`. -/

namespace Toddler

structure TaskEntry where
  pid : ℕ
  ppid : ℕ
  name : List UInt8
  state : TaskState
  exitStatus : ℕ
  task : TaskStruct

/-- The list `tasks`. `exitAsked` is history: the processes that `syscall_process_exit` was called
for. -/
structure TaskServer where
  tasks : List TaskEntry
  exitAsked : List ℕ

/-- What the kernel and the loader answer; `execElf` gives `entry` and `free_start`, or fails. -/
structure CreateAnswers where
  processCreate : ℤ → ℕ
  execElf : ℕ → List UInt8 → Option (ℕ × ℕ)
  threadCreateCross : ℕ → ℕ → ℕ → ℕ

def TaskServer.find (s : TaskServer) (pid : ℕ) : Option TaskEntry := s.tasks.find? fun t =>
    t.pid = pid

def TaskServer.modify (s : TaskServer) (pid : ℕ) (f : TaskEntry → TaskEntry) : TaskServer :=
  { s with tasks := s.tasks.modify (s.tasks.findIdx fun t => t.pid = pid) f }

/-- `task_exit`; `task_create` does not look at the code that it returns. -/
def taskExit (s : TaskServer) (pid status : ℕ) : TaskServer :=
  match s.find pid with
  | none => s
  | some t =>
    if t.state = .exit then s
    else { s.modify pid fun t => { t with state := .exit, exitStatus := status } with exitAsked :=
      pid :: s.exitAsked }

def taskCleanup (s : TaskServer) (pid : ℕ) : Option TaskServer :=
  (s.find pid).map fun _ => { s with tasks := s.tasks.eraseP fun t => t.pid = pid }

def newTask (ppid pid : ℕ) (name : List UInt8) (state : TaskState) : TaskEntry :=
  ⟨pid, ppid, name, state, 0, ⟨[0x2f], fun i => ⟨i < 3, none⟩⟩⟩

variable (A : Arch) (ans : CreateAnswers) (stack : ℕ → UInt8)

/-- `-1ul`, which `task_create` returns as a pid. -/
def Arch.minusOne : ℕ := A.ulong - 1

def taskCreate (s : TaskServer) (ppid : ℕ) (type : ℤ) (argv : List (Option (List UInt8))) :
    Option (TaskServer × ℕ) :=
  match argv with
  | some path :: _ =>
    let pid := ans.processCreate type
    if pid = 0 then some (s, A.minusOne)
    else do
      let absPath ← taskAbsPath ((s.find ppid).map TaskEntry.task) stack path
      match ans.execElf pid absPath with
      | none => some (taskExit s pid A.minusOne, A.minusOne)
      | some (entry, freeStart) =>
        let entryStruct := Message.alignUpVsize A (freeStart + 4096) 4096
        if ans.threadCreateCross pid entry entryStruct = 0 then
          some (taskExit { s with tasks := newTask ppid pid path .enter :: s.tasks } pid A.minusOne,
            A.minusOne)
        else some ({ s with tasks := newTask ppid pid path .run :: s.tasks }, pid)
  | _ => some (s, A.minusOne)

def taskApiTaskCreate (s : TaskServer) (ppid : ℕ) (type : ℤ) (argv : List (Option (List UInt8))) :
    Option (TaskServer × Slots) := do
  let (s, pid) ← taskCreate A ans stack s ppid type argv
  let msg ← Slots.appendInt A [] (if pid ≠ 0 then 0 else -1)
  let msg ← Slots.appendParam msg pid
  some (s, msg)

/-- A call that makes the process `pid`, which no task has, and returns -1. -/
structure CreateFails (s : TaskServer) (ppid : ℕ) (type : ℤ) (path : List UInt8)
    (argv : List (Option (List UInt8))) (pid : ℕ) (s' : TaskServer) : Prop where
  created : ans.processCreate type = pid ∧ pid ≠ 0 ∧ pid ≠ A.minusOne
  fresh : ∀ t ∈ s.tasks, t.pid ≠ pid
  failed : taskCreate A ans stack s ppid type (some path :: argv) = some (s', A.minusOne)

/-- The process has been asked to exit, and its entry goes when it has stopped. -/
def CreateUndone (s s' : TaskServer) (pid : ℕ) : Prop :=
  s'.exitAsked = pid :: s.exitAsked ∧ ∃ u, taskCleanup s' pid = some u ∧ ∀ t ∈ u.tasks, t.pid ≠ pid

/-- The client is told of an error. -/
def CreateReported (s : TaskServer) (ppid : ℕ) (type : ℤ) (argv : List (Option (List UInt8))) :
    Prop :=
  ∃ u msg err, taskApiTaskCreate A ans stack s ppid type argv = some (u, msg) ∧
    Slots.getInt msg 0 = some err ∧ err ≠ 0

def ElfLoads (s : TaskServer) (ppid pid : ℕ) (path : List UInt8) : Prop :=
  ∃ absPath, taskAbsPath ((s.find ppid).map TaskEntry.task) stack path = some absPath ∧
    (ans.execElf pid absPath).isSome

end Toddler
