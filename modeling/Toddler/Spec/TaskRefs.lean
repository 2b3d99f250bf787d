import Toddler.Lib.Run
import Toddler.Spec.Wait

/-! The life of one `struct task` of the system server (`system/task/task.c`, `system/api/task.c`),
shared by the threads `ι` that handle requests. A step is one access of the structure, one section
under `tasks.rwlock` or `task->rwlock`, or one system call. The condition `exit` is the one of
`libc/kth/condvar.c`; the structure comes zeroed from its constructor, so `max_spin` is 0. -/

namespace Toddler

inductive TaskState
  | enter
  | run
  | detach
  | exit
  deriving DecidableEq, Repr

/-- What a thread does with the task it looks up. `other` stands for the walks over the list on
behalf of other tasks, which read the structure only while it is linked. -/
inductive TaskCall
  | wait
  | exit (status : ℕ)
  | detach (status : ℕ)
  | access
  | cleanup
  | other
  deriving DecidableEq, Repr

/-- `cond_wait` on `exit`, and the read of `exit_status` after it. -/
inductive CondWaitPc
  | spin
  | load
  | cas (fOld : Futex)
  | wait
  | waiting
  | status
  deriving DecidableEq, Repr

/-- The body of `task_exit` and `task_detach`. -/
inductive EndPc
  | state (status : ℕ)
  | status (status : ℕ)
  | load
  | cas (fOld : Futex)
  | clearLoad
  | clearCas (fOld : Futex)
  | wake
  | processExit
  deriving DecidableEq, Repr

/-- `task_cleanup` after its own `acquire_task`, with `del_task`. -/
inductive CleanupPc
  | release
  | isZero
  | unlink
  | sfree
  | recycle
  deriving DecidableEq, Repr

inductive TaskPc
  | idle
  | acquire (call : TaskCall)
  | wait (pc : CondWaitPc)
  | finish (exits : Bool) (pc : EndPc)
  | access
  | release
  | cleanup (pc : CleanupPc)
  deriving DecidableEq, Repr

structure TaskConfig (ι : Type) where
  pid : ℕ
  exitPtr : ℕ
  tid : ι → ℕ

/-- `linked`: on the list `tasks`. `stopping`: the kernel was asked to stop the process, so that its
cleaner may send the one notification. `panicked` and `usedFreed` record a failed `panic_if` of
`del_task` and a use of the structure after `sfree`. -/
structure TaskRefs (ι : Type) where
  state : TaskState
  exit : Futex
  exitStatus : ℕ
  refCount : ℕ
  linked : Bool
  freed : Bool
  waitQueue : List Waiter
  stopping : Bool
  notified : Bool
  thread : ι → TaskPc
  panicked : Bool
  usedFreed : Bool

/-- `request t call`: a request whose handler looks the task up. `touch t`: one more use of the
structure inside an `access_task`. -/
inductive TaskAction (ι : Type)
  | request (t : ι) (call : TaskCall)
  | notify (t : ι)
  | touch (t : ι)
  | step (t : ι)
  deriving DecidableEq, Repr

variable {ι : Type}

/-- After `new_task`, with the state that `task_create` or `init_task` has set. -/
def TaskRefs.init (state : TaskState) : TaskRefs ι where
  state := state
  exit := Futex.zero
  exitStatus := 0
  refCount := 0
  linked := true
  freed := false
  waitQueue := []
  stopping := false
  notified := false
  thread := fun _ => .idle
  panicked := false
  usedFreed := false

def TaskRefs.Asleep (c : TaskConfig ι) (s : TaskRefs ι) (t : ι) : Prop :=
  ∃ w ∈ s.waitQueue, w.tid = c.tid t

instance TaskRefs.decidableAsleep (c : TaskConfig ι) (s : TaskRefs ι) (t : ι) :
    Decidable (s.Asleep c t) :=
  inferInstanceAs (Decidable (∃ w ∈ s.waitQueue, w.tid = c.tid t))

/-- The next step at this place reads or writes the structure. A wait or wake system call reads the
word `exit`; a search reads what is linked. -/
def TaskPc.uses (linked : Bool) : TaskPc → Bool
  | .idle | .wait .waiting | .finish _ .processExit => false
  | .cleanup .sfree | .cleanup .recycle => false
  | .acquire _ => linked
  | .wait _ | .finish _ _ | .access | .release | .cleanup _ => true

def TaskRefs.use (s : TaskRefs ι) (pc : TaskPc) : TaskRefs ι :=
  { s with usedFreed := s.usedFreed || (s.freed && pc.uses s.linked) }

variable [DecidableEq ι]

def TaskRefs.setThread (s : TaskRefs ι) (t : ι) (pc : TaskPc) : TaskRefs ι :=
  { s with thread := Function.update s.thread t pc }

def TaskCall.found : TaskCall → TaskPc
  | .wait => .wait .spin
  | .exit status => .finish true (.state status)
  | .detach status => .finish false (.state status)
  | .access => .access
  | .cleanup => .cleanup .release
  | .other => .idle

/-- `acquire_task`. A task that is not found ends the access; `task_cleanup` alone goes on, with a
null pointer. -/
def acquireTask (s : TaskRefs ι) (t : ι) (call : TaskCall) : Option (TaskRefs ι) :=
  match s.linked, call with
  | _, .other => some (s.setThread t .idle)
  | true, call => some ({ s with refCount := s.refCount + 1 }.setThread t call.found)
  | false, .cleanup => none
  | false, _ => some (s.setThread t .idle)

def condWaitStep (c : TaskConfig ι) (s : TaskRefs ι) (t : ι) : CondWaitPc → Option (TaskRefs ι)
  | .spin => some (s.setThread t (.wait (if s.exit.locked ≠ 0 then .status else .load)))
  | .load => some (s.setThread t (.wait (if s.exit.locked ≠ 0 then .status else .cas s.exit)))
  | .cas fOld =>
    if s.exit = fOld then
      some ({ s with exit := { fOld with kernel := true } }.setThread t (.wait .wait))
    else some (s.setThread t (.wait .load))
  | .wait =>
    match waitOnObject (some s.exit) c.pid (c.tid t) .futex c.exitPtr futexWhenEq 0 0 with
    | some w => some ({ s with waitQueue := sleepThread s.waitQueue w }.setThread t (.wait .waiting))
    | none => some (s.setThread t (.wait .status))
  | .waiting => if s.Asleep c t then none else some (s.setThread t (.wait .status))
  | .status => some (s.setThread t .release)

def signalled (exits : Bool) : TaskPc := if exits then .finish exits .processExit else .release

def finishStep (c : TaskConfig ι) (s : TaskRefs ι) (t : ι) (exits : Bool) : EndPc → TaskRefs ι
  | .state status =>
    if exits then
      if s.state ≠ .exit then { s with state := .exit }.setThread t (.finish exits (.status status))
      else s.setThread t .release
    else
      if s.state = .run then { s with state := .detach }.setThread t (.finish exits (.status status))
      else s.setThread t .release
  | .status status => { s with exitStatus := status }.setThread t (.finish exits .load)
  | .load => s.setThread t (.finish exits (.cas s.exit))
  | .cas fOld =>
    if s.exit = fOld then
      { s with exit := { fOld with locked := 1 } }.setThread t
        (if fOld.kernel then .finish exits .clearLoad else signalled exits)
    else s.setThread t (.finish exits .load)
  | .clearLoad =>
    s.setThread t (if s.exit.kernel then .finish exits (.clearCas s.exit) else signalled exits)
  | .clearCas fOld =>
    if s.exit = fOld then
      { s with exit := { fOld with kernel := false } }.setThread t (.finish exits .wake)
    else s.setThread t (.finish exits .clearLoad)
  | .wake =>
    { s with waitQueue := (wakeOnObject s.waitQueue (some s.exit) c.pid .futex c.exitPtr
      (futexWhenEq + 1) 0).1 }.setThread t (signalled exits)
  | .processExit => { s with stopping := true }.setThread t .release

def releaseTask (s : TaskRefs ι) : TaskRefs ι := { s with refCount := s.refCount - 1 }

def cleanupStep (s : TaskRefs ι) (t : ι) : CleanupPc → TaskRefs ι
  | .release => (releaseTask s).setThread t (.cleanup .isZero)
  | .isZero =>
    if s.refCount ≠ 0 then { s with panicked := true }.setThread t .idle
    else s.setThread t (.cleanup .unlink)
  | .unlink => { s with linked := false }.setThread t (.cleanup .sfree)
  | .sfree => { s with freed := true }.setThread t (.cleanup .recycle)
  | .recycle => s.setThread t .idle

def taskPcStep (c : TaskConfig ι) (s : TaskRefs ι) (t : ι) : TaskPc → Option (TaskRefs ι)
  | .idle => none
  | .acquire call => acquireTask s t call
  | .wait pc => condWaitStep c s t pc
  | .finish exits pc => some (finishStep c s t exits pc)
  | .access => some (s.setThread t .release)
  | .release => some ((releaseTask s).setThread t .idle)
  | .cleanup pc => some (cleanupStep s t pc)

def taskStep (c : TaskConfig ι) (s : TaskRefs ι) : TaskAction ι → Option (TaskRefs ι)
  | .request t call =>
    if s.thread t = .idle ∧ call ≠ .cleanup then some (s.setThread t (.acquire call)) else none
  | .notify t =>
    if s.thread t = .idle ∧ s.stopping = true ∧ s.notified = false then
      some ({ s with notified := true }.setThread t (.acquire .cleanup))
    else none
  | .touch t => if s.thread t = .access then some (s.use .access) else none
  | .step t => taskPcStep c (s.use (s.thread t)) t (s.thread t)

/-- The thread is inside an `access_task` of the task, its search included, or in `del_task` before
the task is unlinked. -/
def TaskPc.engaged : TaskPc → Bool
  | .idle | .acquire .other | .cleanup .sfree | .cleanup .recycle => false
  | .acquire _ | .wait _ | .finish _ _ | .access | .release | .cleanup _ => true

def TaskPc.cleaning : TaskPc → Bool
  | .acquire .cleanup | .cleanup .release | .cleanup .isZero | .cleanup .unlink => true
  | _ => false

/-- `task_cleanup` starts when no thread is engaged with the task, and no request for the task
starts until it is unlinked. -/
def CleanupAlone (s : TaskRefs ι) : TaskAction ι → Prop
  | .notify _ => ∀ j, (s.thread j).engaged = false
  | .request _ call => call ≠ .other → ∀ j, (s.thread j).cleaning = false
  | .touch _ | .step _ => True

instance CleanupAlone.decidable [Fintype ι] (s : TaskRefs ι) (a : TaskAction ι) :
    Decidable (CleanupAlone s a) :=
  match a with
  | .notify _ => inferInstanceAs (Decidable (∀ j, (s.thread j).engaged = false))
  | .request _ call =>
    inferInstanceAs (Decidable (call ≠ .other → ∀ j, (s.thread j).cleaning = false))
  | .touch _ | .step _ => isTrue trivial

end Toddler
