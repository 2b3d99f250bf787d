import Toddler.Spec.Ventry

/-! The open request of a client: `task_abs_path` and `task_alloc_fd` of `system/task/task.c`, and
`vfs_api_acquire` of `system/api/vfs.c`. Of the tasks only that of the client is read. -/

namespace Toddler

structure TaskStruct where
  workDir : List UInt8
  files : FdTable ℕ

/-- `cwd_buf`: `strncpy` copies 510 bytes of a working directory that is longer, and what follows
them in the buffer is what was on the stack. -/
def cwdBuf (workDir : List UInt8) (stack : ℕ → UInt8) : List UInt8 :=
  let cwd :=
    if workDir.length < 510 then workDir else workDir.take 510 ++ [stack 510, stack 511].takeWhile (· ≠ 0)
  if cwd.getLast? = some 0x2f then cwd else cwd ++ [0x2f]

def taskAbsPath (task : Option TaskStruct) (stack : ℕ → UInt8) (pathname : List UInt8) :
    Option (List UInt8) :=
  let pathname := pathname.dropWhile fun c => c = 0x20 ∨ c = 0x09
  if pathname.head? = some 0x2f then some pathname
  else task.map fun t => cwdBuf t.workDir stack ++ pathname

def taskAllocFd (task : Option TaskStruct) (vent : Option ℕ) : Option TaskStruct × ℤ :=
  match task with
  | none => (none, -1)
  | some t =>
    match (List.range maxNumFiles).find? fun i => !(t.files i).inuse with
    | none => (some t, -1)
    | some i => (some { t with files := Function.update t.files i ⟨true, vent⟩ }, i)

section Acquire

variable (A : Arch) (depth : ℕ) (fs : FsAnswers) (salloc : Vfs → ℕ)

/-- What the server has after a request, and the messages that it responded with. -/
structure Opened where
  vfs : Vfs
  task : Option TaskStruct
  responses : List Slots

/-- The path that `vfs_api_acquire` has `vfs_acquire` look for; `NULL` is walked as the empty
path. -/
def acquirePath (task : Option TaskStruct) (stack : ℕ → UInt8) (pathname : List UInt8) :
    List UInt8 :=
  (taskAbsPath task stack pathname).getD []

/-- `!vent || !vent->vnode`. -/
def Vfs.notAcquired (s : Vfs) : Option ℕ → Bool
  | none => true
  | some v => (s.vnode v).isNone

def vfsApiAcquire (stack : ℕ → UInt8) (s : Vfs) (task : Option TaskStruct) (msg : Slots) :
    Option Opened := do
  let (pathname, _) ← Slots.getData A msg 0
  let pathname ← cstrOf pathname
  let (s, vent) ← s.vfsAcquire depth fs salloc (acquirePath task stack pathname.chars)
  let err ← Slots.appendInt A [] (-1)
  -- `_err_response` responds, and the handler goes on
  let responses := if s.notAcquired vent then [err] else []
  let (task, fd) := taskAllocFd task vent
  let msg ← Slots.appendInt A [] 0
  let msg ← Slots.appendInt A msg fd
  some ⟨s, task, responses ++ [msg]⟩

def Resolves (s : Vfs) (path : List UInt8) : Prop :=
  ∃ t v, s.vfsAcquire depth fs salloc path = some (t, some v)

def FdFree (task : TaskStruct) : Prop := ∃ fd < maxNumFiles, (task.files fd).inuse = false

/-- The response is an error, and the descriptors and the counts are as they were. -/
structure OpenRefused (s : Vfs) (task : TaskStruct) (r : Opened) (resp : Slots) : Prop where
  error : ∃ err, Slots.getInt resp 0 = some err ∧ err ≠ 0
  files : r.task = some task
  counts : ∀ v ∈ s.live, r.vfs.refCount v = s.refCount v

/-- The response is a descriptor that was free and is that of the ventry acquired. -/
def OpenGranted (s : Vfs) (task : TaskStruct) (path : List UInt8) (r : Opened) (resp : Slots) :
    Prop :=
  ∃ fd v, fd < maxNumFiles ∧ (task.files fd).inuse = false ∧ Slots.getInt resp 0 = some 0 ∧
    Slots.getInt resp 1 = some (fd : ℤ) ∧
    s.vfsAcquire depth fs salloc path = some (r.vfs, some v) ∧
    r.task = some { task with files := Function.update task.files fd ⟨true, some v⟩ }

/-- The request of a client with the task, for the path that `pathname` is. -/
def AllOrNothing (stack : ℕ → UInt8) (s : Vfs) (task : TaskStruct) (pathname : List UInt8)
    (msg : Slots) : Prop :=
  ∃ r resp, vfsApiAcquire A depth fs salloc stack s (some task) msg = some r ∧
    r.responses = [resp] ∧
    (¬ (Resolves depth fs salloc s (acquirePath (some task) stack pathname) ∧ FdFree task) →
      OpenRefused s task r resp) ∧
    (Resolves depth fs salloc s (acquirePath (some task) stack pathname) ∧ FdFree task →
      OpenGranted depth fs salloc s task (acquirePath (some task) stack pathname) r resp)

end Acquire

end Toddler
