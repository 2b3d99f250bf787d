import Toddler.Spec.Ipc

/-! The life of a thread: creation, `acquire_thread` handles, `purge_ipc_queue`, and the exit
through `dispatch` and `exit_thread`, next to the IPC calls. -/

namespace Toddler

def createThread (s : IpcState) (pid newTid : ℕ) : Option IpcState :=
  if pid = 0 ∨ newTid = 0 ∨ s.threads newTid ≠
    none then none else some (s.put newTid (newThread pid))

def dropReply (s : IpcState) (client server : ℕ) : Option IpcState :=
  let s := { s with exchanges := s.exchanges.erase (client, server) }
  match s.threads server with
  | none => some s
  | some r => do
    let r := r.acquire
    let r ← ({ r with ipcReplyTo := ⟨0, 0⟩, refCount := r.refCount - 1, serves := none } : Thread).release
    some (s.put server r)

def purgeOne (s : IpcState) (tid : ℕ) : Option IpcState := do
  let t ← s.threads tid
  let s := { s with queue := s.queue.erase tid }.put tid { t with refCount := t.refCount - 1 }
  let s ← if t.waitType = .forResp ∧ t.ipcWait.tid ≠ 0 then dropReply s tid t.ipcWait.tid
    else some s
  let t ← s.threads tid
  let t ← t.wakeup
  some (s.put tid t)

def IpcState.waitingOf (s : IpcState) (pid : ℕ) : List ℕ :=
  s.queue.filter fun tid => (s.threads tid).any fun t => t.pid = pid

def purgeIpcQueue (s : IpcState) (pid : ℕ) : Option IpcState := (s.waitingOf pid).foldlM purgeOne s

/-- The exit of the thread `tid`: `dispatch` gives up the reference of `run_thread` and
`exit_thread` the last one. -/
def exitThread (s : IpcState) (tid : ℕ) : Option IpcState := do
  let t ← s.caller tid
  if t.refCount - 1 - 1 ≠ 0
    then none else some { s with threads := Function.update s.threads tid none }

inductive ThreadAction
  | create (pid newTid : ℕ)
  | run (tid : ℕ)
  | acquire (tid : ℕ)
  | release (tid : ℕ)
  | ipc (a : IpcAction)
  | purge (pid : ℕ)
  | exit (tid : ℕ)
  deriving DecidableEq, Repr

def threadStep (s : IpcState) : ThreadAction → Option IpcState
  | .create pid newTid => createThread s pid newTid
  | .run tid => do
    let t ← s.threads tid
    if t.state = .enter then
      let t ← t.run
      some (s.put tid t)
    else none
  | .acquire tid => do
    let t ← s.threads tid
    some (s.put tid t.acquire)
  -- by someone who holds a handle
  | .release tid => do
    let t ← s.threads tid
    if t.handles = 0 then none
    else
      let t ← t.release
      some (s.put tid t)
  | .ipc a => ipcStep s a
  | .purge pid => purgeIpcQueue s pid
  | .exit tid => exitThread s tid

structure NoThreads (s : IpcState) : Prop where
  threads : ∀ tid, s.threads tid = none
  queue : s.queue = []
  exchanges : s.exchanges = []

/-- The unanswered exchanges that the thread takes part in. -/
def IpcState.openExchanges (s : IpcState) (tid : ℕ) : ℕ :=
  s.exchanges.countP fun e => e.1 = tid ∨ e.2 = tid

/-- One reference for the thread itself, one for running it, one for each open exchange and one for
each handle. -/
def RefCountsMatch (s : IpcState) : Prop :=
  ∀ tid t, s.threads tid = some t →
    t.refCount = 1 + (if t.ran then 1 else 0) + s.openExchanges tid + t.handles

/-- Replies are sent once, and `purge_ipc_queue` meets only threads that wait for a reply. -/
def RefsKept (s : IpcState) : ThreadAction → Prop
  | .ipc a => RespondsOnce s a
  | .purge pid => ∀ x ∈ s.waitingOf pid, ∀ t ∈ s.threads x, t.waitType = .forResp
  | _ => True

instance RefsKept.decidable (s : IpcState) (a : ThreadAction) : Decidable (RefsKept s a) := by
  cases a <;> unfold RefsKept <;> infer_instance

end Toddler
