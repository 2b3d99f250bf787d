import Toddler.Lib.Run
import Mathlib.Tactic

/-! Threads as IPC sees them: `struct thread` and its state and reference count
(`kernel/proc/thread.c`). A panic is `none`. -/

namespace Toddler

inductive ThreadState
  | enter
  | normal
  | wait
  | exit
  deriving DecidableEq, Repr

inductive IpcWaitType
  | forResp
  | forSerialRecv
  | forSerialReq
  deriving DecidableEq, Repr

structure IpcPeer where
  pid : ℕ
  tid : ℕ
  deriving DecidableEq, Repr

structure IpcWait where
  pid : ℕ
  tid : ℕ
  opcode : ℕ
  needResponse : Bool
  deriving DecidableEq, Repr

/-- `struct thread`, found by its `tid`. `ret` is the result of its last system call. The last four
fields are history: whether `run_thread` has been called, the handles of `acquire_thread` in use,
the number of `ipc_request` calls made, and the request (sender and number) that was delivered last
with a reply expected and has not been answered. -/
structure Thread where
  pid : ℕ
  state : ThreadState
  waitType : IpcWaitType
  ipcWait : IpcWait
  ipcReplyTo : IpcPeer
  refCount : ℤ
  ret : ℤ × ℕ
  ran : Bool
  handles : ℕ
  requests : ℕ
  serves : Option (ℕ × ℕ)
  deriving DecidableEq, Repr

/-- `create_exec_context`; `salloc` clears the structure. -/
def newThread (pid : ℕ) : Thread where
  pid := pid
  state := .enter
  waitType := .forResp
  ipcWait := ⟨0, 0, 0, false⟩
  ipcReplyTo := ⟨0, 0⟩
  refCount := 1
  ret := (0, 0)
  ran := false
  handles := 0
  requests := 0
  serves := none

def Thread.setState (t : Thread) (state : ThreadState) : Option Thread :=
  match state with
  | .normal => if t.state = .enter ∨ t.state = .wait then some { t with state := .normal } else none
  | .wait => if t.state = .normal then some { t with state := .wait } else none
  | .exit => if t.state = .normal ∨ t.state = .wait then some { t with state := .exit } else none
  | .enter => none

def Thread.acquire (t : Thread) : Thread :=
  { t with refCount := t.refCount + 1, handles := t.handles + 1 }

def Thread.release (t : Thread) : Option Thread :=
  if t.refCount ≤ 0
    then none else some { t with refCount := t.refCount - 1, handles := t.handles - 1 }

def Thread.run (t : Thread) : Option Thread :=
  ({ t with refCount := t.refCount + 1, ran := true } : Thread).setState .normal

def Thread.wakeup (t : Thread) : Option Thread := t.setState .normal

end Toddler
