import Toddler.Spec.Thread

/-! IPC (`kernel/proc/ipc.c`). A system call is one step: the lock of `ipc_wait_queue` is taken
before the queue is searched and, for a caller that has to wait, given up in `sleep_ipc_thread`. The
messages are in memory, and `ipcCopy` says which of them a call copies. -/

namespace Toddler

/-- History: `responder` woke `client` out of its request number `request`. `waitsFor` is the thread
that `ipc_wait` of the client named and `served` the request that the responder had to answer. -/
structure Answer where
  client : ℕ
  request : ℕ
  responder : ℕ
  waitsFor : ℕ
  served : Option (ℕ × ℕ)
  deriving DecidableEq, Repr

/-- The threads by `tid`, `popup_msg_handler` of each process by `pid`, and `ipc_wait_queue`.
`exchanges` is history: sender and receiver of each delivered request that awaits its reply. -/
structure IpcState where
  threads : ℕ → Option Thread
  procs : ℕ → Option ℕ
  systemPid : ℕ
  queue : List ℕ
  exchanges : List (ℕ × ℕ)
  answered : List Answer

namespace IpcState

def put (s : IpcState) (tid : ℕ) (t : Thread) : IpcState :=
  { s with threads := Function.update s.threads tid (some t) }

def caller (s : IpcState) (tid : ℕ) : Option Thread :=
  (s.threads tid).filter fun t => t.state = .normal

def findWaiting (s : IpcState) (p : ℕ → Thread → Bool) : Option (ℕ × Thread) :=
  s.queue.findSome? fun tid => (s.threads tid).bind fun t => if p tid t then some (tid, t) else none

def findReceiver (s : IpcState) (dstPid : ℕ) : Option (ℕ × Thread) :=
  s.findWaiting fun _ t => t.waitType = .forSerialReq ∧ t.ipcWait.pid = dstPid

def findSender (s : IpcState) (pid : ℕ) : Option (ℕ × Thread) :=
  s.findWaiting fun _ t => t.waitType = .forSerialRecv ∧ t.ipcWait.pid = pid

def findAwaiting (s : IpcState) (dst : IpcPeer) : Option (ℕ × Thread) :=
  if dst.pid ≠ 0 ∧ dst.tid ≠ 0 then
    s.findWaiting fun tid t => t.pid = dst.pid ∧ tid = dst.tid ∧ t.waitType = .forResp
  else none

def sleepIpcThread (s : IpcState) (tid : ℕ) (t : Thread) : Option IpcState := do
  let t ← t.setState .wait
  some { s.put tid t with queue := tid :: s.queue }

end IpcState

def ipcSendSerial : ℕ := 0x1
def ipcSendPopup : ℕ := 0x2
def ipcSendWaitForReply : ℕ := 0x4

/-- The popup branch of `ipc_request`; `newTid` is the address of the new thread. -/
def ipcPopup (s : IpcState) (tid : ℕ) (t : Thread) (dstPid : ℕ) (reply : Bool) (newTid : ℕ) :
    Option IpcState :=
  if newTid = 0 ∨ s.threads newTid ≠ none then none
  else
    let dst := (newThread dstPid).acquire
    if reply then do
      let t := { t with
        waitType := .forResp
        ipcWait := { t.ipcWait with pid := dst.pid, tid := newTid }
        refCount := t.refCount + 1
        ret := (0, 0) }
      let dst := { dst with
        ipcReplyTo := ⟨t.pid, tid⟩
        refCount := dst.refCount + 1
        serves := some (tid, t.requests) }
      let dst ← dst.release
      let dst ← dst.run
      { s.put newTid dst with exchanges := (tid, newTid) :: s.exchanges }.sleepIpcThread tid t
    else do
      let dst ← dst.release
      let dst ← dst.run
      some ((s.put newTid dst).put tid { t with ret := (0, 0) })

def ipcSendTo (s : IpcState) (tid : ℕ) (t : Thread) (recvTid : ℕ) (recv : Thread) (opcode : ℕ)
    (reply : Bool) : Option IpcState :=
  let s := { s with queue := s.queue.erase recvTid }
  if reply then do
    let t := { t with
      waitType := .forResp
      ipcWait := { t.ipcWait with pid := recv.pid, tid := recvTid }
      refCount := t.refCount + 1
      ret := (0, 0) }
    let recv := { recv with
      ipcReplyTo := ⟨t.pid, tid⟩
      refCount := recv.refCount + 1
      ret := (0, opcode)
      serves := some (tid, t.requests) }
    let recv ← recv.wakeup
    { s.put recvTid recv with exchanges := (tid, recvTid) :: s.exchanges }.sleepIpcThread tid t
  else do
    let recv := { recv with ret := (0, opcode) }
    let recv ← recv.wakeup
    some ((s.put recvTid recv).put tid { t with ret := (0, 0) })

def ipcRequest (s : IpcState) (tid dstPid opcode flags newTid : ℕ) : Option IpcState := do
  let t ← s.caller tid
  let t := { t with requests := t.requests + 1 }
  let dstPid := if dstPid = 0 then s.systemPid else dstPid
  let reply : Bool := flags &&& ipcSendWaitForReply ≠ 0
  if dstPid = 0 then none
  else
    match s.procs dstPid with
    | none => some (s.put tid { t with ret := (-1, 0) })
    | some popupEntry =>
      if flags &&& ipcSendPopup ≠ 0 ∧ popupEntry ≠ 0 then ipcPopup s tid t dstPid reply newTid
      else if flags &&& ipcSendSerial ≠ 0 then
        match s.findReceiver dstPid with
        | some (recvTid, recv) => ipcSendTo s tid t recvTid recv opcode reply
        | none =>
          s.sleepIpcThread tid { t with
            waitType := .forSerialRecv
            ipcWait := ⟨dstPid, 0, opcode, reply⟩
            ret := (0, 0) }
      else some (s.put tid { t with ret := (-1, 0) })

def ipcRespond (s : IpcState) (tid : ℕ) : Option IpcState := do
  let t ← s.caller tid
  match s.findAwaiting t.ipcReplyTo with
  | none => some (s.put tid { t with ret := (-1, 0) })
  | some (dstTid, dst) =>
    let awake ← ({ dst with refCount := dst.refCount - 1 } : Thread).wakeup
    let t' := { t with refCount := t.refCount - 1, ret := (0, 0), serves := none }
    some { (s.put dstTid awake).put tid t' with
      queue := s.queue.erase dstTid
      exchanges := s.exchanges.erase (dstTid, dst.ipcWait.tid)
      answered := ⟨dstTid, dst.requests, tid, dst.ipcWait.tid, t.serves⟩ :: s.answered }

def ipcReceive (s : IpcState) (tid : ℕ) : Option IpcState := do
  let t ← s.caller tid
  match s.findSender t.pid with
  | some (sendTid, sender) =>
    let s := { s with queue := s.queue.erase sendTid }
    let t := { t with
      ret := (0, sender.ipcWait.opcode) }
    if sender.ipcWait.needResponse then
      -- the sender is off the queue and stays in `THREAD_STATE_WAIT`
      let sender := { sender with
        waitType := .forResp
        ipcWait := { sender.ipcWait with pid := t.pid, tid := tid }
        refCount := sender.refCount + 1 }
      let t := { t with
        ipcReplyTo := ⟨sender.pid, sendTid⟩
        refCount := t.refCount + 1
        serves := some (sendTid, sender.requests) }
      some { (s.put sendTid sender).put tid t with exchanges := (sendTid, tid) :: s.exchanges }
    else do
      let sender ← ({ sender with ret := (0, sender.ipcWait.opcode) } : Thread).wakeup
      some ((s.put sendTid sender).put tid t)
  | none =>
    s.sleepIpcThread tid { t with
      waitType := .forSerialReq
      ipcWait := { t.ipcWait with pid := t.pid, tid := tid }
      ret := (0, 0) }

inductive IpcAction
  | request (tid dstPid opcode flags newTid : ℕ)
  | respond (tid : ℕ)
  | receive (tid : ℕ)
  deriving DecidableEq, Repr

def IpcAction.tid : IpcAction → ℕ
  | .request tid _ _ _ _ => tid
  | .respond tid => tid
  | .receive tid => tid

def ipcStep (s : IpcState) : IpcAction → Option IpcState
  | .request tid dstPid opcode flags newTid => ipcRequest s tid dstPid opcode flags newTid
  | .respond tid => ipcRespond s tid
  | .receive tid => ipcReceive s tid

/-- Any set of threads, none of them in an exchange. -/
structure IpcInit (s : IpcState) : Prop where
  queue : s.queue = []
  exchanges : s.exchanges = []
  answered : s.answered = []
  tid : s.threads 0 = none
  threads : ∀ tid t, s.threads tid = some t →
    (t.state = .enter ∨ t.state = .normal) ∧ t.pid ≠ 0 ∧ t.serves = none

/-- A thread sleeps in IPC exactly when it is linked once on `ipc_wait_queue`. -/
structure WaitConsistent (s : IpcState) : Prop where
  once : s.queue.Nodup
  linked : ∀ tid, tid ∈ s.queue ↔ ∃ t, s.threads tid = some t ∧ t.state = .wait

/-- A thread that waits for a reply is the one that `ipc_respond` of its responder finds. -/
def Findable (s : IpcState) : Prop :=
  ∀ tid t, s.threads tid = some t → t.state = .wait → t.waitType = .forResp →
    ∃ r, s.threads t.ipcWait.tid = some r ∧ s.findAwaiting r.ipcReplyTo = some (tid, t)

/-- Every reply so far went to the thread that was waiting for it from this responder, for the
request that the responder had been given, and no request was answered twice. -/
structure RepliesAuthentic (s : IpcState) : Prop where
  named : ∀ a ∈ s.answered, a.waitsFor = a.responder
  served : ∀ a ∈ s.answered, a.served = some (a.client, a.request)
  once : (s.answered.map fun a => (a.client, a.request)).Nodup

/-- `ipc_receive` finds no queued sender that expects a reply. -/
def NoQueuedReply (s : IpcState) : IpcAction → Prop
  | .receive tid => ∀ t ∈ s.threads tid, ∀ x ∈ s.findSender t.pid, x.2.ipcWait.needResponse = false
  | _ => True

/-- Moreover, a request with reply meets no waiting receiver that still owes one. -/
def OneReplyOwed (s : IpcState) (a : IpcAction) : Prop :=
  NoQueuedReply s a ∧
    match a with
    | .request _ dstPid _ flags _ => flags &&& ipcSendWaitForReply ≠ 0 →
        ∀ r ∈ s.findReceiver (if dstPid = 0 then s.systemPid else dstPid), r.2.serves = none
    | _ => True

/-- `ipc_respond` is called by threads that have a request to answer, or have no one to reply to. -/
def RespondsOnce (s : IpcState) : IpcAction → Prop
  | .respond tid => ∀ t ∈ s.threads tid, t.serves ≠ none ∨ t.ipcReplyTo.tid = 0
  | _ => True

instance NoQueuedReply.decidable (s : IpcState) (a : IpcAction) :
    Decidable (NoQueuedReply s a) := by
  cases a <;> unfold NoQueuedReply <;> infer_instance

instance OneReplyOwed.decidable (s : IpcState) (a : IpcAction) : Decidable (OneReplyOwed s a) := by
  cases a <;> unfold OneReplyOwed <;> infer_instance

instance RespondsOnce.decidable (s : IpcState) (a : IpcAction) : Decidable (RespondsOnce s a) := by
  cases a <;> unfold RespondsOnce <;> infer_instance

end Toddler
