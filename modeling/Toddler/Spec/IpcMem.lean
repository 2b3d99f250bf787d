import Toddler.Spec.Ipc
import Toddler.Spec.Message

/-! The calls of `kernel/proc/ipc.c` with the message areas in memory. `area` is
`memory.msg.start_paddr_ptr` of a thread: the physical address of its message area, which user code
fills as it likes. -/

namespace Toddler

/-- Destination and source of the `copy_msg` that a call makes. -/
def ipcCopy (s : IpcState) : IpcAction → Option (ℕ × ℕ)
  | .request tid dstPid _ flags newTid =>
    let dstPid := if dstPid = 0 then s.systemPid else dstPid
    (s.procs dstPid).bind fun popupEntry =>
      if flags &&& ipcSendPopup ≠ 0 ∧ popupEntry ≠ 0 then some (newTid, tid)
      else if flags &&& ipcSendSerial ≠ 0 then (s.findReceiver dstPid).map fun r => (r.1, tid)
      else none
  | .respond tid => (s.threads tid).bind fun t => (s.findAwaiting t.ipcReplyTo).map fun c =>
    (c.1, tid)
  | .receive tid => (s.threads tid).bind fun t => (s.findSender t.pid).map fun c => (tid, c.1)

def IpcState.pidOf (s : IpcState) (x : ℕ) : ℕ := ((s.threads x).map Thread.pid).getD 0

structure IpcMem where
  ipc : IpcState
  mem : ByteMem
  area : ℕ → ℕ

def IpcMem.copy (A : Arch) (s : IpcMem) (a : IpcAction) : Message.Traced :=
  match ipcCopy s.ipc a with
  | none => Message.Traced.start s.mem
  | some (dst, src) =>
    Message.copyMsg A (s.area dst) (s.area src) (s.ipc.pidOf src) src (Message.Traced.start s.mem)

def IpcMem.step (A : Arch) (s : IpcMem) (a : IpcAction) : Option IpcMem :=
  (ipcStep s.ipc a).map fun ipc => { s with ipc := ipc, mem := (s.copy A a).mem }

def AreasApart (area : ℕ → ℕ) : Prop :=
  ∀ x y, x ≠ y → NoOverlap (area x) maxMsgSize (area y) maxMsgSize

def InArea (b : ℕ) (r : ℕ × ℕ) : Prop := b ≤ r.1 ∧ r.1 + r.2 ≤ b + maxMsgSize

/-- A call reads in the area of its source and writes in the area of its destination only, and
changes nothing outside it. -/
structure Confined (A : Arch) (s : IpcMem) (a : IpcAction) : Prop where
  reads : ∀ r ∈ (s.copy A a).reads, ∃ dst src, ipcCopy s.ipc a = some (dst,
    src) ∧ InArea (s.area src) r
  writes : ∀ w ∈ (s.copy A a).writes, ∃ dst src, ipcCopy s.ipc a = some (dst,
    src) ∧ InArea (s.area dst) w
  changes : ∀ x, (s.copy A a).mem x ≠ s.mem x → ∃ dst src, ipcCopy s.ipc a = some (dst, src) ∧
    InArea (s.area dst) (x, 1)

def CopiesFit (A : Arch) (s : IpcMem) (a : IpcAction) : Prop :=
  ∀ p ∈ ipcCopy s.ipc a, Message.getBits A s.mem (s.area p.2) A.numDataWords ≤ A.maxMsgDataWords

instance CopiesFit.decidable (A : Arch) (s : IpcMem) (a : IpcAction) :
    Decidable (CopiesFit A s a) := by
  unfold CopiesFit
  infer_instance

/-- What a message says, apart from the sender fields that the kernel fills in. -/
structure Content where
  size : ℕ
  params : List ℕ
  data : List UInt8
  deriving DecidableEq, Repr

def content (A : Arch) (m : ByteMem) (b : ℕ) : Content where
  size := A.loadWord m b
  params := (List.range (Message.getBits A m b A.numParams)).map fun i =>
    A.loadWord m (Message.paramAddr A b i)
  data := m.load (Message.dataAddr A b) (Message.getBits A m b A.numDataWords * A.bytes)

/-- The destination has the message of the source, with the ids of the source filled in. Every other
thread keeps its message area, and but for the source its record. -/
structure Transferred (A : Arch) (s s' : IpcMem) (dst src : ℕ) : Prop where
  content : content A s'.mem (s.area dst) = content A s.mem (s.area src)
  senderPid : A.loadWord s'.mem (s.area dst + A.bytes) = s.ipc.pidOf src
  senderTid : A.loadWord s'.mem (s.area dst + 2 * A.bytes) = src
  areas : ∀ x ≠ dst, ∀ i < maxMsgSize, s'.mem (s.area x + i) = s.mem (s.area x + i)
  threads : ∀ x, x ≠ dst → x ≠ src → s'.ipc.threads x = s.ipc.threads x

/-- History: a serial request, the `number`-th of its sender, with the message at the time of the
call. -/
structure Posted where
  sender : ℕ
  number : ℕ
  senderPid : ℕ
  dstPid : ℕ
  opcode : ℕ
  reply : Bool
  content : Content
  deriving DecidableEq, Repr

/-- History: the `receive`-th `ipc_receive` of `receiver` completes with a request. The last four
fields are what the receiver finds in its result and in its message area. -/
structure Match where
  receiver : ℕ
  receive : ℕ
  sender : ℕ
  number : ℕ
  opcode : ℕ
  senderPid : ℕ
  senderTid : ℕ
  content : Content
  deriving DecidableEq, Repr

/-- `receives` counts the calls of `ipc_receive` of each thread. -/
structure SerialState extends IpcMem where
  receives : ℕ → ℕ
  posted : List Posted
  matched : List Match

inductive SerialAction
  | request (tid dstPid opcode flags : ℕ)
  | receive (tid : ℕ)
  /-- A running thread stores a byte in its own message area. -/
  | store (tid offset : ℕ) (byte : UInt8)
  deriving DecidableEq, Repr

namespace SerialState

def call : SerialAction → Option IpcAction
  | .request tid dstPid opcode flags => some (.request tid dstPid opcode flags 0)
  | .receive tid => some (.receive tid)
  | .store _ _ _ => none

def popup (s : IpcState) (dstPid flags : ℕ) : Bool :=
  flags &&& ipcSendPopup ≠ 0 ∧ (s.procs (if dstPid = 0 then s.systemPid else dstPid)).any (· ≠ 0)

/-- The history entry of a request that takes the serial branch. -/
def post (A : Arch) (s : SerialState) (tid dstPid opcode flags : ℕ) : Option Posted :=
  let dstPid := if dstPid = 0 then s.ipc.systemPid else dstPid
  if (s.ipc.procs dstPid).isSome ∧ flags &&& ipcSendSerial ≠ 0 then
    (s.ipc.threads tid).map fun t =>
      ⟨tid, t.requests + 1, t.pid, dstPid, opcode, decide (flags &&& ipcSendWaitForReply ≠ 0),
        Toddler.content A s.mem (s.area tid)⟩
  else none

def matchOf (A : Arch) (s : SerialState) (dst src : ℕ) : Match where
  receiver := dst
  receive := s.receives dst
  sender := src
  number := ((s.ipc.threads src).map Thread.requests).getD 0
  opcode := ((s.ipc.threads dst).map fun t => t.ret.2).getD 0
  senderPid := A.loadWord s.mem (s.area dst + A.bytes)
  senderTid := A.loadWord s.mem (s.area dst + 2 * A.bytes)
  content := Toddler.content A s.mem (s.area dst)

def perform (A : Arch) (s : SerialState) (a : IpcAction) : Option SerialState :=
  (ipcStep s.ipc a).map fun ipc =>
    let s' := { s with ipc := ipc, mem := (s.toIpcMem.copy A a).mem }
    match ipcCopy s.ipc a with
    | none => s'
    | some (dst, src) => { s' with matched := matchOf A s' dst src :: s'.matched }

def step (A : Arch) (s : SerialState) : SerialAction → Option SerialState
  | .request tid dstPid opcode flags =>
    if popup s.ipc dstPid flags then none
    else ({ s with posted := (post A s tid dstPid opcode flags).toList ++ s.posted }).perform A
      (.request tid dstPid opcode flags 0)
  | .receive tid =>
    ({ s with receives := Function.update s.receives tid (s.receives tid + 1) }).perform A (.receive tid)
  | .store tid offset byte =>
    if (s.ipc.caller tid).isSome ∧ offset < maxMsgSize then
      some { s with mem := s.mem.store (s.area tid + offset) [byte] }
    else none

/-- Any set of threads, none of them in an exchange, with process and thread ids that fit a word. -/
structure Init (A : Arch) (s : SerialState) : Prop where
  ipc : IpcInit s.ipc
  areas : AreasApart s.area
  ids : ∀ tid t, s.ipc.threads tid = some t → tid < A.ulong ∧ t.pid < A.ulong
  receives : s.receives = fun _ => 0
  posted : s.posted = []
  matched : s.matched = []

def Fit (A : Arch) (s : SerialState) (a : SerialAction) : Prop :=
  ∀ c ∈ call a, CopiesFit A s.toIpcMem c

instance Fit.decidable (A : Arch) (s : SerialState) (a : SerialAction) : Decidable (Fit A s a) := by
  unfold Fit
  infer_instance

end SerialState

def Thread.sending (t : Thread) : Prop := t.state = .wait ∧ t.waitType = .forSerialRecv

def Thread.receiving (t : Thread) : Prop := t.state = .wait ∧ t.waitType = .forSerialReq

/-- The receiver got this request: addressed to its process, with its opcode, contents and
sender. -/
structure Match.Of (m : Match) (r : Posted) (receiver : Thread) : Prop where
  sender : m.sender = r.sender ∧ m.number = r.number
  addressed : r.dstPid = receiver.pid
  opcode : m.opcode = r.opcode
  content : m.content = r.content
  senderPid : m.senderPid = r.senderPid
  senderTid : m.senderTid = r.sender

structure SerialState.Delivered (s : SerialState) : Prop where
  /-- The completed receives are exactly those with a match, and each has one. -/
  completed : ∀ tid k, (∃ m ∈ s.matched, m.receiver = tid ∧ m.receive = k) ↔
    1 ≤ k ∧ k ≤ s.receives tid ∧ ¬ (k = s.receives tid ∧ ∃ t, s.ipc.threads tid = some t ∧
    t.receiving)
  receiveOnce : (s.matched.map fun m => (m.receiver, m.receive)).Nodup
  /-- A match belongs to one request, and no request has two. -/
  authentic : ∀ m ∈ s.matched, ∃ t, s.ipc.threads m.receiver = some t ∧ ∃ r ∈ s.posted, m.Of r t
  requestOnce : (s.posted.map fun r => (r.sender, r.number)).Nodup
  matchOnce : (s.matched.map fun m => (m.sender, m.number)).Nodup
  /-- A sender that does not wait for a reply sleeps until its request is matched. -/
  returns : ∀ r ∈ s.posted, r.reply = false →
    (∃ m ∈ s.matched, m.sender = r.sender ∧ m.number = r.number) ∨
    ∃ t, s.ipc.threads r.sender = some t ∧ t.sending ∧ t.requests = r.number

end Toddler
