import Toddler.Spec.Ipc
import Mathlib.Tactic

/-! What one IPC call does, said once, and from it the wait queue's consistency and the authenticity
of replies. -/

namespace Toddler

open Function List Option

variable {tid x pid : ℕ} {t : Thread}

namespace IpcState

@[simp] theorem put_threads (s : IpcState) (tid : ℕ) (t : Thread) (x : ℕ) :
    (s.put tid t).threads x = if x = tid then some t else s.threads x :=
  update_apply _ _ _ _

variable {s s' : IpcState}

theorem caller_eq_some : s.caller tid = some t ↔ s.threads tid = some t ∧ t.state = .normal := by
  simp [caller]

/-- The thread `x` of the queue, with its record `t`, waits as `w` says. -/
structure Found (s : IpcState) (w : IpcWaitType) (x : ℕ) (t : Thread) : Prop where
  queued : x ∈ s.queue
  thread : s.threads x = some t
  type : t.waitType = w

/-- A search returns a thread of the queue that passes the test. -/
theorem findWaiting_some {p : ℕ → Thread → Bool}
    (h : s.findWaiting p = some (x, t)) : x ∈ s.queue ∧ s.threads x = some t ∧ p x t = true := by
  obtain ⟨y, hy, hbind⟩ := exists_of_findSome?_eq_some h
  obtain ⟨u, hu, hif⟩ := bind_eq_some_iff.mp hbind
  split_ifs at hif with hp
  cases hif
  exact ⟨hy, hu, hp⟩

theorem findReceiver_some (h : s.findReceiver pid = some (x, t)) :
    s.Found .forSerialReq x t ∧ t.ipcWait.pid = pid := by
  obtain ⟨hq, ht, hp⟩ := findWaiting_some h
  simp only [decide_eq_true_eq] at hp
  exact ⟨⟨hq, ht, hp.1⟩, hp.2⟩

theorem findSender_some (h : s.findSender pid = some (x, t)) :
    s.Found .forSerialRecv x t ∧ t.ipcWait.pid = pid := by
  obtain ⟨hq, ht, hp⟩ := findWaiting_some h
  simp only [decide_eq_true_eq] at hp
  exact ⟨⟨hq, ht, hp.1⟩, hp.2⟩

theorem findAwaiting_some {dst : IpcPeer} (h : s.findAwaiting dst = some (x, t)) :
    s.Found .forResp x t ∧ dst = ⟨t.pid, x⟩ := by
  unfold findAwaiting at h
  split_ifs at h with h0
  obtain ⟨hq, ht, hp⟩ := findWaiting_some h
  simp only [decide_eq_true_eq] at hp
  obtain ⟨hpid, htid, htype⟩ := hp
  exact ⟨⟨hq, ht, htype⟩, by rw [hpid, htid]⟩

theorem findAwaiting_ne_zero {dst : IpcPeer} {r : ℕ × Thread} (h : s.findAwaiting dst = some r) :
    dst.tid ≠ 0 := by
  unfold findAwaiting at h
  split_ifs at h with h0
  exact h0.2

theorem sleepIpcThread_eq (h : s.sleepIpcThread tid t = some s') :
    s' = { s.put tid { t with state := .wait } with queue := tid :: s.queue } := by
  simp only [sleepIpcThread, Thread.setState, bind_eq_bind, bind_eq_some_iff] at h
  obtain ⟨u, hu, h⟩ := h
  split_ifs at hu
  cases hu
  cases h
  rfl

end IpcState

variable {t' : Thread}

theorem Thread.wakeup_eq (h : t.wakeup = some t') : t' = { t with state := .normal } ∧
    t.state ≠ .normal := by
  simp only [Thread.wakeup, Thread.setState] at h
  split_ifs at h with hs
  cases h
  refine ⟨rfl, ?_⟩
  rcases hs with hs | hs <;> rw [hs] <;> decide

def IpcState.enqueue (s : IpcState) (tid : ℕ) (t : Thread) : IpcState :=
  { s.put tid { t with state := .wait } with queue := tid :: s.queue }

def IpcState.deliver (s : IpcState) (client server : ℕ) : IpcState :=
  { s with exchanges := (client, server) :: s.exchanges }

/-- The effects of a call by the thread `tid`, whose record is `t` before. Results are left open. -/
inductive IpcEffect (s : IpcState) (tid : ℕ) (t : Thread) : IpcAction → IpcState → Prop
  | failed {a : IpcAction} {ret : ℤ × ℕ} {k : ℕ} (hk : t.requests ≤ k) :
      IpcEffect s tid t a (s.put tid { t with ret := ret, requests := k })
  | popup {a : IpcAction} {pid newTid : ℕ} (hfresh : s.threads newTid = none) (h0 : newTid ≠ 0)
      (hpid : pid ≠ 0) :
      IpcEffect s tid t a
        ((s.put newTid { newThread pid with state := .normal, refCount := 2, ran := true }).put tid
          { t with ret := (0, 0), requests := t.requests + 1 })
  | popupReply {a : IpcAction} {pid newTid : ℕ} (hfresh : s.threads newTid = none) (h0 : newTid ≠ 0)
      (hpid : pid ≠ 0) :
      IpcEffect s tid t a
        (((s.put newTid { newThread pid with
            state := .normal, refCount := 3, ran := true
            ipcReplyTo := ⟨t.pid, tid⟩, serves := some (tid, t.requests + 1) }).deliver tid
              newTid).enqueue tid
          { t with
            waitType := .forResp, ipcWait := { t.ipcWait with pid := pid, tid := newTid }
            refCount := t.refCount + 1, ret := (0, 0), requests := t.requests + 1 })
  | sent {a : IpcAction} {x : ℕ} {r : Thread} {ret : ℤ × ℕ} (hr : s.Found .forSerialReq x r)
      (hne : tid ≠ x) :
      IpcEffect s tid t a
        (({ s with queue := s.queue.erase x }.put x { r with state := .normal, ret := ret }).put tid
          { t with ret := (0, 0), requests := t.requests + 1 })
  | sentReply {dstPid opcode flags newTid x : ℕ} {r : Thread} {ret : ℤ × ℕ}
      (hreply : flags &&& ipcSendWaitForReply ≠ 0)
      (hf : s.findReceiver (if dstPid = 0 then s.systemPid else dstPid) = some (x, r))
      (hr : s.Found .forSerialReq x r) (hne : tid ≠ x) :
      IpcEffect s tid t (.request tid dstPid opcode flags newTid)
        ((({ s with queue := s.queue.erase x }.put x { r with
            state := .normal, refCount := r.refCount + 1, ret := ret
            ipcReplyTo := ⟨t.pid, tid⟩, serves := some (tid, t.requests + 1) }).deliver tid x).enqueue tid
          { t with
            waitType := .forResp, ipcWait := { t.ipcWait with pid := r.pid, tid := x }
            refCount := t.refCount + 1, ret := (0, 0), requests := t.requests + 1 })
  | queued {a : IpcAction} {w : IpcWait} {ret : ℤ × ℕ} :
      IpcEffect s tid t a (s.enqueue tid
        { t with waitType := .forSerialRecv, ipcWait := w, ret := ret, requests := t.requests + 1 })
  | responded {x : ℕ} {c : Thread} {ret : ℤ × ℕ} (hc : s.Found .forResp x c)
      (hto : t.ipcReplyTo = ⟨c.pid, x⟩ ∧ x ≠ 0) (hne : tid ≠ x) :
      IpcEffect s tid t (.respond tid)
        { (s.put x { c with state := .normal, refCount := c.refCount - 1 }).put tid
            { t with refCount := t.refCount - 1, ret := ret, serves := none } with
          queue := s.queue.erase x
          exchanges := s.exchanges.erase (x, c.ipcWait.tid)
          answered := ⟨x, c.requests, tid, c.ipcWait.tid, t.serves⟩ :: s.answered }
  | received {a : IpcAction} {x : ℕ} {c : Thread} {ret ret' : ℤ × ℕ}
    (hc : s.Found .forSerialRecv x c)
      (hne : tid ≠ x) :
      IpcEffect s tid t a
        (({ s with queue := s.queue.erase x }.put x { c with state := .normal, ret := ret }).put tid
          { t with ret := ret' })
  | receivedReply {x : ℕ} {c : Thread} {ret : ℤ × ℕ} (hf : s.findSender t.pid = some (x, c))
      (hneed : c.ipcWait.needResponse = true) (hc : s.Found .forSerialRecv x c) :
      IpcEffect s tid t (.receive tid)
        ((({ s with queue := s.queue.erase x }.put x { c with
            waitType := .forResp, ipcWait := { c.ipcWait with pid := t.pid, tid := tid }
            refCount := c.refCount + 1 }).put tid
          { t with
            ret := ret, ipcReplyTo := ⟨c.pid, x⟩
            refCount := t.refCount + 1, serves := some (x, c.requests) }).deliver x tid)
  | receiving {a : IpcAction} {w : IpcWait} {ret : ℤ × ℕ} :
      IpcEffect s tid t a (s.enqueue tid { t with waitType := .forSerialReq, ipcWait := w, ret := ret })

variable {s s' : IpcState} {newTid : ℕ} {reply : Bool}

theorem ne_of_not_normal {y : ℕ} {u : Thread} (ht : s.threads x = some t) (hn : t.state = .normal)
    (hu : s.threads y = some u) (hy : u.state ≠ .normal) : x ≠ y := by
  rintro rfl
  rw [ht] at hu
  cases hu
  exact hy hn

theorem ne_of_none {f : ℕ → Option Thread} {y : ℕ} (ht : f x = some t) (hy : f y = none) :
    x ≠ y := by
  rintro rfl
  rw [ht] at hy
  cases hy

theorem ipcPopup_branches (h : ipcPopup s tid t pid reply newTid = some s') :
    s.threads newTid = none ∧ newTid ≠ 0 ∧
      ((reply = false ∧ s' = (s.put newTid { newThread pid with
            state := .normal, refCount := 2, ran := true }).put tid { t with ret := (0, 0) }) ∨
        (reply = true ∧ s' = ((s.put newTid { newThread pid with
            state := .normal, refCount := 3, ran := true
            ipcReplyTo := ⟨t.pid, tid⟩, serves := some (tid, t.requests) }).deliver tid
              newTid).enqueue tid { t with
              waitType := .forResp, ipcWait := { t.ipcWait with pid := pid, tid := newTid }
              refCount := t.refCount + 1, ret := (0, 0) })) := by
  unfold ipcPopup at h
  split_ifs at h with hfresh hreply
  · obtain ⟨h0, hnone⟩ := not_or.mp hfresh
    exact ⟨not_not.mp hnone, h0, .inr ⟨hreply, IpcState.sleepIpcThread_eq h⟩⟩
  · obtain ⟨h0, hnone⟩ := not_or.mp hfresh
    simp [Thread.acquire, Thread.release, Thread.run, Thread.setState, newThread] at h
    exact ⟨not_not.mp hnone, h0, .inl ⟨Bool.eq_false_iff.mpr hreply, h.symm⟩⟩

variable {a : IpcAction} {opcode : ℕ} {r : Thread}

/-- The serial branch of `ipc_request` with a waiting receiver, without and with a reply. -/
theorem ipcSendTo_branches (h : ipcSendTo s tid t x r opcode reply = some s') :
    r.state ≠ .normal ∧ ((reply = false ∧
          s' = ({ s with queue := s.queue.erase x }.put x { r with
            state := .normal, ret := (0, opcode) }).put tid
              { t with ret := (0, 0) }) ∨
        (reply = true ∧ s' = (({ s with queue := s.queue.erase x }.put x { r with
            state := .normal, refCount := r.refCount + 1, ret := (0, opcode)
            ipcReplyTo := ⟨t.pid, tid⟩, serves := some (tid, t.requests) }).deliver tid x).enqueue
              tid { t with
              waitType := .forResp, ipcWait := { t.ipcWait with pid := r.pid, tid := x }
              refCount := t.refCount + 1, ret := (0, 0) })) := by
  unfold ipcSendTo at h
  split_ifs at h with hreply
  · obtain ⟨r', hr', h⟩ := bind_eq_some_iff.mp h
    obtain ⟨rfl, hx⟩ := Thread.wakeup_eq hr'
    exact ⟨hx, .inr ⟨hreply, IpcState.sleepIpcThread_eq h⟩⟩
  · obtain ⟨r', hr', h⟩ := bind_eq_some_iff.mp h
    obtain ⟨rfl, hx⟩ := Thread.wakeup_eq hr'
    exact ⟨hx, .inl ⟨Bool.eq_false_iff.mpr hreply, (some.inj h).symm⟩⟩

variable {dstPid flags : ℕ}

theorem ipcRequest_branches (h : ipcRequest s tid dstPid opcode flags newTid = some s') :
    ∃ t dst, s.threads tid = some t ∧ t.state = .normal ∧ dst = (if dstPid = 0 then s.systemPid
    else dstPid) ∧ dst ≠ 0 ∧
      ((s.procs dst = none ∧ s' = s.put tid { t with requests := t.requests + 1, ret := (-1, 0) }) ∨
        ∃ entry, s.procs dst = some entry ∧
          (((flags &&& ipcSendPopup ≠ 0 ∧ entry ≠ 0) ∧
          ipcPopup s tid { t with requests := t.requests + 1 } dst
              (flags &&& ipcSendWaitForReply ≠ 0) newTid = some s') ∨
            (¬ (flags &&& ipcSendPopup ≠ 0 ∧ entry ≠ 0) ∧ flags &&& ipcSendSerial ≠ 0 ∧
              ∃ x r, s.findReceiver dst = some (x, r) ∧
              ipcSendTo s tid { t with requests := t.requests + 1 } x r opcode
                (flags &&& ipcSendWaitForReply ≠ 0) = some s') ∨
            (¬ (flags &&& ipcSendPopup ≠ 0 ∧ entry ≠ 0) ∧ flags &&& ipcSendSerial ≠ 0 ∧
              s.findReceiver dst = none ∧ s' = s.enqueue tid { t with
                requests := t.requests + 1, waitType := .forSerialRecv
                ipcWait := ⟨dst, 0, opcode, flags &&& ipcSendWaitForReply ≠ 0⟩, ret := (0, 0) }) ∨
            (¬ (flags &&& ipcSendPopup ≠ 0 ∧ entry ≠ 0) ∧ ¬ flags &&& ipcSendSerial ≠ 0 ∧
              s' = s.put tid { t with requests := t.requests + 1, ret := (-1, 0) }))) := by
  simp only [ipcRequest, bind_eq_bind, bind_eq_some_iff] at h
  obtain ⟨t, ht, h⟩ := h
  obtain ⟨ht, hn⟩ := IpcState.caller_eq_some.mp ht
  refine ⟨t, _, ht, hn, rfl, ?_⟩
  generalize (if dstPid = 0 then s.systemPid else dstPid) = dst at h
  by_cases h0 : dst = 0
  · rw [if_pos h0] at h
    cases h
  rw [if_neg h0] at h
  refine ⟨h0, ?_⟩
  cases hp : s.procs dst with
  | none =>
    simp only [hp, some.injEq] at h
    exact .inl ⟨rfl, h.symm⟩
  | some entry =>
    simp only [hp] at h
    refine .inr ⟨entry, rfl, ?_⟩
    split_ifs at h with hpopup hserial
    · exact .inl ⟨hpopup, h⟩
    · right
      cases hf : s.findReceiver dst with
      | some r =>
        simp only [hf] at h
        exact .inl ⟨hpopup, hserial, r.1, r.2, rfl, h⟩
      | none =>
        simp only [hf] at h
        exact .inr (.inl ⟨hpopup, hserial, rfl, IpcState.sleepIpcThread_eq h⟩)
    · exact .inr (.inr (.inr ⟨hpopup, hserial, (some.inj h).symm⟩))

theorem ipcRequest_effect (h : ipcRequest s tid dstPid opcode flags newTid = some s') :
    ∃ t, s.threads tid = some t ∧ t.state = .normal ∧
      IpcEffect s tid t (.request tid dstPid opcode flags newTid) s' := by
  obtain ⟨t, dst, ht, hn, rfl, h0, h⟩ := ipcRequest_branches h
  refine ⟨t, ht, hn, ?_⟩
  rcases h with ⟨-, rfl⟩ | ⟨entry, -, ⟨-, h⟩ | ⟨-, -, x, r, hf, h⟩ | ⟨-, -, -, rfl⟩ | ⟨-, -, rfl⟩⟩
  · exact IpcEffect.failed (Nat.le_succ _)
  · obtain ⟨hnone, hnew, ⟨-, rfl⟩ | ⟨-, rfl⟩⟩ := ipcPopup_branches h
    · exact IpcEffect.popup hnone hnew h0
    · exact IpcEffect.popupReply hnone hnew h0
  · have hr := (IpcState.findReceiver_some hf).1
    obtain ⟨hx, ⟨-, rfl⟩ | ⟨hreply, rfl⟩⟩ := ipcSendTo_branches h
    · exact IpcEffect.sent hr (ne_of_not_normal ht hn hr.thread hx)
    · exact IpcEffect.sentReply (by simpa using hreply) hf hr (ne_of_not_normal ht hn hr.thread hx)
  · exact IpcEffect.queued
  · exact IpcEffect.failed (Nat.le_succ _)

theorem ipcRespond_branches (h : ipcRespond s tid = some s') :
    ∃ t, s.threads tid = some t ∧ t.state = .normal ∧
      ((s.findAwaiting t.ipcReplyTo = none ∧ s' = s.put tid { t with ret := (-1, 0) }) ∨
        ∃ x c, s.findAwaiting t.ipcReplyTo = some (x, c) ∧ c.state ≠ .normal ∧ s' = { (s.put x { c with
              state := .normal, refCount := c.refCount - 1 }).put tid
                { t with refCount := t.refCount - 1, ret := (0, 0), serves := none } with
            queue := s.queue.erase x
            exchanges := s.exchanges.erase (x, c.ipcWait.tid)
            answered := ⟨x, c.requests, tid, c.ipcWait.tid, t.serves⟩ :: s.answered }) := by
  simp only [ipcRespond, bind_eq_bind, bind_eq_some_iff] at h
  obtain ⟨t, ht, h⟩ := h
  obtain ⟨ht, hn⟩ := IpcState.caller_eq_some.mp ht
  refine ⟨t, ht, hn, ?_⟩
  cases hf : s.findAwaiting t.ipcReplyTo with
  | none =>
    simp only [hf, some.injEq] at h
    exact .inl ⟨rfl, h.symm⟩
  | some c =>
    simp only [hf] at h
    obtain ⟨c', hc', h⟩ := bind_eq_some_iff.mp h
    obtain ⟨rfl, hx⟩ := Thread.wakeup_eq hc'
    exact .inr ⟨c.1, c.2, rfl, hx, (some.inj h).symm⟩

theorem ipcRespond_effect (h : ipcRespond s tid = some s') :
    ∃ t, s.threads tid = some t ∧ t.state = .normal ∧ IpcEffect s tid t (.respond tid) s' := by
  obtain ⟨t, ht, hn, ⟨-, rfl⟩ | ⟨x, c, hf, hx, rfl⟩⟩ := ipcRespond_branches h
  · exact ⟨t, ht, hn, IpcEffect.failed (le_refl _)⟩
  · obtain ⟨hc, hto⟩ := IpcState.findAwaiting_some hf
    have h0 : x ≠ 0 := by simpa [hto] using IpcState.findAwaiting_ne_zero hf
    exact ⟨t, ht, hn, IpcEffect.responded hc ⟨hto, h0⟩ (ne_of_not_normal ht hn hc.thread hx)⟩

theorem ipcReceive_branches (h : ipcReceive s tid = some s') :
    ∃ t, s.threads tid = some t ∧ t.state = .normal ∧
      ((s.findSender t.pid = none ∧ s' = s.enqueue tid { t with
            waitType := .forSerialReq, ipcWait := { t.ipcWait with pid := t.pid, tid := tid },
              ret := (0, 0) }) ∨
        ∃ x c, s.findSender t.pid = some (x, c) ∧ ((c.ipcWait.needResponse = true ∧
              s' = (({ s with queue := s.queue.erase x }.put x { c with
                waitType := .forResp, ipcWait := { c.ipcWait with pid := t.pid, tid := tid }
                refCount := c.refCount + 1 }).put tid { t with
                  ret := (0, c.ipcWait.opcode)
                  ipcReplyTo := ⟨c.pid, x⟩, refCount := t.refCount + 1,
                    serves := some (x, c.requests) }).deliver x tid) ∨
            (c.ipcWait.needResponse = false ∧ c.state ≠ .normal ∧
              s' = ({ s with queue := s.queue.erase x }.put x { c with
                state := .normal, ret := (0, c.ipcWait.opcode) }).put tid { t with
                  ret := (0, c.ipcWait.opcode) }))) := by
  simp only [ipcReceive, bind_eq_bind, bind_eq_some_iff] at h
  obtain ⟨t, ht, h⟩ := h
  obtain ⟨ht, hn⟩ := IpcState.caller_eq_some.mp ht
  refine ⟨t, ht, hn, ?_⟩
  cases hf : s.findSender t.pid with
  | none =>
    simp only [hf] at h
    exact .inl ⟨rfl, IpcState.sleepIpcThread_eq h⟩
  | some c =>
    simp only [hf] at h
    refine .inr ⟨c.1, c.2, rfl, ?_⟩
    split_ifs at h with hneed
    · exact .inl ⟨hneed, (some.inj h).symm⟩
    · obtain ⟨c', hc', h⟩ := bind_eq_some_iff.mp h
      obtain ⟨rfl, hx⟩ := Thread.wakeup_eq hc'
      exact .inr ⟨Bool.eq_false_iff.mpr hneed, hx, (some.inj h).symm⟩

theorem ipcReceive_effect (h : ipcReceive s tid = some s') :
    ∃ t, s.threads tid = some t ∧ t.state = .normal ∧ IpcEffect s tid t (.receive tid) s' := by
  obtain ⟨t, ht, hn, ⟨-, rfl⟩ | ⟨x, c, hf, ⟨hneed, rfl⟩ | ⟨-, hx, rfl⟩⟩⟩ := ipcReceive_branches h
  · exact ⟨t, ht, hn, IpcEffect.receiving⟩
  · exact ⟨t, ht, hn, IpcEffect.receivedReply hf hneed (IpcState.findSender_some hf).1⟩
  · have hc := (IpcState.findSender_some hf).1
    exact ⟨t, ht, hn, IpcEffect.received hc (ne_of_not_normal ht hn hc.thread hx)⟩

/-- Every call has one of the effects. -/
theorem ipcStep_effect (h : ipcStep s a = some s') :
    ∃ t, s.threads a.tid = some t ∧ t.state = .normal ∧ IpcEffect s a.tid t a s' := by
  cases a with
  | request tid dstPid opcode flags newTid => exact ipcRequest_effect h
  | respond tid => exact ipcRespond_effect h
  | receive tid => exact ipcReceive_effect h

variable {f : ℕ → Option Thread}

/-- What holds of the record of every thread, after that of one thread has changed. -/
theorem forall_update {P : ℕ → Thread → Prop} {o : Option Thread}
    (hold : ∀ y ≠ x, ∀ v, f y = some v → P y v) (hnew : ∀ v, o = some v → P x v) :
    ∀ y v, update f x o y = some v → P y v := by
  intro y v hv
  rw [update_apply] at hv
  split_ifs at hv with hy
  · exact hy ▸ hnew v hv
  · exact hold y hy v hv

theorem thread_kept {y : ℕ} {o : Option Thread} (ht : f x = some t) (hne : x ≠ y) :
    update f y o x = some t :=
  (update_of_ne hne _ _).trans ht

structure QueueInv (s : IpcState) : Prop where
  once : s.queue.Nodup
  waits : ∀ x ∈ s.queue, ∃ t, s.threads x = some t ∧ t.state = .wait

section

variable (hi : QueueInv s)
include hi

theorem QueueInv.congr (hq : s'.queue = s.queue) (ht : s'.threads = s.threads) : QueueInv s' :=
  ⟨hq ▸ hi.once, fun x hx => ht ▸ hi.waits x (hq ▸ hx)⟩

theorem QueueInv.wait (hx : x ∈ s.queue) (ht : s.threads x = some t) : t.state = .wait := by
  obtain ⟨u, hu, hw⟩ := hi.waits x hx
  rw [ht] at hu
  cases hu
  exact hw

theorem QueueInv.not_mem (ht : s.threads x = some t) (hs : t.state ≠ .wait) : x ∉ s.queue :=
  fun hx => hs (hi.wait hx ht)

theorem QueueInv.ne_running (ht : s.threads tid = some t) (hn : t.state = .normal)
    (hx : x ∈ s.queue) : tid ≠ x := by
  rintro rfl
  exact hi.not_mem ht (by rw [hn]; decide) hx

/-- The record of a thread that is not on the queue changes. -/
theorem QueueInv.put (hx : x ∉ s.queue) : QueueInv (s.put x t) := by
  refine ⟨hi.once, fun y hy => ?_⟩
  have hne : y ≠ x := fun h => hx (h ▸ hy)
  simpa [hne] using hi.waits y hy

theorem QueueInv.erase (x : ℕ) : QueueInv { s with queue := s.queue.erase x } ∧
    x ∉ s.queue.erase x :=
  ⟨⟨hi.once.erase x, fun y hy => hi.waits y (mem_of_mem_erase hy)⟩, hi.once.not_mem_erase⟩

theorem QueueInv.deliver {client server : ℕ} : QueueInv (s.deliver client server) :=
  ⟨hi.once, hi.waits⟩

theorem QueueInv.enqueue (hx : x ∉ s.queue) : QueueInv (s.enqueue x t) := by
  refine ⟨nodup_cons.mpr ⟨hx, hi.once⟩, fun y hy => ?_⟩
  by_cases hyx : y = x
  · exact ⟨{ t with state := .wait }, by simp [IpcState.enqueue, hyx], rfl⟩
  · obtain ⟨u, hu, hw⟩ := hi.waits y (mem_of_ne_of_mem hyx hy)
    exact ⟨u, by simpa [IpcState.enqueue, hyx] using hu, hw⟩

theorem QueueInv.not_mem_of_none (hx : s.threads x = none) : x ∉ s.queue := by
  intro hmem
  obtain ⟨u, hu, -⟩ := hi.waits x hmem
  rw [hx] at hu
  cases hu

/-- A thread is woken: it is taken off the queue and its record changes. -/
theorem QueueInv.wake (x : ℕ) (t : Thread) :
    QueueInv ({ s with queue := s.queue.erase x }.put x t) :=
  (hi.erase x).1.put (hi.erase x).2

theorem QueueInv.effect (ht : s.threads tid = some t)
    (hn : t.state = .normal) (h : IpcEffect s tid t a s') : QueueInv s' := by
  have htid : tid ∉ s.queue := hi.not_mem ht (by rw [hn]; decide)
  have herase : ∀ x, tid ∉ s.queue.erase x := fun x hx => htid (mem_of_mem_erase hx)
  cases h with
  | failed => exact hi.put htid
  | popup hfresh => exact (hi.put (hi.not_mem_of_none hfresh)).put htid
  | popupReply hfresh => exact (hi.put (hi.not_mem_of_none hfresh)).deliver.enqueue htid
  | sent hr => exact (hi.wake _ _).put (herase _)
  | sentReply _ hr => exact (hi.wake _ _).deliver.enqueue (herase _)
  | queued => exact hi.enqueue htid
  | responded hc => exact ((hi.wake _ _).put (herase _)).congr rfl rfl
  | received hc => exact (hi.wake _ _).put (herase _)
  | receivedReply hc => exact ((hi.wake _ _).put (herase _)).deliver
  | receiving => exact hi.enqueue htid

end

def Asleep (s : IpcState) : Prop := ∀ x t, s.threads x = some t → t.state = .wait → x ∈ s.queue

theorem Asleep.put (hi : Asleep s) (hs : t.state ≠ .wait) : Asleep (s.put x t) := by
  refine forall_update (fun y _ => hi y) ?_
  rintro _ ⟨⟩ hw
  exact absurd hw hs

theorem Asleep.wake (hi : Asleep s) (hs : t.state ≠ .wait) :
    Asleep ({ s with queue := s.queue.erase x }.put x t) := by
  refine forall_update (fun y hy u hu hw => (mem_erase_of_ne hy).mpr (hi y u hu hw)) ?_
  rintro _ ⟨⟩ hw
  exact absurd hw hs

theorem Asleep.enqueue (hi : Asleep s) : Asleep (s.enqueue x t) := by
  intro y u hu hw
  by_cases hy : y = x
  · rw [hy]
    exact mem_cons_self
  · refine mem_cons_of_mem x (hi y u ?_ hw)
    simpa [IpcState.enqueue, hy] using hu

theorem Asleep.deliver (hi : Asleep s) {client server : ℕ} : Asleep (s.deliver client server) := hi

theorem Asleep.effect (hi : Asleep s) (ht : s.threads tid = some t)
    (hn : t.state = .normal) (hok : NoQueuedReply s a) (h : IpcEffect s tid t a s') :
    Asleep s' := by
  have hne : ThreadState.normal ≠ .wait := by decide
  cases h with
  | failed => exact hi.put (hn ▸ hne)
  | popup => exact (hi.put hne).put (hn ▸ hne)
  | popupReply => exact (hi.put hne).deliver.enqueue
  | sent => exact (hi.wake hne).put (hn ▸ hne)
  | sentReply => exact (hi.wake hne).deliver.enqueue
  | queued => exact hi.enqueue
  | responded => exact (hi.wake hne).put (hn ▸ hne)
  | received => exact (hi.wake hne).put (hn ▸ hne)
  | receivedReply hf hneed =>
    have := hok t ht _ hf
    rw [hneed] at this
    cases this
  | receiving => exact hi.enqueue

theorem waitConsistent_of (hq : QueueInv s) (ha : Asleep s) : WaitConsistent s :=
  ⟨hq.once, fun x => ⟨hq.waits x, fun ⟨t, ht, hw⟩ => ha x t ht hw⟩⟩

def Thread.awaits (t : Thread) : Prop := t.state = .wait ∧ t.waitType = .forResp

/-- The thread that a sleeping sender waits for has the sender in its `ipc_reply_to`. -/
def Named (s : IpcState) : Prop :=
  ∀ x t, s.threads x = some t → t.awaits →
    ∃ r, s.threads t.ipcWait.tid = some r ∧ r.ipcReplyTo = ⟨t.pid, x⟩ ∧ r.serves ≠ none

/-- The record `t` of the thread `x` names each other thread that waits for it. -/
def NamesAll (s : IpcState) (x : ℕ) (t : Thread) : Prop :=
  ∀ c u, c ≠ x → s.threads c = some u → u.awaits → u.ipcWait.tid = x →
    t.ipcReplyTo = ⟨u.pid, c⟩ ∧ t.serves ≠ none

theorem Named.put (hi : Named s) (hall : NamesAll s x t)
    (ht : t.awaits → ∃ r, s.threads t.ipcWait.tid = some r ∧ t.ipcWait.tid ≠ x ∧
      r.ipcReplyTo = ⟨t.pid, x⟩ ∧ r.serves ≠ none) : Named (s.put x t) := by
  refine forall_update (fun c hc u hu hw => ?_) ?_
  · by_cases hx : u.ipcWait.tid = x
    · exact ⟨t, by simp [hx], hall c u hc hu hw hx⟩
    · obtain ⟨r, hr, hrest⟩ := hi c u hu hw
      exact ⟨r, thread_kept hr hx, hrest⟩
  · rintro _ ⟨⟩ hw
    obtain ⟨r, hr, hx, hrest⟩ := ht hw
    exact ⟨r, thread_kept hr hx, hrest⟩

/-- A thread keeps whom it has to answer. -/
theorem Named.keep (hi : Named s) (ht : s.threads x = some t)
    (hreply : t'.ipcReplyTo = t.ipcReplyTo) (hserves : t'.serves = t.serves) : NamesAll s x t' := by
  intro c u _ hu hw hx
  obtain ⟨r, hr, hto, hs⟩ := hi c u hu hw
  rw [hx, ht] at hr
  cases hr
  exact ⟨hreply.trans hto, hserves ▸ hs⟩

/-- Nobody waits for a thread that has nothing to answer. -/
theorem Named.idle (hi : Named s) (hx : ∀ r, s.threads x = some r → r.serves = none) (t : Thread) :
    NamesAll s x t := by
  intro c u _ hu hw hcx
  obtain ⟨r, hr, -, hs⟩ := hi c u hu hw
  exact absurd (hx r (hcx ▸ hr)) hs

variable {y : ℕ} {u : Thread}

theorem Thread.not_awaits_of_normal (h : t.state = .normal) : ¬ t.awaits := by
  intro hw
  rw [hw.1] at h
  cases h

theorem IpcState.Found.not_awaits {w : IpcWaitType} (h : s.Found w x t) (hw : w ≠ .forResp) :
    ¬ t.awaits :=
  fun ha => hw (h.type.symm.trans ha.2)

theorem Named.put_normal (hi : Named s) (hu : u.state = .normal) (hall : NamesAll s x u) :
    Named (s.put x u) :=
  hi.put hall fun hw => absurd hw (Thread.not_awaits_of_normal hu)

/-- The caller's record changes after that of another thread. -/
theorem Named.put_caller (hi : Named (s.put x r)) (ht : s.threads tid = some t) (hne : tid ≠ x)
    (hn : t'.state = .normal) (hreply : t'.ipcReplyTo = t.ipcReplyTo)
    (hserves : t'.serves = t.serves) : Named ((s.put x r).put tid t') :=
  hi.put_normal hn (hi.keep (by simp [hne, ht]) hreply hserves)

/-- The caller waits for a thread that was told to answer it. -/
theorem Named.await_caller (hi : Named (s.put x r)) (ht : s.threads tid = some t) (hne : tid ≠ x)
    (hreply : t'.ipcReplyTo = t.ipcReplyTo) (hserves : t'.serves = t.serves)
    (hx : t'.ipcWait.tid = x)
    (hto : r.ipcReplyTo = ⟨t'.pid, tid⟩) (hs : r.serves ≠ none) :
    Named ((s.put x r).put tid t') := by
  subst hx
  exact hi.put (hi.keep (by simp [hne, ht]) hreply hserves) fun _ => ⟨r, by simp, hne.symm, hto, hs⟩

theorem Named.effect (hi : Named s) (ht : s.threads tid = some t)
    (hn : t.state = .normal) (hok : OneReplyOwed s a) (h : IpcEffect s tid t a s') : Named s' := by
  cases h with
  | failed => exact hi.put_normal hn (hi.keep ht rfl rfl)
  | popup hfresh =>
    exact (hi.put_normal rfl (hi.idle (by simp [hfresh]) _)).put_caller ht (ne_of_none ht hfresh)
      hn rfl rfl
  | popupReply hfresh =>
    exact (hi.put_normal rfl (hi.idle (by simp [hfresh]) _)).await_caller ht (ne_of_none ht hfresh)
      rfl rfl rfl rfl (by simp)
  | sent hr hne =>
    exact (hi.put_normal (by rfl) (hi.keep hr.thread (by rfl) (by rfl))).put_caller ht hne hn rfl rfl
  | sentReply hreply hf hr hne =>
    have hidle := hok.2 hreply _ hf
    refine (hi.put_normal rfl (hi.idle (fun q hq => ?_) _)).await_caller ht hne rfl rfl rfl rfl
      (by simp)
    rw [hr.thread] at hq
    cases hq
    exact hidle
  | queued => exact hi.put (hi.keep ht rfl rfl) fun hw => by cases hw.2
  | @responded x c ret hc hto hne =>
    have h1 := hi.put_normal (u := { c with state := .normal, refCount := c.refCount - 1 }) rfl
      (hi.keep hc.thread rfl rfl)
    -- the only thread that can wait for the responder is the one just woken
    refine h1.put_normal hn fun d u hd hu hw hdt => ?_
    obtain ⟨r, hr, hrto, -⟩ := h1 d u hu hw
    rw [hdt, IpcState.put_threads, if_neg hne, ht] at hr
    cases hr
    have hdx : d = x := by
      rw [hto.1] at hrto
      exact (congrArg IpcPeer.tid hrto).symm
    rw [IpcState.put_threads, if_pos hdx] at hu
    cases hu
    exact absurd hw (Thread.not_awaits_of_normal rfl)
  | received hc hne =>
    exact (hi.put_normal (by rfl) (hi.keep hc.thread (by rfl) (by rfl))).put_caller ht hne hn rfl rfl
  | receivedReply hf hneed =>
    have := hok.1 t ht _ hf
    rw [hneed] at this
    cases this
  | receiving => exact hi.put (hi.keep ht rfl rfl) fun hw => by cases hw.2

structure IdsOk (threads : ℕ → Option Thread) : Prop where
  tid : threads 0 = none
  pid : ∀ x t, threads x = some t → t.pid ≠ 0

theorem IdsOk.put (hi : IdsOk f) (hx : x ≠ 0) (ht : t.pid ≠ 0) : IdsOk (update f x (some t)) := by
  refine ⟨by rw [update_of_ne hx.symm, hi.tid], forall_update (fun y _ => hi.pid y) ?_⟩
  rintro _ ⟨⟩
  exact ht

theorem IdsOk.ne_zero (hi : IdsOk f) (ht : f x = some t) : x ≠ 0 := by
  rintro rfl
  rw [hi.tid] at ht
  cases ht

theorem IdsOk.put_two {r' : Thread} (hi : IdsOk f) (ht : f tid = some t)
    (hr : f x = some r) (hp : r'.pid = r.pid) (hp' : t'.pid = t.pid) :
    IdsOk (update (update f x (some r')) tid (some t')) :=
  (hi.put (hi.ne_zero hr) (hp ▸ hi.pid x r hr)).put (hi.ne_zero ht) (hp' ▸ hi.pid tid t ht)

theorem IdsOk.effect (hi : IdsOk s.threads) (ht : s.threads tid = some t)
    (h : IpcEffect s tid t a s') : IdsOk s'.threads := by
  have htid := hi.ne_zero ht
  have hpid := hi.pid tid t ht
  cases h with
  | failed => exact hi.put htid hpid
  | popup _ h0 hp => exact (hi.put h0 hp).put htid hpid
  | popupReply _ h0 hp => exact (hi.put h0 hp).put htid hpid
  | sent hr => exact hi.put_two ht hr.thread rfl rfl
  | sentReply _ _ hr => exact hi.put_two ht hr.thread rfl rfl
  | queued => exact hi.put htid hpid
  | responded hc => exact hi.put_two ht hc.thread rfl rfl
  | received hc => exact hi.put_two ht hc.thread rfl rfl
  | receivedReply _ _ hc => exact hi.put_two ht hc.thread rfl rfl
  | receiving => exact hi.put htid hpid

/-- The search of `ipc_respond` finds the thread it is for. -/
theorem IpcState.findAwaiting_of_mem (hids : IdsOk s.threads) (hx : x ∈ s.queue)
    (ht : s.threads x = some t) (htype : t.waitType = .forResp) :
    s.findAwaiting ⟨t.pid, x⟩ = some (x, t) := by
  have hfound : s.findAwaiting ⟨t.pid, x⟩ ≠ none := by
    intro hnone
    rw [findAwaiting, if_pos ⟨hids.pid x t ht, hids.ne_zero ht⟩] at hnone
    have := findSome?_eq_none_iff.mp hnone x hx
    simp [ht, htype] at this
  obtain ⟨⟨y, u⟩, hyu⟩ := ne_none_iff_exists'.mp hfound
  obtain ⟨hu, hto⟩ := findAwaiting_some hyu
  obtain rfl : x = y := congrArg IpcPeer.tid hto
  cases ht.symm.trans hu.thread
  exact hyu

theorem findable_of (ha : Asleep s) (hn : Named s) (hids : IdsOk s.threads) : Findable s := by
  intro x t ht hw htype
  obtain ⟨r, hr, hto, -⟩ := hn x t ht ⟨hw, htype⟩
  exact ⟨r, hr, hto ▸ IpcState.findAwaiting_of_mem hids (ha x t ht hw) ht htype⟩

variable {s0 : IpcState}

theorem IpcInit.not_wait (h : IpcInit s0) (ht : s0.threads x = some t) : t.state ≠ .wait := by
  rcases (h.threads x t ht).1 with hs | hs <;> rw [hs] <;> decide

theorem QueueInv.init (h : IpcInit s0) : QueueInv s0 := ⟨by simp [h.queue], by simp [h.queue]⟩

theorem Asleep.init (h : IpcInit s0) : Asleep s0 := fun _ _ ht hw => absurd hw (h.not_wait ht)

theorem Named.init (h : IpcInit s0) : Named s0 := fun _ _ ht hw => absurd hw.1 (h.not_wait ht)

theorem IdsOk.init (h : IpcInit s0) : IdsOk s0.threads :=
  ⟨h.tid, fun x t ht => (h.threads x t ht).2.1⟩

theorem asleep_reach (h0 : IpcInit s0) (h : Reach ipcStep NoQueuedReply s0 s) :
    QueueInv s ∧ Asleep s := by
  refine h.invariant (I := fun s => QueueInv s ∧ Asleep s) ⟨QueueInv.init h0, Asleep.init h0⟩ ?_
  rintro u a v ⟨hq, ha⟩ hok hs
  obtain ⟨t, ht, hn, he⟩ := ipcStep_effect hs
  exact ⟨hq.effect ht hn he, ha.effect ht hn hok he⟩

theorem named_reach (h0 : IpcInit s0) (h : Reach ipcStep OneReplyOwed s0 s) :
    Named s ∧ IdsOk s.threads := by
  refine h.invariant (I := fun s => Named s ∧ IdsOk s.threads) ⟨Named.init h0, IdsOk.init h0⟩ ?_
  rintro u a v ⟨hnamed, hids⟩ hok hs
  obtain ⟨t, ht, hn, he⟩ := ipcStep_effect hs
  exact ⟨hnamed.effect ht hn hok he, hids.effect ht he⟩

theorem ipc_wait_consistent (s0 s : IpcState) (h0 : IpcInit s0)
    (h : Reach ipcStep NoQueuedReply s0 s) :
    WaitConsistent s ∧ (Reach ipcStep OneReplyOwed s0 s → Findable s) := by
  obtain ⟨hq, ha⟩ := asleep_reach h0 h
  refine ⟨waitConsistent_of hq ha, fun h' => ?_⟩
  obtain ⟨hnamed, hids⟩ := named_reach h0 h'
  exact findable_of ha hnamed hids

def threeThreads : IpcState where
  threads := fun tid =>
    if tid = 1 ∨ tid = 2 ∨ tid = 3 then
      some { newThread (10 * tid) with state := .normal, refCount := 2, ran := true }
    else none
  procs := fun pid => if pid = 10 ∨ pid = 20 ∨ pid = 30 then some 0 else none
  systemPid := 10
  queue := []
  exchanges := []
  answered := []

theorem threeThreads_init : IpcInit threeThreads := by
  refine ⟨rfl, rfl, rfl, rfl, fun tid t ht => ?_⟩
  simp only [threeThreads] at ht
  split_ifs at ht with htid
  cases ht
  refine ⟨.inr rfl, ?_, rfl⟩
  simp only [newThread]
  omega

theorem ipc_wait_consistent_while_served :
    ∃ s, execute ipcStep OneReplyOwed threeThreads [.receive 2, .request 1 20 7 5 0] = some s ∧
    s.queue = [1] ∧
      WaitConsistent s ∧ Findable s := by
  refine exists_execute (P := fun s => s.queue = [1]) (by decide +kernel) fun s hreach hqueue => ?_
  obtain ⟨hwait, hfind⟩ := ipc_wait_consistent threeThreads s threeThreads_init
    (hreach.mono fun _ _ h => h.1)
  exact ⟨hqueue, hwait, hfind hreach⟩

/-- A queued sender that expects a reply sleeps for ever once it is received. -/
theorem received_sender_is_lost :
    ¬ ∀ s0 s : IpcState, IpcInit s0 → Reach ipcStep anyStep s0 s →
    WaitConsistent s ∧ Findable s := by
  intro h
  obtain ⟨s, hs, hqueue, hstate⟩ : ∃ s, Reach ipcStep anyStep threeThreads s ∧ s.queue = [] ∧
      (s.threads 1).map Thread.state = some .wait :=
    exists_reach [.request 1 20 7 5 0, .receive 2] (by decide +kernel)
  obtain ⟨t, ht, hw⟩ := map_eq_some_iff.mp hstate
  have hlinked := (h threeThreads s threeThreads_init hs).1.linked 1
  rw [hqueue] at hlinked
  exact absurd (hlinked.mpr ⟨t, ht, hw⟩) not_mem_nil

end Toddler
