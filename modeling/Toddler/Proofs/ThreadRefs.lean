import Toddler.Spec.ThreadLife
import Toddler.Proofs.IpcReply

/-! Reference counts of threads. What a thread's count holds beyond its own reference, the one of
`run_thread` and the handles is owed to open exchanges; each exchange is one sleeping sender and the
live thread it waits for. -/

namespace Toddler

open Function List Option IpcState

variable {f : ℕ → Option Thread} {ex : List (ℕ × ℕ)} {s s' s0 : IpcState}

/-- The thread waits for `y` to reply. -/
def WaitsFor : Option Thread → ℕ → Prop
  | some u, y => u.awaits ∧ u.ipcWait.tid = y
  | none, _ => False

/-- The open exchanges are the threads that wait for a reply, each with the thread it waits for. -/
structure ExchInv (f : ℕ → Option Thread) (ex : List (ℕ × ℕ)) : Prop where
  clients : (ex.map Prod.fst).Nodup
  waits : ∀ x y, (x, y) ∈ ex ↔ WaitsFor (f x) y
  alive : ∀ e ∈ ex, ∃ r, f e.2 = some r
  apart : ∀ e ∈ ex, e.1 ≠ e.2

variable {x : ℕ} {r t u : Thread}

section

variable (hi : ExchInv f ex)
include hi

theorem ExchInv.listed (ht : f x = some t) (hw : t.awaits) : (x, t.ipcWait.tid) ∈ ex := by
  rw [hi.waits, ht]
  exact ⟨hw, rfl⟩

theorem ExchInv.party_alive (hx : f x = none) : ∀ e ∈ ex, e.1 ≠ x ∧ e.2 ≠ x := by
  intro e he
  constructor
  · rintro rfl
    have hw := (hi.waits e.1 e.2).mp he
    rwa [hx] at hw
  · rintro rfl
    obtain ⟨r, hr⟩ := hi.alive e he
    cases hx.symm.trans hr

/-- The record of a thread changes, but not what it waits for. -/
theorem ExchInv.change {o : Option Thread} (hw : ∀ y, WaitsFor o y ↔ WaitsFor (f x) y)
    (ho : o = none → ∀ e ∈ ex, e.2 ≠ x) : ExchInv (update f x o) ex := by
  refine ⟨hi.clients, fun z y => ?_, fun e he => ?_, hi.apart⟩
  · rw [hi.waits, update_apply]
    split_ifs with hz
    · rw [hz, hw]
    · rfl
  · rw [update_apply]
    split_ifs with hz
    · exact ne_none_iff_exists'.mp fun h => ho h e he hz
    · exact hi.alive e he

theorem ExchInv.put (ht : f x = some t) (hw : ∀ y, WaitsFor (some u) y ↔ WaitsFor (some t) y) :
    ExchInv (update f x (some u)) ex :=
  hi.change (ht ▸ hw) (by simp)

theorem ExchInv.put_awake (ht : f x = some t) (htw : ¬ t.awaits) (huw : ¬ u.awaits) :
    ExchInv (update f x (some u)) ex :=
  hi.put ht fun _ => iff_of_false (fun h => huw h.1) fun h => htw h.1

theorem ExchInv.new (hx : f x = none) (huw : ¬ u.awaits) : ExchInv (update f x (some u)) ex :=
  hi.change (fun _ => iff_of_false (fun h => huw h.1) (by rw [hx]; exact id)) (by simp)

theorem ExchInv.remove (hx : ∀ e ∈ ex, e.1 ≠ x ∧ e.2 ≠ x) : ExchInv (update f x none) ex :=
  hi.change (fun y => iff_of_false id fun h => (hx _ ((hi.waits x y).mpr h)).1 rfl)
    fun _ e he => (hx e he).2

/-- The thread `x` starts to wait for a live thread. -/
theorem ExchInv.await (ht : f x = some t) (htw : ¬ t.awaits) (huw : u.awaits)
    (hr : f u.ipcWait.tid = some r) (hne : x ≠ u.ipcWait.tid) :
    ExchInv (update f x (some u)) ((x, u.ipcWait.tid) :: ex) := by
  have hno : ∀ y, ¬ WaitsFor (f x) y := fun y h => htw (ht ▸ h).1
  refine ⟨nodup_cons.mpr ⟨fun hmem => ?_, hi.clients⟩, fun z y => ?_, fun e he => ?_,
    forall_mem_cons.mpr ⟨hne, hi.apart⟩⟩
  · obtain ⟨e, he, rfl⟩ := mem_map.mp hmem
    exact hno e.2 ((hi.waits _ _).mp he)
  · rw [mem_cons, hi.waits, update_apply]
    split_ifs with hz
    · subst hz
      rw [or_iff_left (hno y)]
      simp [WaitsFor, huw, eq_comm]
    · simp [hz]
  · obtain ⟨q, hq⟩ := (mem_cons.mp he).elim (fun h => ⟨r, h ▸ hr⟩) (hi.alive e)
    by_cases hex : e.2 = x
    · exact ⟨u, by rw [hex, update_self]⟩
    · exact ⟨q, thread_kept hq hex⟩

/-- The thread `x` is woken out of its exchange. -/
theorem ExchInv.settle {c : Thread} (hc : f x = some c) (huw : ¬ u.awaits) :
    ExchInv (update f x (some u)) (ex.erase (x, c.ipcWait.tid)) := by
  refine ⟨hi.clients.sublist (erase_sublist.map _), fun z y => ?_, fun e he => ?_,
    fun e he => hi.apart e (mem_of_mem_erase he)⟩
  · rw [(Nodup.of_map _ hi.clients).mem_erase_iff, hi.waits, update_apply]
    split_ifs with hz
    · subst hz
      refine iff_of_false ?_ fun h => huw h.1
      rw [hc]
      rintro ⟨hne, -, rfl⟩
      exact hne rfl
    · simp [hz]
  · obtain ⟨q, hq⟩ := hi.alive e (mem_of_mem_erase he)
    by_cases hex : e.2 = x
    · exact ⟨u, by rw [hex, update_self]⟩
    · exact ⟨q, thread_kept hq hex⟩

end

variable {tid : ℕ} {a : IpcAction}

theorem ExchInv.effect (hi : ExchInv s.threads s.exchanges) (hq : QueueInv s)
    (ht : s.threads tid = some t) (hn : t.state = .normal) (h : IpcEffect s tid t a s') :
    ExchInv s'.threads s'.exchanges := by
  have htw := Thread.not_awaits_of_normal hn
  cases h with
  | failed => exact hi.put_awake ht htw htw
  | popup hfresh =>
    refine (hi.new hfresh ?_).put_awake (thread_kept ht (ne_of_none ht hfresh)) htw htw
    exact Thread.not_awaits_of_normal rfl
  | popupReply hfresh =>
    have hne := ne_of_none ht hfresh
    refine (hi.new hfresh ?_).await (thread_kept ht hne) htw ⟨rfl, rfl⟩ (update_self _ _ _) hne
    exact Thread.not_awaits_of_normal rfl
  | sent hr hne =>
    refine (hi.put_awake hr.thread (hr.not_awaits (by decide)) ?_).put_awake
      (thread_kept ht hne) htw htw
    exact Thread.not_awaits_of_normal rfl
  | sentReply _ _ hr hne =>
    refine (hi.put_awake hr.thread (hr.not_awaits (by decide)) ?_).await (thread_kept ht hne) htw
      ⟨rfl, rfl⟩ (update_self _ _ _) hne
    exact Thread.not_awaits_of_normal rfl
  | queued => exact hi.put_awake ht htw fun hw => by cases hw.2
  | responded hc _ hne =>
    refine (hi.settle hc.thread ?_).put_awake (thread_kept ht hne) htw htw
    exact Thread.not_awaits_of_normal rfl
  | received hc hne =>
    refine (hi.put_awake hc.thread (hc.not_awaits (by decide)) ?_).put_awake
      (thread_kept ht hne) htw htw
    exact Thread.not_awaits_of_normal rfl
  | @receivedReply x c ret _ _ hc =>
    have hne := hq.ne_running ht hn hc.queued
    have hwait := hq.wait hc.queued hc.thread
    have h1 := hi.await (u := { c with
      waitType := .forResp, ipcWait := { c.ipcWait with pid := t.pid, tid := tid }
      refCount := c.refCount + 1 })
      hc.thread (hc.not_awaits (by decide)) ⟨hwait, rfl⟩ ht hne.symm
    exact h1.put_awake (thread_kept ht hne) htw htw
  | receiving => exact hi.put_awake ht htw fun hw => by cases hw.2

/-- The references that are neither the thread's own, nor of `run_thread`, nor handles. -/
def Thread.owed (t : Thread) : ℤ := t.refCount - 1 - (if t.ran then 1 else 0) - t.handles

def party (x : ℕ) (e : ℕ × ℕ) : Bool := e.1 = x ∨ e.2 = x

def RefInv (f : ℕ → Option Thread) (ex : List (ℕ × ℕ)) : Prop :=
  ∀ x t, f x = some t → t.owed = ex.countP (party x)

theorem RefInv.put (hi : RefInv f ex) (ht : f x = some t) (hu : u.owed = t.owed) :
    RefInv (update f x (some u)) ex := by
  refine forall_update (fun y _ => hi y) ?_
  rintro _ ⟨⟩
  exact hu.trans (hi x t ht)

theorem RefInv.new (hi : RefInv f ex) (hx : ∀ e ∈ ex, e.1 ≠ x ∧ e.2 ≠ x) (hu : u.owed = 0) :
    RefInv (update f x (some u)) ex := by
  refine forall_update (fun y _ => hi y) ?_
  rintro _ ⟨⟩
  have hzero : ex.countP (party x) = 0 := countP_eq_zero.mpr fun e he => by simp [party, hx e he]
  rw [hu, hzero]
  rfl

theorem RefInv.deliver (hi : RefInv f ex) {y : ℕ} {q : Thread} (ht : f x = some t)
    (hr : f y = some r) (hu : u.owed = t.owed + 1) (hq : q.owed = r.owed + 1) :
    RefInv (update (update f y (some q)) x (some u)) ((x, y) :: ex) := by
  intro z v hv
  rw [update_apply, update_apply] at hv
  split_ifs at hv with hzx hzy
  · cases hv
    simp [party, hzx, hu, hi x t ht]
  · cases hv
    simp [party, hzy, hq, hi y r hr]
  · have hno : party z (x, y) = false := by simp [party, Ne.symm hzx, Ne.symm hzy]
    simp [hno, hi z v hv]

theorem RefInv.settle (hi : RefInv f ex) {y : ℕ} {q : Thread} (hmem : (x, y) ∈ ex)
    (ht : f x = some t) (hr : f y = some r) (hu : u.owed = t.owed - 1) (hq : q.owed = r.owed - 1) :
    RefInv (update (update f x (some u)) y (some q)) (ex.erase (x, y)) := by
  intro z v hv
  have hcount := (perm_cons_erase hmem).countP_eq (party z)
  rw [countP_cons] at hcount
  rw [update_apply, update_apply] at hv
  split_ifs at hv with hzy hzx
  · cases hv
    subst hzy
    rw [if_pos (by simp [party])] at hcount
    have := hi z r hr
    omega
  · cases hv
    subst hzx
    rw [if_pos (by simp [party])] at hcount
    have := hi z t ht
    omega
  · have hno : party z (x, y) = false := by simp [party, Ne.symm hzx, Ne.symm hzy]
    rw [hno] at hcount
    rw [hi z v hv, hcount]
    simp

theorem RefInv.effect (hi : RefInv s.threads s.exchanges)
    (hexch : ExchInv s.threads s.exchanges) (hq : QueueInv s) (hserves : ServesInv s.threads)
    (ht : s.threads tid = some t) (hn : t.state = .normal) (hok : RespondsOnce s a)
    (h : IpcEffect s tid t a s') : RefInv s'.threads s'.exchanges := by
  cases h with
  | failed => exact hi.put ht rfl
  | popup hfresh =>
    refine (hi.new (hexch.party_alive hfresh) ?_).put (thread_kept ht (ne_of_none ht hfresh)) rfl
    simp [Thread.owed, newThread]
  | @popupReply _ pid newTid hfresh h0 hpid =>
    have h1 := hi.new (u := newThread pid) (hexch.party_alive hfresh) (by simp [Thread.owed, newThread])
    have h2 := h1.deliver (thread_kept ht (ne_of_none ht hfresh)) (update_self _ _ _) (u := { t with
        state := .wait, waitType := .forResp, ipcWait := { t.ipcWait with pid := pid, tid := newTid }
        refCount := t.refCount + 1, ret := (0, 0), requests := t.requests + 1 })
      (q := { newThread pid with
        state := .normal, refCount := 3, ran := true
        ipcReplyTo := ⟨t.pid, tid⟩, serves := some (tid, t.requests + 1) })
      (by simp only [Thread.owed]; ring) (by simp [Thread.owed, newThread])
    rwa [update_idem] at h2
  | sent hr hne => exact (hi.put hr.thread (by rfl)).put (thread_kept ht hne) rfl
  | sentReply _ _ hr =>
    apply hi.deliver ht hr.thread
    · simp only [Thread.owed]
      ring
    · simp only [Thread.owed]
      ring
  | queued => exact hi.put ht rfl
  | responded hc hto =>
    obtain ⟨hwait, -⟩ := hserves.waits_for ht (hok.serves ht hto) hto.1 hc.thread
    have hlisted := hexch.listed hc.thread ⟨hq.wait hc.queued hc.thread, hc.type⟩
    simp only [hwait] at hlisted ⊢
    apply hi.settle hlisted hc.thread ht
    · simp only [Thread.owed]
      ring
    · simp only [Thread.owed]
      ring
  | received hc hne => exact (hi.put hc.thread (by rfl)).put (thread_kept ht hne) rfl
  | @receivedReply x c ret _ _ hc =>
    have h1 := hi.deliver hc.thread ht (u := { c with
        waitType := .forResp, ipcWait := { c.ipcWait with pid := t.pid, tid := tid },
          refCount := c.refCount + 1 })
      (q := { t with
        ret := ret, ipcReplyTo := ⟨c.pid, x⟩
        refCount := t.refCount + 1, serves := some (x, c.requests) })
      (by simp only [Thread.owed]; ring) (by simp only [Thread.owed]; ring)
    rwa [update_comm (hq.ne_running ht hn hc.queued)] at h1
  | receiving => exact hi.put ht rfl

def RanInv (f : ℕ → Option Thread) : Prop := ∀ x t, f x = some t → (t.ran = true ↔ t.state ≠ .enter)

theorem RanInv.put (hi : RanInv f) (hu : u.ran = true ↔ u.state ≠ .enter) :
    RanInv (update f x (some u)) := by
  refine forall_update (fun y _ => hi y) ?_
  rintro _ ⟨⟩
  exact hu

theorem RanInv.effect (hi : RanInv s.threads) (hq : QueueInv s)
    (ht : s.threads tid = some t) (hn : t.state = .normal) (h : IpcEffect s tid t a s') :
    RanInv s'.threads := by
  have hran : t.ran = true := (hi tid t ht).mpr (by rw [hn]; decide)
  have hself : t.ran = true ↔ t.state ≠ .enter := hi tid t ht
  have hasleep : t.ran = true ↔ ThreadState.wait ≠ .enter := iff_of_true hran (by decide)
  -- a thread of the queue has been run
  have hqueue : ∀ {w x u}, s.Found w x u → (u.ran = true ↔ ThreadState.normal ≠ .enter) := by
    intro w x u hu
    have hran := (hi x u hu.thread).mpr (by rw [hq.wait hu.queued hu.thread]; decide)
    exact iff_of_true hran (by decide)
  cases h with
  | failed => exact hi.put hself
  | popup => exact (hi.put (by simp)).put hself
  | popupReply => exact (hi.put (by simp)).put hasleep
  | sent hr => exact (hi.put (hqueue hr)).put hself
  | sentReply _ _ hr => exact (hi.put (hqueue hr)).put hasleep
  | queued => exact hi.put hasleep
  | responded hc => exact (hi.put (hqueue hc)).put hself
  | received hc => exact (hi.put (hqueue hc)).put hself
  | receivedReply _ _ hc =>
    have hran := hi _ _ hc.thread
    refine (hi.put ?_).put hself
    exact hran
  | receiving => exact hi.put hasleep

structure LifeInv (s : IpcState) : Prop where
  queue : QueueInv s
  ids : IdsOk s.threads
  serves : ServesInv s.threads
  exch : ExchInv s.threads s.exchanges
  refs : RefInv s.threads s.exchanges
  ran : RanInv s.threads

theorem LifeInv.ipc (hi : LifeInv s) (hok : RespondsOnce s a) (h : ipcStep s a = some s') :
    LifeInv s' := by
  obtain ⟨t, ht, hn, he⟩ := ipcStep_effect h
  exact ⟨hi.queue.effect ht hn he, hi.ids.effect ht he, hi.serves.effect hi.queue ht hn hok he,
    hi.exch.effect hi.queue ht hn he, hi.refs.effect hi.exch hi.queue hi.serves ht hn hok he,
    hi.ran.effect hi.queue ht hn he⟩

theorem QueueInv.same (hi : QueueInv s) (ht : s.threads x = some t)
    (hu : u.state = t.state) : QueueInv (s.put x u) := by
  refine ⟨hi.once, fun y hy => ?_⟩
  by_cases hyx : y = x
  · subst hyx
    exact ⟨u, by simp, hu.trans (hi.wait hy ht)⟩
  · simpa [hyx] using hi.waits y hy

/-- The record of a thread changes in what nobody who serves it looks at. -/
theorem ServesInv.same (hi : ServesInv f) (ht : f x = some t) (hpid : u.pid = t.pid)
    (hreq : u.requests = t.requests) (hw : t.awaits → u.awaits) (hwait : u.ipcWait = t.ipcWait)
    (hs : u.serves = none ∨ (u.serves = t.serves ∧ u.ipcReplyTo = t.ipcReplyTo)) :
    ServesInv (update f x (some u)) := by
  have hserving : ∀ y r, Serving f y r → Serving (update f x (some u)) y r := by
    rintro y r ⟨v, hv, h1, h2, h3, h4⟩
    by_cases hx : r.ipcReplyTo.tid = x
    · rw [hx, ht] at hv
      cases hv
      exact ⟨u, by rw [hx, update_self], h1.trans hpid.symm, by rw [h2, hreq], hw h3, by rw [hwait, h4]⟩
    · exact ⟨v, thread_kept hv hx, h1, h2, h3, h4⟩
  refine forall_update (fun y _ r hr hrs => hserving y r (hi y r hr hrs)) ?_
  rintro _ ⟨⟩ hus
  rcases hs with hs | ⟨hs, hto⟩
  · exact absurd hs hus
  · obtain ⟨v, hv, h1, h2, h3, h4⟩ := hserving x t (hi x t ht (hs ▸ hus))
    exact ⟨v, by rw [hto, hv], by rw [hto, h1], by rw [hs, hto, h2], h3, h4⟩

/-- A step on one thread that touches its count and its handles alike. -/
theorem LifeInv.recount (hi : LifeInv s) (ht : s.threads x = some t)
    (hu : ∃ rc h, u = { t with refCount := rc, handles := h }) (howed : u.owed = t.owed) :
    LifeInv (s.put x u) := by
  obtain ⟨rc, h, rfl⟩ := hu
  exact ⟨hi.queue.same ht rfl, hi.ids.put (hi.ids.ne_zero ht) (hi.ids.pid x t ht),
    hi.serves.same ht rfl rfl (fun h => h) rfl (Or.inr ⟨rfl, rfl⟩), hi.exch.put ht fun _ => Iff.rfl,
    hi.refs.put ht howed, hi.ran.put (hi.ran x t ht)⟩

theorem LifeInv.create {pid newTid : ℕ} (hi : LifeInv s) (h : createThread s pid newTid = some s') :
    LifeInv s' := by
  unfold createThread at h
  split_ifs at h with hguard
  cases h
  push Not at hguard
  obtain ⟨hpid, h0, hfresh⟩ := hguard
  have hun := hi.serves.unserved (x := newTid) fun u hu => by simp [hfresh] at hu
  have hnw : ¬ (newThread pid).awaits := fun hw => by cases hw.1
  exact ⟨hi.queue.put (hi.queue.not_mem_of_none hfresh), hi.ids.put h0 hpid,
    hi.serves.put hun fun h => absurd rfl h, hi.exch.new hfresh hnw,
    hi.refs.new (hi.exch.party_alive hfresh) (by simp [Thread.owed, newThread]),
    hi.ran.put (by simp [newThread])⟩

theorem LifeInv.run (hi : LifeInv s) (h : threadStep s (.run tid) = some s') : LifeInv s' := by
  simp only [threadStep, bind_eq_bind, bind_eq_some_iff] at h
  obtain ⟨t, ht, h⟩ := h
  split_ifs at h with henter
  simp only [Thread.run, Thread.setState, henter, true_or, if_true, bind_some,
    Option.some.injEq] at h
  subst h
  have hran : t.ran = false := by
    have := hi.ran tid t ht
    simpa [henter] using this
  have htw : ¬ t.awaits := fun hw => by
    have := hw.1
    rw [henter] at this
    cases this
  refine ⟨hi.queue.put (hi.queue.not_mem ht (by rw [henter]; decide)),
    hi.ids.put (hi.ids.ne_zero ht) (hi.ids.pid tid t ht),
    hi.serves.keep ht (hi.serves.unserved_of_not_awaits ht htw) rfl rfl,
    hi.exch.put_awake ht htw (Thread.not_awaits_of_normal rfl), hi.refs.put ht ?_,
    hi.ran.put (by simp)⟩
  simp only [Thread.owed, hran]
  simp

theorem Thread.release_eq (h : t.release = some u) :
    u = { t with refCount := t.refCount - 1, handles := t.handles - 1 } := by
  unfold Thread.release at h
  split_ifs at h
  cases h
  rfl

theorem LifeInv.acquire (hi : LifeInv s) (h : threadStep s (.acquire tid) = some s') :
    LifeInv s' := by
  simp only [threadStep, bind_eq_bind, bind_eq_some_iff, Option.some.injEq] at h
  obtain ⟨t, ht, rfl⟩ := h
  refine hi.recount ht ⟨_, _, rfl⟩ ?_
  change t.refCount + 1 - 1 - (if t.ran = true then 1 else 0) - ((t.handles + 1 : ℕ) : ℤ) = t.owed
  simp only [Thread.owed]
  omega

theorem LifeInv.release (hi : LifeInv s) (h : threadStep s (.release tid) = some s') :
    LifeInv s' := by
  simp only [threadStep, bind_eq_bind, bind_eq_some_iff] at h
  obtain ⟨t, ht, h⟩ := h
  split_ifs at h with hh
  obtain ⟨u, hu, h⟩ := bind_eq_some_iff.mp h
  rw [Thread.release_eq hu] at h
  cases h
  refine hi.recount ht ⟨_, _, rfl⟩ ?_
  simp only [Thread.owed]
  omega

theorem dropReply_eq {client server : ℕ} (hr : s.threads server = some r)
    (h : dropReply s client server = some s') :
    s' = { s with exchanges := s.exchanges.erase (client, server) }.put server
      { r with ipcReplyTo := ⟨0, 0⟩, refCount := r.refCount - 1, serves := none } := by
  simp only [dropReply, hr, bind_eq_bind, bind_eq_some_iff, Option.some.injEq] at h
  obtain ⟨q, hq, rfl⟩ := h
  rw [Thread.release_eq hq]
  simp [Thread.acquire]

/-- What a round of the purge does to a thread `x` that waits for a reply. -/
theorem purgeOne_eq (hi : LifeInv s) (ht : s.threads x = some t) (hw : t.awaits)
    (h : purgeOne s x = some s') : ∃ r, s.threads t.ipcWait.tid = some r ∧ x ≠ t.ipcWait.tid ∧
      s'.queue = s.queue.erase x ∧ s'.exchanges = s.exchanges.erase (x, t.ipcWait.tid) ∧
      s'.threads = update (update s.threads t.ipcWait.tid
        (some { r with ipcReplyTo := ⟨0, 0⟩, refCount := r.refCount - 1, serves := none })) x
        (some { t with refCount := t.refCount - 1, state := .normal }) := by
  have hlisted := hi.exch.listed ht hw
  obtain ⟨r, hr⟩ := hi.exch.alive _ hlisted
  have hne : x ≠ t.ipcWait.tid := hi.exch.apart _ hlisted
  have h0 : t.ipcWait.tid ≠ 0 := hi.ids.ne_zero hr
  refine ⟨r, hr, hne, ?_⟩
  simp only [purgeOne, ht, bind_eq_bind, bind_some] at h
  rw [if_pos ⟨hw.2, h0⟩] at h
  obtain ⟨s1, hdrop, h⟩ := bind_eq_some_iff.mp h
  have hs1 := dropReply_eq (by simpa [Ne.symm hne] using hr) hdrop
  obtain ⟨u, hu, h⟩ := bind_eq_some_iff.mp h
  obtain ⟨v, hv, h⟩ := bind_eq_some_iff.mp h
  obtain ⟨rfl, -⟩ := Thread.wakeup_eq hv
  rw [hs1, put_threads, if_neg hne] at hu
  simp only [put_threads, if_true, Option.some.injEq] at hu
  subst hu
  cases h
  refine ⟨by rw [hs1]; rfl, by rw [hs1]; rfl, ?_⟩
  rw [hs1]
  funext y
  simp only [put_threads, update_apply]
  split_ifs <;> rfl

theorem LifeInv.purgeOne (hi : LifeInv s) (hx : x ∈ s.queue) (ht : s.threads x = some t)
    (htype : t.waitType = .forResp) (h : purgeOne s x = some s') :
    LifeInv s' ∧ s'.queue = s.queue.erase x ∧
      ∀ y u, y ≠ x → s'.threads y = some u → ∃ v, s.threads y = some v ∧ u.waitType = v.waitType := by
  have hw : t.awaits := ⟨hi.queue.wait hx ht, htype⟩
  obtain ⟨r, hr, hne, hqueue, hexch, hthreads⟩ := purgeOne_eq hi ht hw h
  have hself := (update_of_ne hne
    (some { r with ipcReplyTo := ⟨0, 0⟩, refCount := r.refCount - 1, serves := none })
    s.threads).trans ht
  have hlisted := hi.exch.listed ht hw
  refine ⟨⟨?_, ?_, ?_, ?_, ?_, ?_⟩, hqueue, fun y u hy hu => ?_⟩
  · have h1 := hi.queue.same (u := { r with
        ipcReplyTo := ⟨0, 0⟩, refCount := r.refCount - 1, serves := none }) hr rfl
    exact (h1.wake x { t with refCount := t.refCount - 1, state := .normal }).congr hqueue hthreads
  · rw [hthreads]
    have hp := hi.ids.pid _ _ hr
    have hp' := hi.ids.pid _ _ ht
    refine (hi.ids.put (hi.ids.ne_zero hr) ?_).put (hi.ids.ne_zero ht) ?_
    · exact hp
    · exact hp'
  · rw [hthreads]
    have h1 := hi.serves.same (u :=
      { r with ipcReplyTo := ⟨0, 0⟩, refCount := r.refCount - 1, serves := none })
      hr rfl rfl (fun h => h) rfl (Or.inl rfl)
    exact h1.keep hself (hi.serves.unserved_of_drop ht rfl) rfl rfl
  · rw [hthreads, hexch]
    have h1 :=
      hi.exch.put (u := { r with ipcReplyTo := ⟨0, 0⟩, refCount := r.refCount - 1, serves := none })
      hr fun _ => Iff.rfl
    exact h1.settle hself (Thread.not_awaits_of_normal rfl)
  · rw [hthreads, hexch]
    have h1 := hi.refs.settle (u := { t with refCount := t.refCount - 1, state := .normal })
      (q := { r with ipcReplyTo := ⟨0, 0⟩, refCount := r.refCount - 1, serves := none }) hlisted ht hr
      (by simp only [Thread.owed]; ring) (by simp only [Thread.owed]; ring)
    rwa [update_comm hne] at h1
  · rw [hthreads]
    have hran := hi.ran _ _ hr
    have hran' : t.ran = true := (hi.ran x t ht).mpr (by rw [hw.1]; decide)
    refine (hi.ran.put ?_).put ?_
    · exact hran
    · simp [hran']
  · rw [hthreads, update_of_ne hy] at hu
    rw [update_apply] at hu
    split_ifs at hu with hyr
    · cases hu
      exact ⟨r, by rw [hyr, hr], rfl⟩
    · exact ⟨u, hu, rfl⟩

theorem LifeInv.purge_loop (l : List ℕ) : ∀ {s s' : IpcState}, LifeInv s → l.Nodup →
    (∀ x ∈ l, x ∈ s.queue ∧ ∀ t, s.threads x = some t → t.waitType = .forResp) →
    l.foldlM Toddler.purgeOne s = some s' → LifeInv s' := by
  induction l with
  | nil =>
    intro s s' hi _ _ h
    cases h
    exact hi
  | cons x l ih =>
    intro s s' hi hnodup hl h
    obtain ⟨hx, hnodup⟩ := nodup_cons.mp hnodup
    obtain ⟨u, hu, h⟩ := bind_eq_some_iff.mp (by simpa using h)
    obtain ⟨hxq, htype⟩ := hl x mem_cons_self
    obtain ⟨t, ht, -⟩ := hi.queue.waits x hxq
    obtain ⟨hi', hqueue, hkeep⟩ := hi.purgeOne hxq ht (htype t ht) hu
    refine ih hi' hnodup (fun y hy => ?_) h
    have hyx : y ≠ x := fun heq => hx (heq ▸ hy)
    obtain ⟨hyq, hytype⟩ := hl y (mem_cons_of_mem x hy)
    refine ⟨hqueue ▸ (mem_erase_of_ne hyx).mpr hyq, fun v hv => ?_⟩
    obtain ⟨w, hw, heq⟩ := hkeep y v hyx hv
    exact heq.trans (hytype w hw)

theorem LifeInv.purge {pid : ℕ} (hi : LifeInv s) (hok : RefsKept s (.purge pid))
    (h : purgeIpcQueue s pid = some s') : LifeInv s' := by
  refine LifeInv.purge_loop (s.waitingOf pid) hi (hi.queue.once.filter _) (fun x hx => ?_) h
  exact ⟨(mem_filter.mp hx).1, fun t ht => hok x hx t ht⟩

theorem exitThread_isSome_iff (hi : LifeInv s) (ht : s.caller tid = some t) :
    (exitThread s tid).isSome ↔ t.handles = 0 ∧ s.openExchanges tid = 0 := by
  obtain ⟨hthread, hn⟩ := caller_eq_some.mp ht
  have hran : t.ran = true := (hi.ran tid t hthread).mpr (by rw [hn]; decide)
  have howed : t.owed = s.openExchanges tid := hi.refs tid t hthread
  simp only [Thread.owed, hran, if_true] at howed
  simp only [exitThread, ht, bind_eq_bind, bind_some]
  split_ifs with hrc
  · simp only [isSome_none, Bool.false_eq_true, false_iff]
    omega
  · simp only [isSome_some, true_iff]
    omega

theorem LifeInv.exit (hi : LifeInv s) (h : exitThread s tid = some s') : LifeInv s' := by
  have hsome : (exitThread s tid).isSome := by rw [h]; rfl
  simp only [exitThread, bind_eq_bind, bind_eq_some_iff] at h
  obtain ⟨t, ht, h⟩ := h
  obtain ⟨-, hopen⟩ := (exitThread_isSome_iff hi ht).mp hsome
  obtain ⟨ht, hn⟩ := caller_eq_some.mp ht
  split_ifs at h
  cases h
  have hparty : ∀ e ∈ s.exchanges, e.1 ≠ tid ∧ e.2 ≠ tid := by
    intro e he
    have := countP_eq_zero.mp hopen e he
    simpa using this
  have hun := hi.serves.unserved_of_not_awaits ht (Thread.not_awaits_of_normal hn)
  have htid : tid ∉ s.queue := hi.queue.not_mem ht (by rw [hn]; decide)
  refine ⟨⟨hi.queue.once, fun y hy => ?_⟩, ⟨?_, forall_update (fun y _ => hi.ids.pid y) (by simp)⟩,
    forall_update (fun y _ r hr hs => ?_) (by simp), hi.exch.remove hparty,
    forall_update (fun y _ => hi.refs y) (by simp), forall_update (fun y _ => hi.ran y) (by simp)⟩
  · have hne : y ≠ tid := fun heq => htid (heq ▸ hy)
    simpa [update_of_ne hne] using hi.queue.waits y hy
  · simp only [update_apply]
    split_ifs
    · rfl
    · exact hi.ids.tid
  · obtain ⟨u, hu, hrest⟩ := hi.serves y r hr hs
    exact ⟨u, thread_kept hu (hun y r hr hs), hrest⟩

theorem lifeInv_step {a : ThreadAction} (hi : LifeInv s) (hok : RefsKept s a)
    (h : threadStep s a = some s') : LifeInv s' := by
  cases a with
  | create pid newTid => exact hi.create h
  | run tid => exact hi.run h
  | acquire tid => exact hi.acquire h
  | release tid => exact hi.release h
  | ipc a => exact hi.ipc hok h
  | purge pid => exact hi.purge hok h
  | exit tid => exact hi.exit h

theorem lifeInv_init (h : NoThreads s0) : LifeInv s0 := by
  refine ⟨⟨?_, ?_⟩, ⟨h.threads 0, ?_⟩, ?_, ⟨?_, ?_, ?_, ?_⟩, ?_, ?_⟩
  · simp [h.queue]
  · simp [h.queue]
  · simp [h.threads]
  · simp [ServesInv, h.threads]
  · simp [h.exchanges]
  · simp [h.exchanges, h.threads, WaitsFor]
  · simp [h.exchanges]
  · simp [h.exchanges]
  · simp [RefInv, h.threads]
  · simp [RanInv, h.threads]

theorem LifeInv.refCountsMatch (hi : LifeInv s) : RefCountsMatch s := by
  intro tid t ht
  have howed : t.owed = s.openExchanges tid := hi.refs tid t ht
  simp only [Thread.owed] at howed
  omega

theorem thread_ref_counts (s0 s : IpcState) (h0 : NoThreads s0)
    (h : Reach threadStep RefsKept s0 s) : RefCountsMatch s ∧ ∀ tid t, s.caller tid = some t →
      ((exitThread s tid).isSome ↔ t.handles = 0 ∧ s.openExchanges tid = 0) := by
  have hi : LifeInv s := h.invariant (lifeInv_init h0) fun _ _ _ hi hok hs => lifeInv_step hi hok hs
  exact ⟨hi.refCountsMatch, fun tid t ht => exitThread_isSome_iff hi ht⟩

def twoProcesses : IpcState where
  threads := fun _ => none
  procs := fun pid => if pid = 10 ∨ pid = 20 then some 0 else none
  systemPid := 10
  queue := []
  exchanges := []
  answered := []

theorem thread_ref_counts_purged_client : ∃ s, execute threadStep RefsKept twoProcesses
        [.create 10 1, .run 1, .create 20 2, .run 2, .ipc (.receive 2), .ipc (.request 1 20 7 5 0),
        .acquire 2,
          .purge 10] = some s ∧
      RefCountsMatch s ∧ (exitThread s 1).isSome := by
  refine exists_execute (P := fun s => (s.caller 1).map Thread.handles = some 0 ∧
    s.openExchanges 1 = 0) (by decide +kernel) fun s hs hP => ?_
  obtain ⟨t, ht, hhandles⟩ := map_eq_some_iff.mp hP.1
  obtain ⟨hmatch, hexit⟩ := thread_ref_counts twoProcesses s ⟨fun _ => rfl, rfl, rfl⟩ hs
  exact ⟨hmatch, (hexit 1 t ht).mpr ⟨hhandles, hP.2⟩⟩

/-- A thread that is purged out of `ipc_receive` loses a reference it never had for that, and its
exit panics. -/
theorem purged_receiver_loses_reference : ¬ ∀ s0 s :
    IpcState, NoThreads s0 → Reach threadStep anyStep s0 s →
      RefCountsMatch s ∧ ∀ tid t, s.caller tid = some t → t.handles = 0 → (exitThread s tid).isSome := by
  intro h
  obtain ⟨s, hs, hcaller, hpanic⟩ : ∃ s, Reach threadStep anyStep twoProcesses s ∧
      (s.caller 1).map Thread.handles = some 0 ∧ (exitThread s 1).isSome = false :=
    exists_reach [.create 10 1, .run 1, .ipc (.receive 1), .purge 10] (by decide +kernel)
  obtain ⟨t, ht, hhandles⟩ := map_eq_some_iff.mp hcaller
  have hexit := (h twoProcesses s ⟨fun _ => rfl, rfl, rfl⟩ hs).2 1 t ht hhandles
  rw [hpanic] at hexit
  cases hexit

end Toddler
