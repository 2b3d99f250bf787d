import Toddler.Proofs.Ipc

/-! Replies go where they belong. A thread that has a request to answer names its sender, and the
sender waits for this thread; a request number is answered only while its sender waits. -/

namespace Toddler

open Function IpcState

variable {f : ℕ → Option Thread} {s s' s0 : IpcState}

/-- The thread `x` with record `r` serves the sender that its `ipc_reply_to` names. -/
def Serving (f : ℕ → Option Thread) (x : ℕ) (r : Thread) : Prop :=
  ∃ u, f r.ipcReplyTo.tid = some u ∧ r.ipcReplyTo.pid = u.pid ∧
    r.serves = some (r.ipcReplyTo.tid, u.requests) ∧ u.awaits ∧ u.ipcWait.tid = x

def ServesInv (f : ℕ → Option Thread) : Prop :=
  ∀ x r, f x = some r → r.serves ≠ none → Serving f x r

def Unserved (f : ℕ → Option Thread) (x : ℕ) : Prop :=
  ∀ y r, f y = some r → r.serves ≠ none → r.ipcReplyTo.tid ≠ x

variable {x y : ℕ} {r t : Thread}

theorem Serving.put (h : Serving f y r) (hx : r.ipcReplyTo.tid ≠ x) :
    Serving (update f x (some t)) y r := by
  obtain ⟨u, hu, hrest⟩ := h
  exact ⟨u, by rw [update_of_ne hx, hu], hrest⟩

/-- Nobody serves a thread that does not wait for a reply. -/
theorem ServesInv.unserved (hi : ServesInv f) (hx : ∀ u, f x = some u → ¬ u.awaits) :
    Unserved f x := by
  intro y r hr hs heq
  obtain ⟨u, hu, -, -, hw, -⟩ := hi y r hr hs
  exact hx u (heq ▸ hu) hw

/-- A thread that nobody serves changes. -/
theorem ServesInv.put (hi : ServesInv f) (hx : Unserved f x)
    (ht : t.serves ≠ none → Serving f x t ∧ t.ipcReplyTo.tid ≠ x) :
    ServesInv (update f x (some t)) := by
  refine forall_update (fun y _ r hr hs => (hi y r hr hs).put (hx y r hr hs)) ?_
  rintro _ ⟨⟩ hs
  exact (ht hs).1.put (ht hs).2

variable {u : Thread}

/-- A thread that nobody serves changes but keeps whom it serves. -/
theorem ServesInv.keep (hi : ServesInv f) (ht : f x = some t) (hx : Unserved f x)
    (hto : u.ipcReplyTo = t.ipcReplyTo) (hs : u.serves = t.serves) :
    ServesInv (update f x (some u)) := by
  refine hi.put hx fun hne => ?_
  have hserving := hi x t ht (hs ▸ hne)
  refine ⟨?_, hto ▸ hx x t ht (hs ▸ hne)⟩
  unfold Serving
  rwa [hto, hs]

/-- A request is delivered: the server `y` gets a new sender to answer, and the sender `x` waits. -/
theorem ServesInv.deliver (hi : ServesInv f) (ht : f x = some t) (hx : Unserved f x)
    (hy : Unserved f y) (hto : u.ipcReplyTo = t.ipcReplyTo) (hs : u.serves = t.serves)
    (hw : u.awaits)
    (htid : u.ipcWait.tid = y) (hrto : r.ipcReplyTo = ⟨u.pid, x⟩)
    (hrs : r.serves = some (x, u.requests)) :
    ServesInv (update (update f y (some r)) x (some u)) := by
  have hothers : ∀ z q, update f y (some r) z = some q → q.serves ≠ none →
      Serving (update (update f y (some r)) x (some u)) z q := by
    refine forall_update (fun z _ q hq hqs => ?_) ?_
    · exact ((hi z q hq hqs).put (hy z q hq hqs)).put (hx z q hq hqs)
    · rintro _ ⟨⟩ -
      exact ⟨u, by rw [hrto, update_self], by rw [hrto], by rw [hrto, hrs], hw, htid⟩
  refine forall_update (fun z _ => hothers z) ?_
  rintro _ ⟨⟩ hus
  have hold : Serving f x u := by
    unfold Serving
    rw [hto, hs]
    exact hi x t ht (hs ▸ hus)
  exact (hold.put (hto ▸ hy x t ht (hs ▸ hus))).put (hto ▸ hx x t ht (hs ▸ hus))

theorem ServesInv.unserved_of_not_awaits (hi : ServesInv f) (ht : f x = some t) (hw : ¬ t.awaits) :
    Unserved f x :=
  hi.unserved fun u hu => by
    rw [ht] at hu
    cases hu
    exact hw

theorem Unserved.put (h : Unserved f x)
    (ht : t.serves ≠ none → t.ipcReplyTo.tid ≠ x) : Unserved (update f y (some t)) x := by
  refine forall_update (fun z _ => h z) ?_
  rintro _ ⟨⟩
  exact ht

/-- A sender is served by no other thread than the one it waits for. -/
theorem ServesInv.unserved_of_drop (hi : ServesInv f) {c : Thread} (hc : f x = some c)
    (ht : t.serves = none) : Unserved (update f c.ipcWait.tid (some t)) x := by
  refine forall_update (fun z hz q hq hqs hqx => ?_) ?_
  · obtain ⟨v, hv, -, -, -, hwait⟩ := hi z q hq hqs
    rw [hqx, hc] at hv
    cases hv
    exact hz hwait.symm
  · rintro _ ⟨⟩ hs
    exact absurd ht hs

/-- The sender that a thread answers waits for this thread. -/
theorem ServesInv.waits_for (hi : ServesInv f) {c : Thread} (hr : f y = some r)
    (hs : r.serves ≠ none) (hto : r.ipcReplyTo = ⟨c.pid, x⟩) (hc : f x = some c) :
    c.ipcWait.tid = y ∧ r.serves = some (x, c.requests) := by
  obtain ⟨u, hu, -, hserved, -, hwait⟩ := hi y r hr hs
  rw [hto] at hu hserved
  rw [hc] at hu
  cases hu
  exact ⟨hwait, hserved⟩

variable {tid : ℕ} {a : IpcAction}

/-- A thread that responds to a sleeping sender has a request to answer. -/
theorem RespondsOnce.serves {p : ℕ} (hok : RespondsOnce s (.respond tid))
    (ht : s.threads tid = some t) (hto : t.ipcReplyTo = ⟨p, x⟩ ∧ x ≠ 0) : t.serves ≠ none :=
  (hok t ht).resolve_right (by rw [hto.1]; exact hto.2)

theorem ServesInv.effect (hi : ServesInv s.threads) (hq : QueueInv s)
    (ht : s.threads tid = some t) (hn : t.state = .normal) (hok : RespondsOnce s a)
    (h : IpcEffect s tid t a s') : ServesInv s'.threads := by
  have hself := hi.unserved_of_not_awaits ht (Thread.not_awaits_of_normal hn)
  cases h with
  | failed => exact hi.keep ht hself rfl rfl
  | @popup _ _ newTid hfresh =>
    have hne := ne_of_none ht hfresh
    have hnew := hi.unserved (x := newTid) fun u hu => by simp [hfresh] at hu
    refine (hi.put hnew ?_).keep (thread_kept ht hne) (hself.put ?_) rfl rfl
    all_goals exact fun h => absurd rfl h
  | @popupReply _ _ newTid hfresh =>
    have hnew := hi.unserved (x := newTid) fun u hu => by simp [hfresh] at hu
    exact hi.deliver ht hself hnew rfl rfl ⟨rfl, rfl⟩ rfl rfl rfl
  | sent hr hne =>
    have hrx := hi.unserved_of_not_awaits hr.thread (hr.not_awaits (by decide))
    have hto := hself _ _ hr.thread
    exact (hi.keep hr.thread hrx (by rfl) (by rfl)).keep (thread_kept ht hne) (hself.put hto) rfl rfl
  | sentReply _ _ hr =>
    have hrx := hi.unserved_of_not_awaits hr.thread (hr.not_awaits (by decide))
    exact hi.deliver ht hself hrx rfl rfl ⟨rfl, rfl⟩ rfl rfl rfl
  | queued => exact hi.keep ht hself rfl rfl
  | @responded x c ret hc hto hne =>
    have hs := hok.serves ht hto
    have h1 := hi.put (t := { t with refCount := t.refCount - 1, ret := ret, serves := none }) hself
      fun h => absurd rfl h
    have hun := hi.unserved_of_drop (t :=
      { t with refCount := t.refCount - 1, ret := ret, serves := none }) hc.thread rfl
    rw [(hi.waits_for ht hs hto.1 hc.thread).1] at hun
    have h2 := h1.keep (u := { c with state := .normal, refCount := c.refCount - 1 })
      (thread_kept hc.thread hne.symm) hun rfl rfl
    rwa [update_comm hne] at h2
  | received hc hne =>
    have hcx := hi.unserved_of_not_awaits hc.thread (hc.not_awaits (by decide))
    have hto := hself _ _ hc.thread
    exact (hi.keep hc.thread hcx (by rfl) (by rfl)).keep (thread_kept ht hne) (hself.put hto) rfl rfl
  | @receivedReply x c ret _ _ hc =>
    have hwait := hq.wait hc.queued hc.thread
    have hcx := hi.unserved_of_not_awaits hc.thread (hc.not_awaits (by decide))
    have h1 := hi.deliver (u := { c with
        waitType := .forResp, ipcWait := { c.ipcWait with pid := t.pid, tid := tid },
          refCount := c.refCount + 1 })
      (r := { t with
        ret := ret, ipcReplyTo := ⟨c.pid, x⟩
        refCount := t.refCount + 1, serves := some (x, c.requests) })
      hc.thread hcx hself rfl rfl ⟨hwait, rfl⟩ rfl rfl rfl
    rwa [update_comm (hq.ne_running ht hn hc.queued)] at h1
  | receiving => exact hi.keep ht hself rfl rfl

def Thread.pending (t : Thread) : Prop := t.state = .wait ∧ t.waitType ≠ .forSerialReq

/-- The answered requests of a thread lie before the one it waits on. -/
def AnswersInv (f : ℕ → Option Thread) (answered : List Answer) : Prop :=
  ∀ a ∈ answered, ∃ u, f a.client = some u ∧ a.request ≤ u.requests ∧
    (u.pending → a.request < u.requests)

variable {answered : List Answer}

theorem AnswersInv.put (hi : AnswersInv f answered) (ht : f x = some t)
    (hle : t.requests ≤ u.requests) (hpend : u.pending → t.pending ∨ t.requests < u.requests) :
    AnswersInv (update f x (some u)) answered := by
  intro a ha
  obtain ⟨v, hv, h1, h2⟩ := hi a ha
  by_cases hx : a.client = x
  · rw [hx, ht] at hv
    cases hv
    refine ⟨u, by rw [hx, update_self], h1.trans hle, fun hp => ?_⟩
    rcases hpend hp with hp | hlt
    · exact (h2 hp).trans_le hle
    · exact h1.trans_lt hlt
  · exact ⟨v, thread_kept hv hx, h1, h2⟩

theorem AnswersInv.new (hi : AnswersInv f answered) (hx : f x = none) :
    AnswersInv (update f x (some t)) answered := by
  intro a ha
  obtain ⟨u, hu, hrest⟩ := hi a ha
  exact ⟨u, thread_kept hu (ne_of_none hu hx), hrest⟩

theorem Thread.not_pending_of_normal (h : t.state = .normal) : ¬ t.pending := by
  intro hp
  rw [hp.1] at h
  cases h

theorem AnswersInv.effect (hi : AnswersInv s.threads s.answered)
    (hq : QueueInv s) (ht : s.threads tid = some t) (hn : t.state = .normal)
    (h : IpcEffect s tid t a s') : AnswersInv s'.threads s'.answered := by
  have hnormal : ∀ u : Thread, u.state = .normal → ∀ p : Prop, u.pending → p :=
    fun u hu p hp => absurd hp (Thread.not_pending_of_normal hu)
  cases h with
  | failed hk => exact hi.put ht hk (hnormal _ hn _)
  | popup hfresh =>
    refine (hi.new hfresh).put (thread_kept ht (ne_of_none ht hfresh)) (Nat.le_succ _) ?_
    exact hnormal _ hn _
  | popupReply hfresh =>
    refine (hi.new hfresh).put (thread_kept ht (ne_of_none ht hfresh)) (Nat.le_succ _) ?_
    exact fun _ => Or.inr (Nat.lt_succ_self _)
  | sent hr hne =>
    exact (hi.put hr.thread (by rfl) (by exact hnormal _ rfl _)).put (thread_kept ht hne)
      (Nat.le_succ _) (hnormal _ hn _)
  | sentReply _ _ hr hne =>
    exact (hi.put hr.thread (by rfl) (by exact hnormal _ rfl _)).put (thread_kept ht hne)
      (Nat.le_succ _) fun _ => Or.inr (Nat.lt_succ_self _)
  | queued => exact hi.put ht (Nat.le_succ _) fun _ => Or.inr (Nat.lt_succ_self _)
  | @responded x c ret hc _ hne =>
    have h1 := hi.put (u := { c with state := .normal, refCount := c.refCount - 1 }) hc.thread
      (le_refl _) (hnormal _ rfl _)
    have h2 := h1.put (u := { t with refCount := t.refCount - 1, ret := ret, serves := none })
      (thread_kept ht hne) (le_refl _) (hnormal _ hn _)
    intro b hb
    rcases List.mem_cons.mp hb with rfl | hb
    · refine ⟨{ c with state := .normal, refCount := c.refCount - 1 }, ?_, le_refl _, hnormal _ rfl _⟩
      simp [hne.symm]
    · exact h2 b hb
  | received hc hne =>
    exact (hi.put hc.thread (by rfl) (by exact hnormal _ rfl _)).put (thread_kept ht hne)
      (le_refl _) (hnormal _ hn _)
  | receivedReply _ _ hc =>
    refine (hi.put hc.thread (by rfl) ?_).put (thread_kept ht (hq.ne_running ht hn hc.queued))
      (le_refl _) (hnormal _ hn _)
    exact fun _ => Or.inl ⟨hq.wait hc.queued hc.thread, by rw [hc.type]; decide⟩
  | receiving => exact hi.put ht (le_refl _) fun hp => absurd rfl hp.2

/-- The replies of a step are authentic when the responder has a request to answer. -/
theorem RepliesAuthentic.effect (hi : RepliesAuthentic s)
    (hserves : ServesInv s.threads) (hans : AnswersInv s.threads s.answered) (hq : QueueInv s)
    (ht : s.threads tid = some t) (hok : RespondsOnce s a) (h : IpcEffect s tid t a s') :
    RepliesAuthentic s' := by
  cases h with
  | failed => exact ⟨hi.named, hi.served, hi.once⟩
  | popup => exact ⟨hi.named, hi.served, hi.once⟩
  | popupReply => exact ⟨hi.named, hi.served, hi.once⟩
  | sent => exact ⟨hi.named, hi.served, hi.once⟩
  | sentReply => exact ⟨hi.named, hi.served, hi.once⟩
  | queued => exact ⟨hi.named, hi.served, hi.once⟩
  | responded hc hto =>
    obtain ⟨hwait, hserved⟩ := hserves.waits_for ht (hok.serves ht hto) hto.1 hc.thread
    refine ⟨fun b hb => ?_, fun b hb => ?_, List.nodup_cons.mpr ⟨fun hmem' => ?_, hi.once⟩⟩
    · rcases List.mem_cons.mp hb with rfl | hb
      · exact hwait
      · exact hi.named b hb
    · rcases List.mem_cons.mp hb with rfl | hb
      · exact hserved
      · exact hi.served b hb
    · -- an earlier answer to this thread was to an earlier request
      obtain ⟨b, hb, heq⟩ := List.mem_map.mp hmem'
      obtain ⟨hclient, hrequest⟩ := Prod.mk.inj heq
      obtain ⟨v, hv, -, hlt⟩ := hans b hb
      rw [hclient, hc.thread] at hv
      cases hv
      exact (hlt ⟨hq.wait hc.queued hc.thread, by rw [hc.type]; decide⟩).ne hrequest
  | received => exact ⟨hi.named, hi.served, hi.once⟩
  | receivedReply => exact ⟨hi.named, hi.served, hi.once⟩
  | receiving => exact ⟨hi.named, hi.served, hi.once⟩

theorem ServesInv.init (h : IpcInit s0) : ServesInv s0.threads := fun x r hr hs =>
    absurd (h.threads x r hr).2.2 hs

theorem replies_authentic (s0 s : IpcState) (h0 : IpcInit s0)
    (h : Reach ipcStep RespondsOnce s0 s) : RepliesAuthentic s := by
  refine (h.invariant (I := fun s => QueueInv s ∧ ServesInv s.threads ∧
    AnswersInv s.threads s.answered ∧
    RepliesAuthentic s) ⟨QueueInv.init h0, ServesInv.init h0, ?_, ?_⟩ ?_).2.2.2
  · simp [AnswersInv, h0.answered]
  · exact ⟨by simp [h0.answered], by simp [h0.answered], by simp [h0.answered]⟩
  · rintro u a v ⟨hq, hserves, hans, hauth⟩ hok hs
    obtain ⟨t, ht, hn, he⟩ := ipcStep_effect hs
    exact ⟨hq.effect ht hn he, hserves.effect hq ht hn hok he, hans.effect hq ht hn he,
      hauth.effect hserves hans hq ht hok he⟩

theorem replies_authentic_first_reply :
    ∃ s, execute ipcStep RespondsOnce threeThreads [.receive 2, .request 1 20 7 5 0, .respond 2] =
    some s ∧
      s.answered.map Answer.client = [1] ∧ RepliesAuthentic s := by
  refine exists_execute (P := fun s => s.answered.map Answer.client = [1]) (by decide +kernel) fun s
    hs hl => ?_
  exact ⟨hl, replies_authentic threeThreads s threeThreads_init hs⟩

/-- A server that responds twice wakes its former client out of a request to another server. -/
theorem second_respond_wakes_foreign_request :
    ¬ ∀ s0 s : IpcState, IpcInit s0 → Reach ipcStep anyStep s0 s → RepliesAuthentic s := by
  intro h
  obtain ⟨s, hs, hans⟩ : ∃ s, Reach ipcStep anyStep threeThreads s ∧
      s.answered = [⟨1, 2, 2, 3, none⟩, ⟨1, 1, 2, 2, some (1, 1)⟩] :=
    exists_reach [.receive 2, .request 1 20 7 5 0, .respond 2, .receive 3, .request 1 30 7 5 0,
      .respond 2] (by decide +kernel)
  have hnamed := (h threeThreads s threeThreads_init hs).named
  rw [hans] at hnamed
  exact absurd (hnamed _ List.mem_cons_self) (by decide)

end Toddler
