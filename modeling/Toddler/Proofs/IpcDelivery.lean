import Toddler.Proofs.IpcMem

/-! Serial delivery: every completed `ipc_receive` gets one request, once, as it was posted, as long
as the messages copied fit their areas. A step either changes the record of one running thread or
hands a request over from one thread to another. -/

namespace Toddler

open Function List Option Nat IpcState SerialState

open Message

variable {A : Arch}

variable {m m' : ByteMem} {b pid tid dst src : ℕ}

theorem pidOf_eq {s : IpcState} {x : ℕ} {t : Thread} (h : s.threads x = some t) :
    s.pidOf x = t.pid := by
  simp [IpcState.pidOf, h]

/-- The request that a sleeping sender has posted. -/
structure Describes (A : Arch) (s : SerialState) (x : ℕ) (t : Thread) (r : Posted) : Prop where
  posted : r ∈ s.posted
  key : r.sender = x ∧ r.number = t.requests
  senderPid : r.senderPid = t.pid
  dstPid : r.dstPid = t.ipcWait.pid
  opcode : r.opcode = t.ipcWait.opcode
  content : getBits A s.mem (s.area x) A.numDataWords ≤ A.maxMsgDataWords →
    r.content = content A s.mem (s.area x)

structure SerialInv (A : Arch) (s : SerialState) : Prop where
  queue : QueueInv s.ipc
  areas : AreasApart s.area
  ids : ∀ x t, s.ipc.threads x = some t → x < A.ulong ∧ t.pid < A.ulong
  receivers : ∀ x t, s.ipc.threads x = some t → t.receiving →
    t.ipcWait.pid = t.pid ∧ 1 ≤ s.receives x
  senders : ∀ x t, s.ipc.threads x = some t → t.sending →
    (∃ r, Describes A s x t r) ∧ ∀ m ∈ s.matched, ¬ (m.sender = x ∧ m.number = t.requests)
  numbers : ∀ r ∈ s.posted, ∃ t, s.ipc.threads r.sender = some t ∧ r.number ≤ t.requests
  delivered : s.Delivered

variable {t : Thread}

/-- The thread waits for no other one with a request, or for one. -/
def Thread.Settled (t : Thread) : Prop := ¬ t.sending ∧ ¬ t.receiving

theorem Thread.settled_of_normal (h : t.state = .normal) : t.Settled := by
  constructor
  · rintro ⟨hw, -⟩
    cases h.symm.trans hw
  · rintro ⟨hw, -⟩
    cases h.symm.trans hw

theorem Thread.settled_of_forResp (h : t.waitType = .forResp) : t.Settled := by
  constructor
  · rintro ⟨-, hw⟩
    cases h.symm.trans hw
  · rintro ⟨-, hw⟩
    cases h.symm.trans hw

theorem Thread.not_receiving_of_sending (h : t.sending) : ¬ t.receiving := fun hr => by
  have := h.2.symm.trans hr.2
  cases this

structure Kept (s s' : SerialState) : Prop where
  threads : ∀ x t, s.ipc.threads x = some t → ∃ t', s'.ipc.threads x = some t' ∧ t'.pid = t.pid ∧
    t.requests ≤ t'.requests
  posted : ∀ r ∈ s.posted, r ∈ s'.posted

variable {s s' : SerialState} {r : Posted}

theorem Kept.numbers (h : Kept s s') (hi : SerialInv A s) (hr : r ∈ s.posted) :
    ∃ t, s'.ipc.threads r.sender = some t ∧ r.number ≤ t.requests := by
  obtain ⟨t, ht, hle⟩ := hi.numbers r hr
  obtain ⟨t', ht', -, hmore⟩ := h.threads _ t ht
  exact ⟨t', ht', hle.trans hmore⟩

theorem Kept.authentic (h : Kept s s') (hi : SerialInv A s) {m : Match} (hm : m ∈ s.matched) :
    ∃ t, s'.ipc.threads m.receiver = some t ∧ ∃ r ∈ s'.posted, m.Of r t := by
  obtain ⟨t, ht, r, hr, hof⟩ := hi.delivered.authentic m hm
  obtain ⟨t', ht', hpid, -⟩ := h.threads _ t ht
  exact ⟨t', ht', r, h.posted r hr, { hof with addressed := hof.addressed.trans hpid.symm }⟩

variable {x : ℕ}

theorem Describes.keep (hd : Describes A s x t r) (hk : Kept s s')
    (harea : s'.area = s.area) (hmem : ∀ a, s.area x ≤ a → a < s.area x + maxMsgSize →
    s'.mem a = s.mem a) : Describes A s' x t r where
  posted := hk.posted r hd.posted
  key := hd.key
  senderPid := hd.senderPid
  dstPid := hd.dstPid
  opcode := hd.opcode
  content := by
    rw [harea, getBits_congr hmem]
    intro hfits
    rw [content_congr hmem hfits]
    exact hd.content hfits

/-- A match is of a request that its sender has made. -/
theorem SerialInv.match_le (hi : SerialInv A s) {m : Match} (hm : m ∈ s.matched)
    (ht : s.ipc.threads m.sender = some t) : m.number ≤ t.requests := by
  obtain ⟨_, _, r, hr, hof⟩ := hi.delivered.authentic m hm
  obtain ⟨u, hu, hle⟩ := hi.numbers r hr
  rw [← hof.sender.1, ht] at hu
  cases hu
  exact hof.sender.2 ▸ hle

/-- The next number of a thread is that of no request so far. -/
theorem SerialInv.requestOnce_append (hi : SerialInv A s) {n : ℕ} {ps : List Posted}
    (ht : s.ipc.threads tid = some t) (hlen : ps.length ≤ 1)
    (hnew : ∀ r ∈ ps, t.requests < n ∧ r.sender = tid ∧ r.number = n) :
    ((ps ++ s.posted).map fun r => (r.sender, r.number)).Nodup := by
  rcases ps with _ | ⟨p, _ | ⟨q, ps⟩⟩
  · exact hi.delivered.requestOnce
  · obtain ⟨hlt, hsender, hnumber⟩ := hnew p (mem_singleton_self p)
    refine nodup_cons.mpr ⟨fun hmem => ?_, hi.delivered.requestOnce⟩
    obtain ⟨r, hr, heq⟩ := mem_map.mp hmem
    obtain ⟨h1, h2⟩ := Prod.mk.inj heq
    obtain ⟨u, hu, hle⟩ := hi.numbers r hr
    rw [h1, hsender, ht] at hu
    cases hu
    omega
  · simp at hlen

/-- The running thread `tid` changes its record from `t` to `t'`, posts `ps` and leaves all other
message areas as they are. -/
structure OwnMove (A : Arch) (s s' : SerialState) (tid : ℕ) (t t' : Thread) (ps : List Posted) :
    Prop where
  before : s.ipc.threads tid = some t
  normal : t.state = .normal
  threads : ∀ x, s'.ipc.threads x = if x = tid then some t' else s.ipc.threads x
  pid : t'.pid = t.pid
  requests : t.requests ≤ t'.requests
  queue : QueueInv s'.ipc
  area : s'.area = s.area
  mem : ∀ x, x ≠ tid → ∀ a, s.area x ≤ a → a < s.area x + maxMsgSize → s'.mem a = s.mem a
  posted : s'.posted = ps ++ s.posted
  matched : s'.matched = s.matched
  receives : ∀ x, x ≠ tid → s'.receives x = s.receives x
  completed : ∀ k, (1 ≤ k ∧ k ≤ s.receives tid) ↔
    (1 ≤ k ∧ k ≤ s'.receives tid ∧ ¬ (k = s'.receives tid ∧ t'.receiving))
  receiver : t'.receiving → t'.ipcWait.pid = t'.pid ∧ 1 ≤ s'.receives tid
  sender : t'.sending → t.requests < t'.requests ∧ ∃ r, Describes A s' tid t' r
  new : ∀ r ∈ ps, t'.sending ∧ r.sender = tid ∧ r.number = t'.requests
  once : ps.length ≤ 1

variable {ipc : IpcState}

namespace OwnMove

variable {tid : ℕ} {t t' : Thread} {ps : List Posted}

section

variable (h : OwnMove A s s' tid t t' ps)
include h

theorem after : s'.ipc.threads tid = some t' := by simp [h.threads]

theorem other (hx : x ≠ tid) : s'.ipc.threads x = s.ipc.threads x := by
  simp [h.threads, hx]

theorem kept : Kept s s' := by
  refine ⟨fun x u hu => ?_, fun r hr => h.posted ▸ mem_append_right _ hr⟩
  by_cases hx : x = tid
  · subst hx
    rw [h.before] at hu
    cases hu
    exact ⟨t', h.after, h.pid, h.requests⟩
  · exact ⟨u, (h.other hx).trans hu, rfl, le_rfl⟩

theorem delivered (hi : SerialInv A s) : s'.Delivered where
  completed x k := by
    rw [h.matched, hi.delivered.completed x k]
    by_cases hx : x = tid
    · subst hx
      simpa [h.before, h.after, (Thread.settled_of_normal h.normal).2] using h.completed k
    · rw [h.receives x hx, h.other hx]
  receiveOnce := h.matched ▸ hi.delivered.receiveOnce
  authentic m hm := h.kept.authentic hi (h.matched ▸ hm)
  requestOnce := by
    rw [h.posted]
    exact hi.requestOnce_append h.before h.once fun r hr => ⟨(h.sender (h.new r hr).1).1, (h.new r hr).2⟩
  matchOnce := h.matched ▸ hi.delivered.matchOnce
  returns r hr hreply := by
    rw [h.posted, mem_append] at hr
    rcases hr with hr | hr
    · obtain ⟨hs, hsender, hnumber⟩ := h.new r hr
      exact .inr ⟨t', hsender ▸ h.after, hs, hnumber.symm⟩
    · rw [h.matched]
      rcases hi.delivered.returns r hr hreply with hm | ⟨u, hu, hs, hnumber⟩
      · exact .inl hm
      · -- the thread that moves was running, so that it is another one that sleeps
        have hne : r.sender ≠ tid := by
          intro heq
          rw [heq, h.before] at hu
          cases hu
          exact (Thread.settled_of_normal h.normal).1 hs
        exact .inr ⟨u, (h.other hne).trans hu, hs, hnumber⟩

theorem inv (hi : SerialInv A s) : SerialInv A s' where
  queue := h.queue
  areas := h.area ▸ hi.areas
  ids x u hu := by
    by_cases hx : x = tid
    · subst hx
      rw [h.after] at hu
      cases hu
      exact h.pid ▸ hi.ids x t h.before
    · exact hi.ids x u ((h.other hx).symm.trans hu)
  receivers x u hu hr := by
    by_cases hx : x = tid
    · subst hx
      rw [h.after] at hu
      cases hu
      exact h.receiver hr
    · rw [h.receives x hx]
      exact hi.receivers x u ((h.other hx).symm.trans hu) hr
  senders x u hu hs := by
    rw [h.matched]
    by_cases hx : x = tid
    · subst hx
      rw [h.after] at hu
      cases hu
      obtain ⟨hlt, hd⟩ := h.sender hs
      refine ⟨hd, fun m hm hkey => ?_⟩
      have := hi.match_le hm (hkey.1 ▸ h.before)
      omega
    · obtain ⟨⟨r, hd⟩, hun⟩ := hi.senders x u ((h.other hx).symm.trans hu) hs
      exact ⟨⟨r, hd.keep h.kept h.area (h.mem x hx)⟩, hun⟩
  numbers r hr := by
    rw [h.posted, mem_append] at hr
    rcases hr with hr | hr
    · obtain ⟨-, hsender, hnumber⟩ := h.new r hr
      exact ⟨t', hsender ▸ h.after, hnumber.le⟩
    · exact h.kept.numbers hi hr
  delivered := h.delivered hi

end

theorem running {mem : ByteMem} (ht : s.ipc.threads tid = some t)
    (hn : t.state = .normal) (hthreads : ∀ x, ipc.threads x = if x = tid then some t'
    else s.ipc.threads x)
    (hq : QueueInv ipc) (hmem : ∀ x, x ≠ tid → ∀ a, s.area x ≤ a → a < s.area x + maxMsgSize →
    mem a = s.mem a)
    (hn' : t'.state = .normal) (hpid : t'.pid = t.pid) (hreq : t.requests ≤ t'.requests) :
    OwnMove A s { s with ipc := ipc, mem := mem } tid t t' [] where
  before := ht
  normal := hn
  threads := hthreads
  pid := hpid
  requests := hreq
  queue := hq
  area := rfl
  mem := hmem
  posted := rfl
  matched := rfl
  receives _ _ := rfl
  completed k := by simp [(Thread.settled_of_normal hn').2]
  receiver h := absurd h (Thread.settled_of_normal hn').2
  sender h := absurd h (Thread.settled_of_normal hn').1
  new := nofun
  once := zero_le _

end OwnMove

/-- The request `r` goes from the thread `src` to the thread `dst`; it is in `ps` if it is posted by
the same call. -/
structure HandOver (A : Arch) (s s' : SerialState) (dst src : ℕ) (d d' u u' : Thread)
    (ps : List Posted) (r : Posted) : Prop where
  ne : dst ≠ src
  atDst : s.ipc.threads dst = some d
  atSrc : s.ipc.threads src = some u
  after : Exchanged s.ipc s'.ipc dst src d' u'
  awake : ¬ d.sending ∧ ¬ u.receiving
  settled : d'.Settled ∧ u'.Settled
  pids : d'.pid = d.pid ∧ u'.pid = u.pid
  requests : d.requests ≤ d'.requests ∧ u.requests ≤ u'.requests ∧
    (u.sending → u'.requests = u.requests)
  queue : QueueInv s'.ipc
  area : s'.area = s.area
  copied : Copied A (s.area dst) (s.area src) u.pid src s.mem s'.mem
  fits : getBits A s.mem (s.area src) A.numDataWords ≤ A.maxMsgDataWords
  posted : s'.posted = ps ++ s.posted
  new : ∀ q ∈ ps, q = r ∧ u.requests < u'.requests
  once : ps.length ≤ 1
  request : r ∈ s'.posted ∧ r.sender = src ∧ r.number = u'.requests ∧ r.senderPid = u.pid ∧
    r.dstPid = d.pid ∧ r.opcode = d'.ret.2 ∧ r.content = content A s.mem (s.area src)
  unmatched : ∀ m ∈ s.matched, ¬ (m.sender = src ∧ m.number = u'.requests)
  matched : s'.matched = s'.matchOf A dst src :: s.matched
  receives : ∀ x, x ≠ dst → s'.receives x = s.receives x
  pending : 1 ≤ s'.receives dst ∧ ∀ k, (∃ m ∈ s.matched, m.receiver = dst ∧ m.receive = k) ↔
    1 ≤ k ∧ k < s'.receives dst

namespace HandOver

variable {dst src : ℕ} {d d' u u' : Thread} {ps : List Posted} {r : Posted}

section

variable (h : HandOver A s s' dst src d d' u u' ps r)
include h

/-- The threads after a hand-over. -/
theorem cases_threads (ht : s'.ipc.threads x = some t) :
    (x = dst ∧ t = d') ∨ (x = src ∧ t = u') ∨ (x ≠ dst ∧ x ≠ src ∧ s.ipc.threads x = some t) := by
  by_cases hd : x = dst
  · subst hd
    rw [h.after.atDst] at ht
    cases ht
    exact .inl ⟨rfl, rfl⟩
  · by_cases hs : x = src
    · subst hs
      rw [h.after.atSrc] at ht
      cases ht
      exact .inr (.inl ⟨rfl, rfl⟩)
    · exact .inr (.inr ⟨hd, hs, (h.after.others x hd hs).symm.trans ht⟩)

theorem kept : Kept s s' := by
  refine ⟨fun x t ht => ?_, fun q hq => h.posted ▸ mem_append_right _ hq⟩
  by_cases hd : x = dst
  · subst hd
    rw [h.atDst] at ht
    cases ht
    exact ⟨d', h.after.atDst, h.pids.1, h.requests.1⟩
  · by_cases hs : x = src
    · subst hs
      rw [h.atSrc] at ht
      cases ht
      exact ⟨u', h.after.atSrc, h.pids.2, h.requests.2.1⟩
    · exact ⟨t, (h.after.others x hd hs).trans ht, rfl, le_rfl⟩

/-- The copy stays in the area of `dst`. -/
theorem mem (hareas : AreasApart s.area) (hx : x ≠ dst) (a : ℕ)
    (hlo : s.area x ≤ a) (hhi : a < s.area x + maxMsgSize) : s'.mem a = s.mem a := by
  have hframe := h.copied.frame a
  have hdata := data_within (b := s.area dst) h.fits
  have hsep := hareas x dst hx
  unfold dataAddr at hdata
  unfold NoOverlap at hsep
  rw [add_mul] at hframe
  exact hframe (by omega)

/-- The new match is of the request. -/
theorem matchOf_of (hi : SerialInv A s) : (s'.matchOf A dst src).Of r d' := by
  obtain ⟨-, hsender, hnumber, hpid, hdst, hopcode, hcontent⟩ := h.request
  obtain ⟨hsrcId, hpidId⟩ := hi.ids src u h.atSrc
  have hwords := h.copied.sender
  rw [mod_eq_of_lt hpidId, mod_eq_of_lt hsrcId] at hwords
  constructor
  · exact ⟨hsender.symm, by simp [matchOf, h.after.atSrc, hnumber]⟩
  · rw [hdst, h.pids.1]
  · simp [matchOf, h.after.atDst, hopcode]
  · rw [hcontent, ← h.copied.content (hi.areas dst src h.ne) h.fits, ← h.area]
    rfl
  · rw [hpid, ← hwords.1, ← h.area]
    rfl
  · rw [hsender, ← hwords.2, ← h.area]
    rfl

theorem delivered (hi : SerialInv A s) : s'.Delivered where
  completed x k := by
    obtain ⟨hpos, hopen⟩ := h.pending
    rw [h.matched, exists_mem_cons_iff]
    by_cases hx : x = dst
    · subst hx
      simp only [hopen k, matchOf, true_and, h.after.atDst, some.injEq, exists_eq_left',
        h.settled.1.2, and_false, not_false_eq_true, and_true]
      omega
    · have hnew : ¬ ((s'.matchOf A dst src).receiver = x ∧ (s'.matchOf A dst src).receive = k) :=
        fun heq => hx heq.1.symm
      simp only [hnew, false_or, hi.delivered.completed x k, h.receives x hx]
      by_cases hs : x = src
      · subst hs
        simp [h.atSrc, h.after.atSrc, h.awake.2, h.settled.2.2]
      · rw [h.after.others x hx hs]
  receiveOnce := by
    obtain ⟨hpos, hopen⟩ := h.pending
    rw [h.matched]
    refine nodup_cons.mpr ⟨fun hmem => ?_, hi.delivered.receiveOnce⟩
    obtain ⟨m, hm, heq⟩ := mem_map.mp hmem
    obtain ⟨h1, h2⟩ := Prod.mk.inj heq
    exact absurd ((hopen _).mp ⟨m, hm, h1, h2⟩).2 (lt_irrefl _)
  authentic m hm := by
    rw [h.matched] at hm
    rcases mem_cons.mp hm with rfl | hm
    · exact ⟨d', h.after.atDst, r, h.request.1, h.matchOf_of hi⟩
    · exact h.kept.authentic hi hm
  requestOnce := by
    rw [h.posted]
    refine hi.requestOnce_append (n := u'.requests) h.atSrc h.once fun q hq => ?_
    obtain ⟨rfl, hlt⟩ := h.new q hq
    exact ⟨hlt, h.request.2.1, h.request.2.2.1⟩
  matchOnce := by
    rw [h.matched]
    refine nodup_cons.mpr ⟨fun hmem => ?_, hi.delivered.matchOnce⟩
    obtain ⟨m, hm, heq⟩ := mem_map.mp hmem
    obtain ⟨h1, h2⟩ := Prod.mk.inj heq
    refine h.unmatched m hm ⟨h1, h2.trans ?_⟩
    simp [matchOf, h.after.atSrc]
  returns q hq hreply := by
    obtain ⟨hsender, hnumber⟩ := (h.matchOf_of hi).sender
    rw [h.matched]
    rw [h.posted, mem_append] at hq
    rcases hq with hq | hq
    · obtain ⟨rfl, -⟩ := h.new q hq
      exact .inl ⟨_, mem_cons_self, hsender, hnumber⟩
    · rcases hi.delivered.returns q hq hreply with ⟨m, hm, hkey⟩ | ⟨t, ht, hs, hkey⟩
      · exact .inl ⟨m, mem_cons_of_mem _ hm, hkey⟩
      · by_cases hsrc : q.sender = src
        · -- the sleeper whose request has just been taken
          rw [hsrc, h.atSrc] at ht
          cases ht
          refine .inl ⟨_, mem_cons_self, hsrc.symm, ?_⟩
          rw [hnumber, h.request.2.2.1, h.requests.2.2 hs, hkey]
        · have hdst : q.sender ≠ dst := by
            intro heq
            rw [heq, h.atDst] at ht
            cases ht
            exact h.awake.1 hs
          exact .inr ⟨t, (h.after.others _ hdst hsrc).trans ht, hs, hkey⟩

theorem inv (hi : SerialInv A s) : SerialInv A s' where
  queue := h.queue
  areas := h.area ▸ hi.areas
  ids x t ht := by
    rcases h.cases_threads ht with ⟨rfl, rfl⟩ | ⟨rfl, rfl⟩ | ⟨-, -, ht⟩
    · exact h.pids.1 ▸ hi.ids x d h.atDst
    · exact h.pids.2 ▸ hi.ids x u h.atSrc
    · exact hi.ids x t ht
  receivers x t ht hr := by
    rcases h.cases_threads ht with ⟨rfl, rfl⟩ | ⟨rfl, rfl⟩ | ⟨hd, -, ht⟩
    · exact absurd hr h.settled.1.2
    · exact absurd hr h.settled.2.2
    · rw [h.receives x hd]
      exact hi.receivers x t ht hr
  senders x t ht hs := by
    rcases h.cases_threads ht with ⟨rfl, rfl⟩ | ⟨rfl, rfl⟩ | ⟨hd, hsrc, ht⟩
    · exact absurd hs h.settled.1.1
    · exact absurd hs h.settled.2.1
    · obtain ⟨⟨q, hq⟩, hun⟩ := hi.senders x t ht hs
      refine ⟨⟨q, hq.keep h.kept h.area (h.mem hi.areas hd)⟩, fun m hm => ?_⟩
      rw [h.matched] at hm
      rcases mem_cons.mp hm with rfl | hm
      · exact fun hkey => hsrc hkey.1.symm
      · exact hun m hm
  numbers q hq := by
    rw [h.posted, mem_append] at hq
    rcases hq with hq | hq
    · obtain ⟨rfl, -⟩ := h.new q hq
      exact ⟨u', h.request.2.1 ▸ h.after.atSrc, h.request.2.2.1.le⟩
    · exact h.kept.numbers hi hq
  delivered := h.delivered hi

end

end HandOver

theorem findReceiver_waits {s : IpcState} (hq : QueueInv s) (h : s.findReceiver pid = some (x, t)) :
    s.threads x = some t ∧ t.receiving ∧ t.ipcWait.pid = pid := by
  obtain ⟨hx, hpid⟩ := findReceiver_some h
  exact ⟨hx.thread, ⟨hq.wait hx.queued hx.thread, hx.type⟩, hpid⟩

theorem findSender_waits {s : IpcState} (hq : QueueInv s) (h : s.findSender pid = some (x, t)) :
    s.threads x = some t ∧ t.sending ∧ t.ipcWait.pid = pid := by
  obtain ⟨hx, hpid⟩ := findSender_some h
  exact ⟨hx.thread, ⟨hq.wait hx.queued hx.thread, hx.type⟩, hpid⟩

variable {a : IpcAction}

theorem perform_step (h : s.perform A a = some s') : ∃ ipc, ipcStep s.ipc a = some ipc := by
  obtain ⟨ipc, hstep, -⟩ := map_eq_some_iff.mp h
  exact ⟨ipc, hstep⟩

/-- A call that copies nothing. -/
theorem perform_none (ha : s.perform A a = some s')
    (h : ipcStep s.ipc a = some ipc) (hc : ipcCopy s.ipc a = none) :
    s' = { s with ipc := ipc } := by
  simp only [perform, h, hc, map_some, some.injEq, IpcMem.copy] at ha
  exact ha.symm

theorem perform_copy (ha : s.perform A a = some s')
    (h : ipcStep s.ipc a = some ipc) (hc : ipcCopy s.ipc a = some (dst, src)) :
    s' = { s with
      ipc := ipc
      mem := (Message.copyMsg A (s.area dst) (s.area src) (s.ipc.pidOf src) src (Traced.start s.mem)).mem
      matched := s'.matchOf A dst src :: s.matched } := by
  simp only [perform, h, hc, map_some, some.injEq, IpcMem.copy] at ha
  subst ha
  rfl

variable {opcode : ℕ} {reply : Bool} {p : Posted}

/-- The request is on the queue: its sender sleeps. -/
theorem OwnMove.queued {u : Thread} (ht : s.ipc.threads tid = some t) (hn : t.state = .normal)
    (hp : p = ⟨tid, t.requests + 1, t.pid, dst, opcode, reply, content A s.mem (s.area tid)⟩)
    (hu : u = { t with
      requests := t.requests + 1, waitType := .forSerialRecv, ipcWait := ⟨dst, 0, opcode, reply⟩
      ret := (0, 0) })
    (hq : QueueInv (s.ipc.enqueue tid u)) :
    OwnMove A s { s with ipc := s.ipc.enqueue tid u, posted := [p] ++ s.posted } tid t
      { u with state := .wait } [p] := by
  subst hu hp
  exact {
    before := ht
    normal := hn
    threads x := put_threads _ _ _ _
    pid := rfl
    requests := le_succ _
    queue := hq
    area := rfl
    mem _ _ _ _ _ := rfl
    posted := rfl
    matched := rfl
    receives _ _ := rfl
    completed k := by simp [Thread.receiving]
    receiver h := nomatch h.2
    sender _ := ⟨lt_succ_self _, _, mem_cons_self, ⟨rfl, rfl⟩, rfl, rfl, rfl, fun _ => rfl⟩
    new r hr := by
      rw [mem_singleton.mp hr]
      exact ⟨⟨rfl, rfl⟩, rfl, rfl⟩
    once := le_rfl }

/-- There is no request: the receiver sleeps. -/
theorem OwnMove.waits {u : Thread} (ht : s.ipc.threads tid = some t) (hn : t.state = .normal)
    (hu : u = { t with
      waitType := .forSerialReq, ipcWait := { t.ipcWait with pid := t.pid, tid := tid }
      ret := (0, 0) })
    (hq : QueueInv (s.ipc.enqueue tid u)) :
    OwnMove A s { s with
      ipc := s.ipc.enqueue tid u
      receives := update s.receives tid (s.receives tid + 1) } tid t { u with state := .wait } [] := by
  subst hu
  exact {
    before := ht
    normal := hn
    threads x := put_threads _ _ _ _
    pid := rfl
    requests := le_rfl
    queue := hq
    area := rfl
    mem _ _ _ _ _ := rfl
    posted := rfl
    matched := rfl
    receives x hx := update_of_ne hx _ _
    completed k := by
      simp only [update_self, Thread.receiving, and_true]
      omega
    receiver _ := ⟨rfl, by simp⟩
    sender h := nomatch h.2
    new := nofun
    once := zero_le _ }

/-- A request meets a waiting receiver. -/
theorem HandOver.sent {r d' u' : Thread} (hi : SerialInv A s) (hne : x ≠ tid)
    (ht : s.ipc.threads tid = some t) (hn : t.state = .normal) (hr : s.ipc.threads x = some r)
    (hw : r.receiving) (hpid : r.ipcWait.pid = dst) (hafter : Exchanged s.ipc s'.ipc x tid d' u')
    (hd : d'.state = .normal ∧ d'.pid = r.pid ∧ d'.requests = r.requests ∧ d'.ret.2 = opcode)
    (hu : u'.Settled ∧ u'.pid = t.pid ∧ u'.requests = t.requests + 1) (hq : QueueInv s'.ipc)
    (hp : p = ⟨tid, t.requests + 1, t.pid, dst, opcode, reply, content A s.mem (s.area tid)⟩)
    (hfits : getBits A s.mem (s.area tid) A.numDataWords ≤ A.maxMsgDataWords)
    (hs : s' = { s with
      ipc := s'.ipc
      mem := (Message.copyMsg A (s.area x) (s.area tid) t.pid tid (Traced.start s.mem)).mem
      posted := [p] ++ s.posted
      matched := s'.matchOf A x tid :: s.matched }) :
    HandOver A s s' x tid r d' t u' [p] p where
  ne := hne
  atDst := hr
  atSrc := ht
  after := hafter
  awake := ⟨fun h => Thread.not_receiving_of_sending h hw, (Thread.settled_of_normal hn).2⟩
  settled := ⟨Thread.settled_of_normal hd.1, hu.1⟩
  pids := ⟨hd.2.1, hu.2.1⟩
  requests := ⟨hd.2.2.1.ge, by omega, fun h => absurd h (Thread.settled_of_normal hn).1⟩
  queue := hq
  area := by rw [hs]
  copied := by
    rw [hs]
    exact (copyMsg_spec (hi.areas x tid hne) t.pid tid s.mem).1
  fits := hfits
  posted := by rw [hs]
  new q hq := ⟨mem_singleton.mp hq, by omega⟩
  once := le_rfl
  request := by
    refine ⟨by rw [hs]; exact mem_cons_self, ?_⟩
    subst hp
    have hrpid := (hi.receivers x r hr hw).1
    exact ⟨rfl, hu.2.2.symm, rfl, hpid.symm.trans hrpid, hd.2.2.2.symm, rfl⟩
  unmatched m hm hkey := by
    have := hi.match_le hm (hkey.1 ▸ ht)
    omega
  matched := congrArg SerialState.matched hs
  receives y _ := by rw [hs]
  pending := by
    have hrecv : s'.receives x = s.receives x := by rw [hs]
    refine ⟨hrecv ▸ (hi.receivers x r hr hw).2, fun k => ?_⟩
    rw [hi.delivered.completed x k]
    simp only [hr, some.injEq, exists_eq_left', hw, and_true]
    omega

/-- A receiver finds a sleeping sender. -/
theorem HandOver.received {c d' u' : Thread} (hi : SerialInv A s) (hne : tid ≠ x)
    (ht : s.ipc.threads tid = some t) (hn : t.state = .normal) (hc : s.ipc.threads x = some c)
    (hw : c.sending) (hpid : c.ipcWait.pid = t.pid) (hafter : Exchanged s.ipc s'.ipc tid x d' u')
    (hd : d'.state = .normal ∧ d'.pid = t.pid ∧ d'.requests = t.requests ∧
      d'.ret.2 = c.ipcWait.opcode)
    (hu : u'.Settled ∧ u'.pid = c.pid ∧ u'.requests = c.requests) (hq : QueueInv s'.ipc)
    (hfits : getBits A s.mem (s.area x) A.numDataWords ≤ A.maxMsgDataWords)
    (hs : s' = { s with
      ipc := s'.ipc
      mem := (Message.copyMsg A (s.area tid) (s.area x) c.pid x (Traced.start s.mem)).mem
      receives := update s.receives tid (s.receives tid + 1)
      matched := s'.matchOf A tid x :: s.matched }) :
    ∃ r, HandOver A s s' tid x t d' c u' [] r := by
  obtain ⟨⟨r, hr⟩, hun⟩ := hi.senders x c hc hw
  have hrecv : s'.receives = update s.receives tid (s.receives tid + 1) := by rw [hs]
  have hposted : s'.posted = s.posted := by rw [hs]
  exact ⟨r, {
    ne := hne
    atDst := ht
    atSrc := hc
    after := hafter
    awake := ⟨(Thread.settled_of_normal hn).1, Thread.not_receiving_of_sending hw⟩
    settled := ⟨Thread.settled_of_normal hd.1, hu.1⟩
    pids := ⟨hd.2.1, hu.2.1⟩
    requests := ⟨hd.2.2.1.ge, hu.2.2.ge, fun _ => hu.2.2⟩
    queue := hq
    area := by rw [hs]
    copied := by
      rw [hs]
      exact (copyMsg_spec (hi.areas tid x hne) c.pid x s.mem).1
    fits := hfits
    posted := hposted
    new := nofun
    once := zero_le _
    request := ⟨hposted ▸ hr.posted, hr.key.1, hr.key.2.trans hu.2.2.symm, hr.senderPid,
      hr.dstPid.trans hpid, hr.opcode.trans hd.2.2.2.symm, hr.content hfits⟩
    unmatched := hu.2.2 ▸ hun
    matched := congrArg SerialState.matched hs
    receives y hy := by rw [hrecv, update_of_ne hy]
    pending := by
      rw [hrecv, update_self]
      refine ⟨by omega, fun k => ?_⟩
      rw [hi.delivered.completed tid k]
      simp only [ht, some.injEq, exists_eq_left', (Thread.settled_of_normal hn).2, and_false,
        not_false_eq_true, and_true]
      omega }⟩

variable {dstPid flags entry : ℕ}

/-- The copy that a request makes, outside the popup branch. -/
theorem ipcCopy_request {s : IpcState}
    (hdst : dst = if dstPid = 0 then s.systemPid else dstPid) (hp : s.procs dst = some entry)
    (hpop : ¬ (flags &&& ipcSendPopup ≠ 0 ∧ entry ≠ 0)) (hser : flags &&& ipcSendSerial ≠ 0) :
    ipcCopy s (.request tid dstPid opcode flags 0) = (s.findReceiver dst).map fun r => (r.1, tid) := by
  simp [ipcCopy, ← hdst, hp, if_neg hpop, if_pos hser]

theorem post_eq (hdst : dst = if dstPid = 0 then s.ipc.systemPid else dstPid)
    (hp : s.ipc.procs dst = some entry)
    (hser : flags &&& ipcSendSerial ≠ 0) (ht : s.ipc.threads tid = some t) :
    post A s tid dstPid opcode flags = some ⟨tid, t.requests + 1, t.pid, dst, opcode,
      decide (flags &&& ipcSendWaitForReply ≠ 0), content A s.mem (s.area tid)⟩ := by
  simp [post, ← hdst, hp, hser, ht]

theorem SerialInv.request (hi : SerialInv A s)
    (hfit : CopiesFit A s.toIpcMem (.request tid dstPid opcode flags 0))
    (h : s.step A (.request tid dstPid opcode flags) = some s') : SerialInv A s' := by
  simp only [step] at h
  split_ifs at h with hpopup
  have hcall := perform_step h
  obtain ⟨ipc, hstep⟩ : ∃ ipc, ipcStep s.ipc (.request tid dstPid opcode flags 0) = some ipc :=
    hcall
  have hq := hi.queue.step hstep
  obtain ⟨t, dst, ht, hn, hdst, -, hb⟩ := ipcRequest_branches hstep
  rcases hb with ⟨hp, rfl⟩ | ⟨entry, hp, ⟨hpop, -⟩ | ⟨hpop, hser, x, r, hf, hb⟩ | ⟨hpop, hser,
    hf, rfl⟩ | ⟨hpop, hser, rfl⟩⟩
  · -- no such process
    have hpost : post A s tid dstPid opcode flags = none := by
      simp [post, ← hdst, hp]
    have hcopy : ipcCopy s.ipc (.request tid dstPid opcode flags 0) = none := by
      simp [ipcCopy, ← hdst, hp]
    rw [perform_none h hstep hcopy, hpost]
    exact (OwnMove.running ht hn (put_threads _ _ _) hq (fun _ _ _ _ _ => rfl) hn rfl (le_succ _)).inv hi
  · -- the popup branch
    refine absurd ?_ hpopup
    simp [popup, ← hdst, hp, hpop]
  · -- a receiver waits
    have hcopy : ipcCopy s.ipc (.request tid dstPid opcode flags 0) = some (x, tid) := by
      rw [ipcCopy_request hdst hp hpop hser, hf, map_some]
    obtain ⟨hr, hw, hpid⟩ := findReceiver_waits hi.queue hf
    have hs' := perform_copy h hstep hcopy
    rw [post_eq hdst hp hser ht, pidOf_eq ht] at hs'
    have hipc : s'.ipc = ipc := congrArg (fun u => u.ipc) hs'
    subst hipc
    have hne := (ipcCopy_exchange hi.queue hstep hcopy).1
    obtain ⟨-, ⟨-, hb⟩ | ⟨-, hb⟩⟩ := ipcSendTo_branches hb
    · exact (HandOver.sent hi hne ht hn hr hw hpid (exchanged_of_update hne (congrArg threads hb))
        ⟨rfl, rfl, rfl, rfl⟩ ⟨Thread.settled_of_normal hn, rfl, rfl⟩ hq rfl (hfit _ hcopy) hs').inv hi
    · exact (HandOver.sent hi hne ht hn hr hw hpid (exchanged_of_update hne (congrArg threads hb))
        ⟨rfl, rfl, rfl, rfl⟩ ⟨Thread.settled_of_forResp rfl, rfl, rfl⟩ hq rfl (hfit _ hcopy) hs').inv hi
  · -- the sender has to wait
    have hcopy : ipcCopy s.ipc (.request tid dstPid opcode flags 0) = none := by
      rw [ipcCopy_request hdst hp hpop hser, hf, map_none]
    rw [perform_none h hstep hcopy, post_eq hdst hp hser ht]
    exact (OwnMove.queued ht hn rfl rfl hq).inv hi
  · -- neither flag
    have hpost : post A s tid dstPid opcode flags = none := by
      simp [post, hser]
    have hcopy : ipcCopy s.ipc (.request tid dstPid opcode flags 0) = none := by
      simp [ipcCopy, ← hdst, hp, if_neg hpop, if_neg hser]
    rw [perform_none h hstep hcopy, hpost]
    exact (OwnMove.running ht hn (put_threads _ _ _) hq (fun _ _ _ _ _ => rfl) hn rfl (le_succ _)).inv hi

theorem SerialInv.receive (hi : SerialInv A s) (hfit : CopiesFit A s.toIpcMem (.receive tid))
    (h : s.step A (.receive tid) = some s') : SerialInv A s' := by
  have hcall := perform_step h
  obtain ⟨ipc, hstep⟩ : ∃ ipc, ipcStep s.ipc (.receive tid) = some ipc := hcall
  have hq := hi.queue.step hstep
  obtain ⟨t, ht, hn, ⟨hf, rfl⟩ | ⟨x, c, hf, hb⟩⟩ := ipcReceive_branches hstep
  · have hcopy : ipcCopy s.ipc (.receive tid) = none := by
      simp [ipcCopy, ht, hf]
    rw [perform_none h hstep hcopy]
    exact (OwnMove.waits ht hn rfl hq).inv hi
  · have hcopy : ipcCopy s.ipc (.receive tid) = some (tid, x) := by
      simp [ipcCopy, ht, hf]
    obtain ⟨hc, hw, hpid⟩ := findSender_waits hi.queue hf
    have hs' := perform_copy h hstep hcopy
    rw [pidOf_eq hc] at hs'
    have hipc : s'.ipc = ipc := congrArg (fun u => u.ipc) hs'
    subst hipc
    have hne := (ipcCopy_exchange hi.queue hstep hcopy).1.symm
    rcases hb with ⟨-, hb⟩ | ⟨-, -, hb⟩
    · obtain ⟨r, hmove⟩ := HandOver.received hi hne.symm ht hn hc hw hpid
        (exchanged_of_update (s := s.ipc) hne (congrArg threads hb)).symm ⟨hn, rfl, rfl, rfl⟩
        ⟨Thread.settled_of_forResp rfl, rfl, rfl⟩ hq (hfit _ hcopy) hs'
      exact hmove.inv hi
    · obtain ⟨r, hmove⟩ := HandOver.received hi hne.symm ht hn hc hw hpid
        (exchanged_of_update (s := s.ipc) hne (congrArg threads hb)).symm ⟨hn, rfl, rfl, rfl⟩
        ⟨Thread.settled_of_normal rfl, rfl, rfl⟩ hq (hfit _ hcopy) hs'
      exact hmove.inv hi

theorem SerialInv.store {offset : ℕ} {byte : UInt8} (hi : SerialInv A s)
    (h : s.step A (.store tid offset byte) = some s') : SerialInv A s' := by
  simp only [step] at h
  split_ifs at h with hok
  obtain ⟨t, hcaller⟩ := isSome_iff_exists.mp hok.1
  obtain ⟨ht, hn⟩ := caller_eq_some.mp hcaller
  cases h
  refine (OwnMove.running ht hn (fun x => ?_) hi.queue (fun x hx a hlo hhi => ?_) hn rfl le_rfl).inv
    hi
  · split_ifs with hx
    · rw [hx, ht]
    · rfl
  · have hsep := hi.areas x tid hx
    unfold NoOverlap at hsep
    exact ByteMem.store_outside (by simp only [length_singleton]; omega)

theorem SerialInv.init (h : s.Init A) : SerialInv A s where
  queue := QueueInv.init h.ipc
  areas := h.areas
  ids := h.ids
  receivers x t ht hr := absurd hr.1 (h.ipc.not_wait ht)
  senders x t ht hs := absurd hs.1 (h.ipc.not_wait ht)
  numbers r hr := by simp [h.posted] at hr
  delivered := by
    constructor
    case completed =>
      intro tid k
      simp only [h.matched, not_mem_nil, false_and, exists_false, h.receives, false_iff]
      omega
    all_goals simp [h.matched, h.posted]

/-- Every completed receive of a process is matched with exactly one request to it, with its opcode,
contents and sender, and no request is matched twice, as long as the messages copied fit the message
area. -/
theorem serial_ipc_delivers (A : Arch) (s0 s : SerialState) (h0 : s0.Init A)
    (h : Reach (step A) (SerialState.Fit A) s0 s) : s.Delivered := by
  refine (h.invariant (SerialInv.init h0) fun u a v hi hfit hs => ?_).delivered
  cases a with
  | request tid dstPid opcode flags => exact hi.request (hfit _ rfl) hs
  | receive tid => exact hi.receive (hfit _ rfl) hs
  | store tid offset byte => exact hi.store hs

def serialThreads (mem : ByteMem) : SerialState where
  ipc := threeThreads
  mem := mem
  area := pageAreas
  receives := fun _ => 0
  posted := []
  matched := []

theorem serialThreads_init (mem : ByteMem) : (serialThreads mem).Init ⟨true, false⟩ := by
  refine ⟨threeThreads_init, pageAreas_apart, fun tid t ht => ?_, rfl, rfl, rfl⟩
  simp only [serialThreads, threeThreads] at ht
  split_ifs at ht with htid
  cases ht
  rcases htid with rfl | rfl | rfl <;> decide +kernel

theorem serial_ipc_delivers_one_request :
    ∃ s, execute (step ⟨true, false⟩) (SerialState.Fit ⟨true, false⟩) (serialThreads fun _ => 0)
        [.receive 2, .request 1 20 7 1] = some s ∧
      s.matched.map (fun m => (m.receiver, m.sender, m.opcode)) = [(2, 1, 7)] ∧ s.Delivered := by
  refine exists_execute (P := fun s => s.matched.map (fun m => (m.receiver, m.sender, m.opcode)) =
    [(2, 1, 7)]) (by decide +kernel) fun s hs hmatched => ?_
  exact ⟨hmatched, serial_ipc_delivers ⟨true, false⟩ _ s (serialThreads_init _) hs⟩

/-- Memory in which the message of thread 3 has 495 data words, the last of them at `0x4000`. -/
def spilling : ByteMem := fun x =>
  if x = 0x3002 then 0xf0 else if x = 0x3003 then 0x1e else if x = 0x4000 then 5 else 0

/-- Thread 2 waits with a request for thread 3, whose own request to thread 1 is copied over the
header of the message of thread 2. -/
theorem spilled_message_alters_request :
    ¬ ∀ (A : Arch) (s0 s : SerialState), s0.Init A → Reach (step A) anyStep s0 s → s.Delivered := by
  intro h
  obtain ⟨s, hs, hhead, hposted⟩ :
    ∃ s, Reach (step ⟨true, false⟩) anyStep (serialThreads spilling) s ∧
      s.matched.head?.map (fun m => (m.sender, m.content.size)) = some (2, 5) ∧
      s.posted.map (fun r => (r.sender, r.content.size)) = [(3, 0x1ef00000), (2, 0)] :=
    exists_reach [.receive 1, .request 2 30 7 1, .request 3 10 8 1, .receive 3] (by decide +kernel)
  obtain ⟨m, hm, hpair⟩ := map_eq_some_iff.mp hhead
  obtain ⟨hsender, hsize⟩ := Prod.mk.inj hpair
  obtain ⟨t, -, r, hr, hof⟩ := (h _ _ s (serialThreads_init spilling) hs).authentic m
    (mem_of_head? hm)
  have hin : (r.sender, r.content.size) ∈ [(3, 0x1ef00000), (2, 0)] := hposted ▸ mem_map_of_mem hr
  rw [← hof.sender.1, hsender, ← hof.content, hsize] at hin
  exact absurd hin (by decide)

end Toddler
