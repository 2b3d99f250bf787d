import Toddler.Spec.WaitQueue

/-! The wait queue over whole runs. Each loop of `wait.c` takes some waiters off the queue and
leaves the others in place, so one lemma about waking a part of the queue serves all of them. -/

namespace Toddler

open Function List Option

variable {s s' : WaitState} {q : List Waiter}

/-- The second list of `r` is a part of the queue and the first one the rest of it. -/
structure Parted (q : List Waiter) (r : List Waiter × List Waiter) : Prop where
  woken : r.2.Sublist q
  stays : r.1 = q.filter fun w => w ∉ r.2

theorem parted_filter (q : List Waiter) (p : Waiter → Bool) :
    Parted q (q.filter fun w => !p w, q.filter p) := by
  refine ⟨filter_sublist, filter_congr fun w hw => ?_⟩
  simp [hw]

theorem timeoutLoop_eq {nowMs : ℕ} (hq : q.Pairwise fun a b => a.waitTimeoutMs ≤ b.waitTimeoutMs) :
    timeoutLoop nowMs q = (q.filter fun w => !w.expired nowMs,
    q.filter (Waiter.expired nowMs)) := by
  induction q with
  | nil => rfl
  | cons w ws ih =>
    obtain ⟨hle, hws⟩ := pairwise_cons.mp hq
    unfold timeoutLoop
    split_ifs with hlate
    · -- the deadlines after an unexpired one are later still
      have hnone : ∀ v ∈ w :: ws, v.expired nowMs = false := by
        intro v hv
        simp only [Waiter.expired, decide_eq_false_iff_not, Nat.not_le]
        rcases mem_cons.mp hv with rfl | hv
        · exact hlate
        · exact hlate.trans_le (hle v hv)
      rw [filter_eq_self.mpr fun v hv => by simp [hnone v hv], filter_eq_nil_iff.mpr fun v hv => by
        simp [hnone v hv]]
    · have hexp : w.expired nowMs = true := by simpa [Waiter.expired] using hlate
      simp [ih hws, hexp]

theorem purgeLoop_eq (pid : ℕ) (q : List Waiter) :
    purgeLoop pid q = (q.filter fun w => !decide (w.pid = pid), q.filter fun w =>
    decide (w.pid = pid)) := by
  induction q with
  | nil => rfl
  | cons w ws ih =>
    unfold purgeLoop
    rw [ih]
    split_ifs with hpid <;> simp [hpid]

theorem wakeLoop_woken (selected : Waiter → Bool) (maxCount : ℕ) (q : List Waiter) : ∀ count,
    (maxCount ≠ 0 → count < maxCount) → (wakeLoop selected maxCount count q).2 =
      if maxCount = 0 then q.filter selected else (q.filter selected).take (maxCount - count) := by
  induction q with
  | nil => simp [wakeLoop]
  | cons w ws ih =>
    intro count hcount
    unfold wakeLoop
    by_cases hsel : selected w = true
    · rw [filter_cons_of_pos hsel]
      split_ifs with hlast hzero hzero
      · exact absurd hzero hlast.1
      · have hone : maxCount - count = 1 := by
          omega
        rw [hone]
        rfl
      · change w :: (wakeLoop selected maxCount (count + 1) ws).2 = _
        rw [ih (count + 1) (fun h => absurd hzero h), if_pos hzero]
      · have hmore : count + 1 < maxCount := by
          rw [not_and, Nat.not_le] at hlast
          exact hlast hzero
        change w :: (wakeLoop selected maxCount (count + 1) ws).2 = _
        rw [ih (count + 1) (fun _ => hmore), if_neg hzero,
          show maxCount - count = maxCount - (count + 1) + 1 by omega, take_succ_cons]
    · rw [if_neg hsel, filter_cons_of_neg hsel]
      exact ih count hcount

theorem wakeLoop_parted (selected : Waiter → Bool) (maxCount : ℕ) (hq : q.Nodup) : ∀ count,
    Parted q (wakeLoop selected maxCount count q) := by
  induction q with
  | nil => exact fun _ => ⟨List.Sublist.refl _, rfl⟩
  | cons w ws ih =>
    intro count
    obtain ⟨hw, hws⟩ := nodup_cons.mp hq
    unfold wakeLoop
    split_ifs with hsel hlast
    · refine ⟨(nil_sublist ws).cons_cons w, ?_⟩
      rw [filter_cons_of_neg (by simp), filter_eq_self.mpr]
      intro v hv
      simpa using fun h : v = w => hw (h ▸ hv)
    · obtain ⟨hsub, hstay⟩ := ih hws (count + 1)
      refine ⟨hsub.cons_cons w, ?_⟩
      rw [filter_cons_of_neg (by simp), hstay]
      refine filter_congr fun v hv => ?_
      have hne : v ≠ w := fun h => hw (h ▸ hv)
      simp [hne]
    · obtain ⟨hsub, hstay⟩ := ih hws count
      refine ⟨hsub.cons w, ?_⟩
      have hnot : w ∉ (wakeLoop selected maxCount count ws).2 := fun h => hw (hsub.mem h)
      rw [filter_cons_of_pos (by simpa using hnot), ← hstay]

theorem wakeOnObject_parted (hq : q.Nodup) (futex : Option Futex) (pid : ℕ) (waitType : WaitType)
    (waitObj waitValue maxWakeupCount : ℕ) :
    Parted q (wakeOnObject q futex pid waitType waitObj waitValue maxWakeupCount) := by
  unfold wakeOnObject
  simp only
  split_ifs
  · exact wakeLoop_parted _ _ hq 0
  · exact ⟨nil_sublist q, by simp⟩

theorem wakeOnObject_woken {f : Futex} {pid waitObj waitValue maxWakeupCount : ℕ}
    (hf : futexWakes f waitValue) :
    (wakeOnObject q (some f) pid .futex waitObj waitValue maxWakeupCount).2 =
      if maxWakeupCount = 0 then q.filter (Waiter.waitsFor pid waitObj)
      else (q.filter (Waiter.waitsFor pid waitObj)).take maxWakeupCount := by
  have hsel : (fun w : Waiter => w.waitType == .futex && w.waitObj == waitObj && w.pid == pid) =
      Waiter.waitsFor pid waitObj := by
    funext w
    rw [Bool.eq_iff_iff]
    simp [Waiter.waitsFor, and_assoc]
  have hdo : (!f.kernel && futexMatches f.locked waitValue) = true := by simp [hf.1, hf.2]
  simp only [wakeOnObject, hdo, if_true, hsel]
  rw [wakeLoop_woken _ _ _ 0 Nat.pos_of_ne_zero, Nat.sub_zero]

theorem wakeupAll (ws : List Waiter) : ∀ threads : ℕ → Option Thread, (ws.map Waiter.tid).Nodup →
    (∀ w ∈ ws, ∃ t, threads w.tid = some t ∧ t.state = .wait) →
    ∃ threads', ws.foldlM wakeupWaiter threads = some threads' ∧ ∀ tid, threads' tid =
      if tid ∈ ws.map Waiter.tid then (threads tid).map fun t =>
      { t with state := .normal } else threads tid := by
  induction ws with
  | nil =>
    intro threads _ _
    exact ⟨threads, rfl, fun tid => by simp⟩
  | cons w ws ih =>
    intro threads hnodup hall
    rw [map_cons, nodup_cons] at hnodup
    obtain ⟨t, ht, hwait⟩ := hall w mem_cons_self
    have hone : wakeupWaiter threads w =
        some (update threads w.tid (some { t with state := .normal })) := by
      simp [wakeupWaiter, ht, Thread.wakeup, Thread.setState, hwait]
    obtain ⟨threads', hfold, hthreads⟩ := ih (update threads w.tid
      (some { t with state := .normal })) hnodup.2 fun v hv => by
        have hne : v.tid ≠ w.tid := fun h => hnodup.1 (h ▸ mem_map_of_mem hv)
        rw [update_of_ne hne]
        exact hall v (mem_cons_of_mem w hv)
    refine ⟨threads', by rw [foldlM_cons, hone]; exact hfold, fun tid => ?_⟩
    rw [hthreads tid]
    by_cases htid : tid = w.tid
    · subst htid
      rw [if_neg hnodup.1, if_pos (by simp), update_self, ht]
      rfl
    · rw [update_of_ne htid]
      simp [htid]

theorem WaitQueueOk.nodup (h : WaitQueueOk s) : s.waitQueue.Nodup := h.once.of_map _

/-- Waking a part of the queue succeeds and wakes that part. -/
theorem WaitQueueOk.wakeup (h : WaitQueueOk s) {r : List Waiter × List Waiter}
    (hr : Parted s.waitQueue r) : ∃ s', s.wakeup r = some s' ∧ Wakes s s' r.2 ∧ WaitQueueOk s' := by
  have hsub := hr.woken.map Waiter.tid
  obtain ⟨threads', hfold, hthreads⟩ := wakeupAll r.2 s.threads (hsub.nodup h.once) fun w hw =>
    (h.sleeping w.tid).mp (mem_map_of_mem (hr.woken.mem hw))
  refine ⟨{ s with threads := threads', waitQueue := r.1 }, by rw [WaitState.wakeup, hfold]; rfl,
    ⟨hr.stays, hthreads, rfl⟩, ?_, ?_, fun tid => ?_⟩
  · exact hr.stays ▸ h.sorted.filter _
  · exact hr.stays ▸ (filter_sublist.map _).nodup h.once
  · -- two waiters with one `tid` are the same
    have hmem : tid ∈ r.1.map Waiter.tid ↔ tid ∈ s.waitQueue.map Waiter.tid ∧
        tid ∉ r.2.map Waiter.tid := by
      rw [hr.stays]
      constructor
      · intro hin
        obtain ⟨w, hw, rfl⟩ := mem_map.mp hin
        obtain ⟨hw, hnot⟩ := mem_filter.mp hw
        refine ⟨mem_map_of_mem hw, fun hwoken => ?_⟩
        obtain ⟨v, hv, heq⟩ := mem_map.mp hwoken
        rw [inj_on_of_nodup_map h.once (hr.woken.mem hv) hw heq] at hv
        simp [hv] at hnot
      · rintro ⟨hin, hnot⟩
        obtain ⟨w, hw, rfl⟩ := mem_map.mp hin
        refine mem_map_of_mem (mem_filter.mpr ⟨hw, ?_⟩)
        simpa using fun hwoken => hnot (mem_map_of_mem hwoken)
    change tid ∈ r.1.map Waiter.tid ↔ ∃ t, threads' tid = some t ∧ t.state = .wait
    rw [hmem, h.sleeping tid, hthreads tid]
    split_ifs with hwoken
    · simp [hwoken]
    · simp [hwoken]

variable {w : Waiter}

theorem waitOnObject_tid {futex : Option Futex} {pid tid : ℕ} {waitType : WaitType}
    {waitObj waitValue timeoutMs nowMs : ℕ}
    (h : waitOnObject futex pid tid waitType waitObj waitValue timeoutMs nowMs = some w) :
      w.tid = tid := by
  cases waitType with
  | timeout =>
    simp only [waitOnObject, some.injEq] at h
    rw [← h]
  | futex =>
    cases futex with
    | none => simp [waitOnObject] at h
    | some f =>
      simp only [waitOnObject] at h
      split_ifs at h
      all_goals
        rw [some.injEq] at h
        rw [← h]

theorem sleepThread_sorted (hq : q.Pairwise fun a b => a.waitTimeoutMs ≤ b.waitTimeoutMs) :
    (sleepThread q w).Pairwise fun a b => a.waitTimeoutMs ≤ b.waitTimeoutMs := by
  exact hq.orderedInsert w q

theorem WaitQueueOk.sleep (h : WaitQueueOk s) {t : Thread} (ht : s.threads w.tid = some t)
    (hn : t.state = .normal) : WaitQueueOk { s with
      threads := update s.threads w.tid (some { t with state := .wait })
      waitQueue := sleepThread s.waitQueue w } := by
  have hperm : (sleepThread s.waitQueue w).Perm (w :: s.waitQueue) := perm_orderedInsert _ w _
  have hmap := hperm.map Waiter.tid
  have hout : w.tid ∉ s.waitQueue.map Waiter.tid := by
    rw [h.sleeping, ht]
    rintro ⟨u, hu, hwait⟩
    cases hu
    rw [hn] at hwait
    cases hwait
  refine ⟨sleepThread_sorted h.sorted, hmap.nodup_iff.mpr (nodup_cons.mpr ⟨hout, h.once⟩),
    fun tid => ?_⟩
  rw [hmap.mem_iff, map_cons, mem_cons, h.sleeping]
  by_cases htid : tid = w.tid
  · simp [htid]
  · simp [htid]

theorem waitQueueOk_step {a : WaitAction} (h : WaitQueueOk s) (hs : waitStep s a = some s') :
    WaitQueueOk s' := by
  have hwakeup : ∀ {r : List Waiter × List Waiter}, Parted s.waitQueue r → s.wakeup r = some s' →
      WaitQueueOk s' := by
    intro r hr hs
    obtain ⟨u, hu, -, hok⟩ := h.wakeup hr
    rw [hu, some.injEq] at hs
    exact hs ▸ hok
  cases a with
  | wait tid futex waitType waitObj waitValue timeoutMs =>
    simp only [waitStep, bind_eq_bind, bind_eq_some_iff] at hs
    obtain ⟨t, ht, hs⟩ := hs
    split_ifs at hs with hn
    rw [not_not] at hn
    cases hw : waitOnObject futex t.pid tid waitType waitObj waitValue timeoutMs s.nowMs with
    | none =>
      simp only [hw, some.injEq] at hs
      exact hs ▸ h
    | some w =>
      obtain rfl := waitOnObject_tid hw
      simp only [hw, Thread.setState, if_pos hn, bind_some, some.injEq] at hs
      exact hs ▸ h.sleep ht hn
  | tick ms =>
    simp only [waitStep] at hs
    split_ifs at hs
    cases hs
    exact ⟨h.sorted, h.once, h.sleeping⟩
  | timeout =>
    refine hwakeup ?_ hs
    rw [timeoutLoop_eq h.sorted]
    exact parted_filter _ _
  | wake pid futex waitType waitObj waitValue maxWakeupCount =>
    exact hwakeup (wakeOnObject_parted h.nodup _ _ _ _ _ _) hs
  | purge pid =>
    refine hwakeup ?_ hs
    rw [purgeLoop_eq]
    exact parted_filter _ _

theorem waitQueueOk_init (h : WaitInit s) : WaitQueueOk s := by
  refine ⟨by simp [h.waitQueue], by simp [h.waitQueue], fun tid => ?_⟩
  rw [h.waitQueue]
  simp only [map_nil, not_mem_nil, false_iff]
  rintro ⟨t, ht, hwait⟩
  exact h.threads tid t ht hwait

theorem WaitQueueOk.callsOk (h : WaitQueueOk s) : WaitCallsOk s := by
  constructor
  · obtain ⟨u, hu, hwakes, -⟩ := h.wakeup (r := timeoutLoop s.nowMs s.waitQueue)
      (by rw [timeoutLoop_eq h.sorted]; exact parted_filter _ _)
    rw [timeoutLoop_eq h.sorted] at hwakes
    exact ⟨u, hu, hwakes⟩
  · intro pid f waitObj waitValue maxWakeupCount hf
    obtain ⟨u, hu, hwakes, -⟩ := h.wakeup
      (wakeOnObject_parted h.nodup (some f) pid .futex waitObj waitValue maxWakeupCount)
    rw [wakeOnObject_woken hf] at hwakes
    exact ⟨u, hu, hwakes⟩

/-- An empty queue looks ready at the time that stands for "never" only. -/
theorem WaitQueueOk.isWaitQueueReady_iff (h : WaitQueueOk s) (hnow : s.nowMs < noTimeout) :
    s.isWaitQueueReady = true ↔ ∃ w ∈ s.waitQueue, w.expired s.nowMs = true := by
  have hsorted := h.sorted
  rw [WaitState.isWaitQueueReady, decide_eq_true_iff]
  cases hq : s.waitQueue with
  | nil => simpa using hnow
  | cons w ws =>
    rw [hq] at hsorted
    simp only [Waiter.expired, decide_eq_true_iff]
    constructor
    · exact fun hle => ⟨w, mem_cons_self, hle⟩
    · rintro ⟨v, hv, hle⟩
      rcases mem_cons.mp hv with rfl | hv
      · exact hle
      · exact ((pairwise_cons.mp hsorted).1 v hv).trans hle

theorem wait_queue_correct (s0 s : WaitState) (h0 : WaitInit s0) (h : Reach waitStep anyStep s0 s) :
    WaitQueueOk s ∧ WaitCallsOk s ∧
      (s.nowMs < noTimeout → (s.isWaitQueueReady = true ↔ ∃ w ∈ s.waitQueue,
      w.expired s.nowMs = true)) := by
  have hok : WaitQueueOk s := h.invariant (waitQueueOk_init h0) fun _ _ _ hi _ hs =>
    waitQueueOk_step hi hs
  exact ⟨hok, hok.callsOk, hok.isWaitQueueReady_iff⟩

def twoRunning : WaitState where
  threads := fun tid => if tid = 1 ∨ tid = 2 then some { newThread 10 with state := .normal }
    else none
  waitQueue := []
  nowMs := 0

theorem twoRunning_init : WaitInit twoRunning := by
  refine ⟨rfl, fun tid t ht => ?_, by decide⟩
  simp only [twoRunning] at ht
  split_ifs at ht
  cases ht
  simp

theorem wait_queue_correct_two_sleepers : ∃ s, execute waitStep anyStep twoRunning
        [.wait 1 (some ⟨true, 3⟩) .futex 0x100 3 0, .wait 2 none .timeout 0 0 5, .tick 7] = some s ∧
      WaitQueueOk s ∧ WaitCallsOk s ∧ s.isWaitQueueReady = true := by
  refine exists_execute (P := fun s => s.nowMs = 7 ∧ ⟨2, 10, .timeout, 2,
    5⟩ ∈ s.waitQueue) (by decide +kernel) fun s hs hP => ?_
  obtain ⟨hok, hcalls, hready⟩ := wait_queue_correct twoRunning s twoRunning_init hs
  refine ⟨hok, hcalls, (hready (by rw [hP.1]; decide)).mpr ⟨_, hP.2, ?_⟩⟩
  rw [hP.1]
  rfl

/-- At the last value of the clock, which stands for "never", an empty queue looks ready. -/
theorem empty_wait_queue_looks_ready : ¬ ∀ s0 s :
    WaitState, WaitInit s0 → Reach waitStep anyStep s0 s →
      WaitQueueOk s ∧ WaitCallsOk s ∧ (s.isWaitQueueReady = true ↔ ∃ w ∈ s.waitQueue,
      w.expired s.nowMs = true) := by
  intro h
  obtain ⟨s, hs, hqueue, hlooks⟩ : ∃ s, Reach waitStep anyStep twoRunning s ∧ s.waitQueue = [] ∧
      s.isWaitQueueReady = true := exists_reach [.tick (2 ^ 64 - 1)] (by decide +kernel)
  obtain ⟨-, -, hready⟩ := h twoRunning s twoRunning_init hs
  obtain ⟨w, hw, -⟩ := hready.mp hlooks
  rw [hqueue] at hw
  cases hw

end Toddler
