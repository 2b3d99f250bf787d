import Toddler.Proofs.Ipc
import Toddler.Proofs.Message
import Toddler.Spec.IpcMem

/-! A call of IPC stays in the message areas of its two threads exactly if the message it copies has
no more data words than a message has room for. -/

namespace Toddler

open Option

variable {s s' : IpcState}

variable {a : IpcAction}

variable {x : ℕ}

theorem queued_ne (hq : QueueInv s) (h : ipcStep s a = some s') (hx : x ∈ s.queue) : x ≠ a.tid := by
  obtain ⟨t, ht, hn, -⟩ := ipcStep_effect h
  exact (hq.ne_running ht hn hx).symm

variable {dst src : ℕ}

/-- Only the records of the two threads of a copy change. -/
structure Exchanged (s s' : IpcState) (dst src : ℕ) (d u : Thread) : Prop where
  atDst : s'.threads dst = some d
  atSrc : s'.threads src = some u
  others : ∀ y, y ≠ dst → y ≠ src → s'.threads y = s.threads y

variable {d u : Thread}

theorem exchanged_of_update (hne : dst ≠ src)
    (h : s'.threads = Function.update (Function.update s.threads dst (some d)) src (some u)) :
    Exchanged s s' dst src d u :=
  ⟨by simp [h, hne], by simp [h], fun y hd hs => by simp [h, hd, hs]⟩

theorem Exchanged.symm (h : Exchanged s s' dst src d u) : Exchanged s s' src dst u d :=
  ⟨h.atSrc, h.atDst, fun y hs hd => h.others y hd hs⟩

/-- A copy is one between two threads. -/
def Exchange (s s' : IpcState) (dst src : ℕ) : Prop :=
  dst ≠ src ∧ ∃ d u, Exchanged s s' dst src d u

theorem ipcStep_exchange (hq : QueueInv s) (h : ipcStep s a = some s') :
    match ipcCopy s a with
    | none => ∀ x ≠ a.tid, s'.threads x = s.threads x
    | some (dst, src) => Exchange s s' dst src := by
  have hqueued := fun x hx => queued_ne (x := x) hq h hx
  cases a with
  | request tid dstPid opcode flags newTid =>
    obtain ⟨t, pid, ht, -, hpid, -, hb⟩ := ipcRequest_branches h
    simp only [ipcCopy, ← hpid]
    rcases hb with ⟨hp, rfl⟩ | ⟨entry, hp, ⟨hpop, hb⟩ | ⟨hpop, hser, y, r, hf, hb⟩ |
      ⟨hpop, hser, hf, rfl⟩ | ⟨hpop, hser, rfl⟩⟩
    · simp only [hp]
      exact fun x hx => Function.update_of_ne hx _ _
    · simp only [hp, bind_some, if_pos hpop]
      obtain ⟨hnone, -, hb⟩ := ipcPopup_branches hb
      have hne : newTid ≠ tid := by
        rintro rfl
        rw [hnone] at ht
        cases ht
      rcases hb with ⟨-, rfl⟩ | ⟨-, rfl⟩
      · exact ⟨hne, _, _, exchanged_of_update hne rfl⟩
      · exact ⟨hne, _, _, exchanged_of_update hne rfl⟩
    · simp only [hp, bind_some, if_neg hpop, if_pos hser, hf]
      have hne := hqueued y (IpcState.findReceiver_some hf).1.queued
      obtain ⟨-, ⟨-, rfl⟩ | ⟨-, rfl⟩⟩ := ipcSendTo_branches hb
      · exact ⟨hne, _, _, exchanged_of_update hne rfl⟩
      · exact ⟨hne, _, _, exchanged_of_update hne rfl⟩
    · simp only [hp, bind_some, if_neg hpop, if_pos hser, hf]
      exact fun x hx => Function.update_of_ne hx _ _
    · simp only [hp, bind_some, if_neg hpop, if_neg hser]
      exact fun x hx => Function.update_of_ne hx _ _
  | respond tid =>
    obtain ⟨t, ht, -, ⟨hf, rfl⟩ | ⟨y, c, hf, -, rfl⟩⟩ := ipcRespond_branches h
    · simp only [ipcCopy, ht, bind_some, hf]
      exact fun x hx => Function.update_of_ne hx _ _
    · simp only [ipcCopy, ht, bind_some, hf]
      have hne := hqueued y (IpcState.findAwaiting_some hf).1.queued
      exact ⟨hne, _, _, exchanged_of_update hne rfl⟩
  | receive tid =>
    obtain ⟨t, ht, -, ⟨hf, rfl⟩ | ⟨y, c, hf, hb⟩⟩ := ipcReceive_branches h
    · simp only [ipcCopy, ht, bind_some, hf]
      exact fun x hx => Function.update_of_ne hx _ _
    · simp only [ipcCopy, ht, bind_some, hf]
      have hne := hqueued y (IpcState.findSender_some hf).1.queued
      refine ⟨hne.symm, ?_⟩
      rcases hb with ⟨-, rfl⟩ | ⟨-, -, rfl⟩
      · exact ⟨_, _, (exchanged_of_update hne rfl).symm⟩
      · exact ⟨_, _, (exchanged_of_update hne rfl).symm⟩

theorem ipcCopy_exchange (hq : QueueInv s) (h : ipcStep s a = some s')
    (hc : ipcCopy s a = some (dst, src)) : Exchange s s' dst src := by
  have hstep := ipcStep_exchange hq h
  rwa [hc] at hstep

theorem QueueInv.step (hi : QueueInv s) (h : ipcStep s a = some s') : QueueInv s' := by
  obtain ⟨t, ht, hn, he⟩ := ipcStep_effect h
  exact hi.effect ht hn he

open Message in
/-- The ranges of a copy lie in the two areas exactly if the data words do. -/
theorem copy_confined_iff (A : Arch) (hapart : NoOverlap dst maxMsgSize src maxMsgSize)
    (pid tid : ℕ) (m : ByteMem) :
    ((∀ r ∈ (Message.copyMsg A dst src pid tid (Traced.start m)).reads, InArea src r) ∧
        (∀ w ∈ (Message.copyMsg A dst src pid tid (Traced.start m)).writes, InArea dst w) ∧
        ∀ x, (Message.copyMsg A dst src pid tid (Traced.start m)).mem x ≠ m x → InArea dst (x, 1)) ↔
      getBits A m src A.numDataWords ≤ A.maxMsgDataWords := by
  obtain ⟨hcopied, htrace⟩ := copyMsg_spec (A := A) hapart pid tid m
  generalize Message.copyMsg A dst src pid tid (Traced.start m) = s at *
  generalize hn : getBits A m src A.numDataWords = n at *
  constructor
  · rintro ⟨hreads, -⟩
    by_contra hbig
    have hlt : A.maxMsgDataWords < n := Nat.not_le.mp hbig
    have hin := (hreads _ (htrace.data (by omega)).1).2
    have hmul : (A.maxMsgDataWords + 1) * A.bytes ≤ n * A.bytes := Nat.mul_le_mul_right _ hlt
    have hmax := maxMsgDataWords_eq A
    have hpos : 0 < A.bytes := by rcases A.bytes_cases with h | h <;> omega
    simp only [dataAddr, Nat.add_mul] at *
    omega
  · intro hfits
    have hsrc := data_within (A := A) (b := src) hfits
    have hdst := data_within (A := A) (b := dst) hfits
    refine ⟨fun r hr => ?_, fun w hw => ?_, fun x hx => ?_⟩
    · rcases htrace.reads r hr with ⟨hlen, hr⟩ | ⟨-, rfl⟩
      · exact ⟨hr.1, hlen ▸ hr.2⟩
      · exact ⟨Nat.le_add_right _ _, hsrc⟩
    · rcases htrace.writes w hw with ⟨hlen, hw⟩ | ⟨-, rfl⟩
      · exact ⟨hw.1, hlen ▸ hw.2⟩
      · exact ⟨Nat.le_add_right _ _, hdst⟩
    · by_contra hout
      have hframe := hcopied.frame x
      rw [hn, Nat.add_mul] at hframe
      refine hx (hframe ?_)
      unfold InArea at hout
      unfold dataAddr at hdst
      omega

theorem confined_iff_of_copy {A : Arch} {s : IpcMem} (hareas : AreasApart s.area)
    (hne : dst ≠ src) (hc : ipcCopy s.ipc a = some (dst, src)) :
    Confined A s a ↔ Message.getBits A s.mem (s.area src) A.numDataWords ≤ A.maxMsgDataWords := by
  have hcopy : s.copy A a = Message.copyMsg A (s.area dst) (s.area src) (s.ipc.pidOf src) src
      (Message.Traced.start s.mem) := by
    simp only [IpcMem.copy, hc]
  have hpair (P : ℕ → ℕ → Prop) : (∃ d c, ipcCopy s.ipc a = some (d, c) ∧ P d c) ↔ P dst src := by
    simp [hc]
  rw [← copy_confined_iff A (hareas dst src hne) (s.ipc.pidOf src) src s.mem, ← hcopy]
  constructor
  · intro h
    exact ⟨fun r hr => (hpair fun _ c => InArea (s.area c) r).mp (h.reads r hr),
      fun w hw => (hpair fun d _ => InArea (s.area d) w).mp (h.writes w hw),
      fun x hx => (hpair fun d _ => InArea (s.area d) (x, 1)).mp (h.changes x hx)⟩
  · rintro ⟨hreads, hwrites, hchanges⟩
    exact ⟨fun r hr => (hpair fun _ c => InArea (s.area c) r).mpr (hreads r hr),
      fun w hw => (hpair fun d _ => InArea (s.area d) w).mpr (hwrites w hw),
      fun x hx => (hpair fun d _ => InArea (s.area d) (x, 1)).mpr (hchanges x hx)⟩

section Transfer

open Message

variable {A : Arch} {m m' : ByteMem} {b pid tid : ℕ}

theorem getBits_congr (h : ∀ x, b ≤ x → x < b + maxMsgSize → m' x = m x) (f : BitField) :
    getBits A m' b f = getBits A m b f := by
  have := header_within A b
  rw [getBits, Arch.loadWord_congr fun i hi => h (b + i) (by omega) (by omega), getBits]

theorem content_congr (h : ∀ x, b ≤ x → x < b + maxMsgSize → m' x = m x)
    (hfits : getBits A m b A.numDataWords ≤ A.maxMsgDataWords) :
    content A m' b = content A m b := by
  have hdata := data_within (b := b) hfits
  have hhead := header_within A b
  unfold content
  rw [getBits_congr h, getBits_congr h]
  congr 1
  · exact Arch.loadWord_congr fun i hi => h _ (by omega) (by omega)
  · refine List.map_congr_left fun i hi => Arch.loadWord_congr fun k hk => ?_
    have hlt : i < maxMsgParams :=
      (List.mem_range.mp hi).trans_le (Nat.lt_succ_iff.mp (A.numParams.get_lt _))
    have := param_within (A := A) (b := b) hlt
    exact h _ (by omega) (by omega)
  · refine ByteMem.load_eq_iff.mpr fun i hi => h _ ?_ (by omega)
    unfold dataAddr
    omega

theorem Message.Copied.content (h : Copied A dst src pid tid m m')
    (hapart : NoOverlap dst maxMsgSize src maxMsgSize)
    (hfits : getBits A m src A.numDataWords ≤ A.maxMsgDataWords) :
    content A m' dst = content A m src := by
  have hbits (f : BitField) : getBits A m' dst f = getBits A m src f := by
    rw [getBits, h.header, getBits]
  have hdst := data_within (A := A) (b := dst) hfits
  have hsrc := data_within (A := A) (b := src) hfits
  unfold Toddler.content
  rw [h.header, hbits, hbits]
  congr 1
  · exact List.map_congr_left fun i hi => h.params i (List.mem_range.mp hi)
  · refine h.data (hapart.mono le_rfl ?_ (Nat.le_add_right _ _) hsrc)
    rw [Nat.add_mul]
    unfold dataAddr at hdst
    omega

/-- What a call does to the messages and the records of threads, if the message that it copies
fits. -/
theorem ipc_message_transferred {s0 : IpcState} {s s' : IpcMem} (h0 : IpcInit s0)
    (hreach : Reach ipcStep anyStep s0 s.ipc) (hareas : AreasApart s.area)
    (hids : ∀ p ∈ ipcCopy s.ipc a, p.2 < A.ulong ∧ s.ipc.pidOf p.2 < A.ulong)
    (hfit : CopiesFit A s a) (hstep : s.step A a = some s') :
    match ipcCopy s.ipc a with
    | none => s'.mem = s.mem ∧ ∀ x ≠ a.tid, s'.ipc.threads x = s.ipc.threads x
    | some (dst, src) => Transferred A s s' dst src := by
  have hqueue := hreach.invariant (QueueInv.init h0) fun _ _ _ hi _ hs => hi.step hs
  obtain ⟨ipc, hipc, rfl⟩ := map_eq_some_iff.mp hstep
  have hexchange := ipcStep_exchange hqueue hipc
  cases hc : ipcCopy s.ipc a with
  | none =>
    rw [hc] at hexchange
    exact ⟨by simp [IpcMem.copy, hc, Traced.start], hexchange⟩
  | some p =>
    obtain ⟨dst, src⟩ := p
    rw [hc] at hexchange
    obtain ⟨hne, d, u, hafter⟩ := hexchange
    obtain ⟨htid, hpid⟩ := hids (dst, src) hc
    have hfits := hfit (dst, src) hc
    have hcopied := (copyMsg_spec (A := A) (hareas dst src hne) (s.ipc.pidOf src) src s.mem).1
    have hchanges := ((confined_iff_of_copy hareas hne hc).mpr hfits).changes
    simp only [IpcMem.copy, hc] at hchanges ⊢
    refine ⟨hcopied.content (hareas dst src hne) hfits, ?_, ?_, fun x hx i hi => ?_, hafter.others⟩
    · rw [hcopied.sender.1, Nat.mod_eq_of_lt hpid]
    · rw [hcopied.sender.2, Nat.mod_eq_of_lt htid]
    · -- what changes is in the area of the destination, and that is apart
      by_contra hchange
      obtain ⟨_, _, heq, hin⟩ := hchanges _ hchange
      cases heq
      have hapart := hareas x dst hx
      unfold NoOverlap InArea at *
      omega

end Transfer

/-- A call of `ipc_request`, `ipc_receive` or `ipc_respond` stays in the message areas of its two
threads exactly if the message it copies has at most `MAX_MSG_DATA_WORDS` data words. -/
theorem ipc_copy_confined_iff (A : Arch) (s0 : IpcState) (s : IpcMem) (s' : IpcState)
    (a : IpcAction) (h0 : IpcInit s0) (hreach : Reach ipcStep anyStep s0 s.ipc)
    (hareas : AreasApart s.area)
    (hstep : ipcStep s.ipc a = some s') : Confined A s a ↔ CopiesFit A s a := by
  unfold CopiesFit
  cases hc : ipcCopy s.ipc a with
  | none =>
    refine ⟨nofun, fun _ => ⟨?_, ?_, ?_⟩⟩
    all_goals simp [IpcMem.copy, hc, Message.Traced.start]
  | some p =>
    have hqueue := hreach.invariant (QueueInv.init h0) fun _ _ _ hi _ hs => hi.step hs
    rw [confined_iff_of_copy hareas (ipcCopy_exchange hqueue hstep hc).1 hc]
    simp

def pageAreas (tid : ℕ) : ℕ := 0x1000 * tid

theorem pageAreas_apart : AreasApart pageAreas := by
  intro x y hne
  unfold NoOverlap pageAreas maxMsgSize
  omega

/-- Thread 2 receives, and a request of thread 1 is then copied to it. -/
theorem received_then_requested : ∃ s, execute ipcStep anyStep threeThreads [.receive 2] = some s ∧
    ∃ s', ipcStep s (.request 1 20 7 1 0) = some s' ∧
      ipcCopy s (.request 1 20 7 1 0) = some (2, 1) ∧ s.pidOf 1 = 10 ∧
      Reach ipcStep anyStep threeThreads s := by
  refine exists_execute (P := fun s => (ipcStep s (.request 1 20 7 1 0)).isSome ∧
    ipcCopy s (.request 1 20 7 1 0) = some (2, 1) ∧ s.pidOf 1 = 10) (by decide +kernel)
    fun s hs hP => ?_
  obtain ⟨s', hs'⟩ := isSome_iff_exists.mp hP.1
  exact ⟨s', hs', hP.2.1, hP.2.2, hs⟩

/-- Memory in which the message of thread 1 has two params and three data words. -/
def posted : ByteMem := fun x =>
  if x = 0x1002 then 0x32 else if x = 0x1003 then 0 else UInt8.ofNat x

theorem posted_counts : Message.getBits ⟨true, false⟩ posted (pageAreas 1)
      (Arch.numParams ⟨true, false⟩) = 2 ∧
    Message.getBits ⟨true, false⟩ posted (pageAreas 1) (Arch.numDataWords ⟨true, false⟩) = 3 := by
  decide +kernel

theorem posted_fits {s : IpcState} (hcopy : ipcCopy s (.request 1 20 7 1 0) = some (2, 1)) :
    CopiesFit ⟨true, false⟩ ⟨s, posted, pageAreas⟩ (.request 1 20 7 1 0) := by
  intro p hp
  rw [hcopy] at hp
  cases hp
  exact posted_counts.2.trans_le (by decide)

theorem ipc_copy_confined_iff_of_posted : ∃ s s',
    execute ipcStep anyStep threeThreads [.receive 2] = some s ∧
    ipcStep s (.request 1 20 7 1 0) = some s' ∧ ipcCopy s (.request 1 20 7 1 0) = some (2, 1) ∧
    Confined ⟨true, false⟩ ⟨s, posted, pageAreas⟩ (.request 1 20 7 1 0) := by
  obtain ⟨s, hs, s', hs', hcopy, -, hreach⟩ := received_then_requested
  refine ⟨s, s', hs, hs', hcopy, ?_⟩
  exact (ipc_copy_confined_iff ⟨true, false⟩ threeThreads ⟨s, posted, pageAreas⟩ s' _
    threeThreads_init hreach pageAreas_apart hs').mpr (posted_fits hcopy)

/-- The message of thread 1, with two params and three data words, is copied to thread 2. -/
theorem ipc_message_transferred_of_posted : ∃ s s' : IpcMem, s.mem = posted ∧
    s.area = pageAreas ∧ s.step ⟨true, false⟩ (.request 1 20 7 1 0) = some s' ∧
    Transferred ⟨true, false⟩ s s' 2 1 := by
  obtain ⟨s, -, s', hs', hcopy, hpid, hreach⟩ := received_then_requested
  have hstep : IpcMem.step ⟨true, false⟩ ⟨s, posted, pageAreas⟩ (.request 1 20 7 1 0) =
      some ⟨s', _, pageAreas⟩ := congrArg (Option.map _) hs'
  have htransferred := ipc_message_transferred threeThreads_init hreach pageAreas_apart ?_
    (posted_fits hcopy) hstep
  · rw [hcopy] at htransferred
    exact ⟨_, _, rfl, rfl, hstep, htransferred⟩
  · intro p hp
    rw [hcopy] at hp
    cases hp
    exact ⟨by decide, hpid.trans_lt (by decide)⟩

/-- Memory in which the message of thread 1 has 4095 data words. -/
def oversized : ByteMem := fun x => if x = 0x1002 then 0xf0 else if x = 0x1003 then 0xff else 0

/-- A request with 4095 data words is copied past the end of both areas. -/
theorem oversized_message_leaves_areas :
    ¬ ∀ (A : Arch) (s0 : IpcState) (s : IpcMem) (s' : IpcState) (a : IpcAction), IpcInit s0 →
      Reach ipcStep anyStep s0 s.ipc → AreasApart s.area → ipcStep s.ipc a = some s' →
      Confined A s a := by
  intro h
  obtain ⟨s, -, s', hs', hcopy, -, hreach⟩ := received_then_requested
  have hconf := h ⟨true, false⟩ threeThreads ⟨s, oversized,
    pageAreas⟩ s' _ threeThreads_init hreach pageAreas_apart hs'
  have hiff := confined_iff_of_copy (A := ⟨true, false⟩) (s := ⟨s, oversized,
    pageAreas⟩) pageAreas_apart (show 2 ≠ 1 by decide) hcopy
  have hfit := hiff.mp hconf
  dsimp only at hfit
  revert hfit
  decide +kernel

end Toddler
