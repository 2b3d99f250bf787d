import Toddler.Spec.Shootdown

/-! Acknowledgement counting and completion of a TLB shootdown. A CPU's sequence number never goes
down, so it acknowledges a request once; with increasing numbers it acknowledges exactly those above
its own. -/

namespace Toddler

open Function List ShootReq

variable {n : ℕ} {β : Type} {hasAsid : Bool} {cpu : Fin n}

section

variable (hasAsid cpu) (rs : List (ShootReq n β))

theorem ackReqs_seq_le : ∀ mySeq, mySeq ≤ (ackReqs hasAsid cpu mySeq rs).1 := by
  induction rs with
  | nil => exact fun mySeq => le_rfl
  | cons r rs ih =>
    intro mySeq
    rw [ackReqs]
    split_ifs with h
    · exact h.le.trans (ih r.seq)
    · exact ih mySeq

/-- A request is left as it is, or acknowledged by a CPU that was below it and is not any more. -/
theorem ackReqs_mem : ∀ {mySeq : ℕ} {r' : ShootReq n β}, r' ∈ (ackReqs hasAsid cpu mySeq rs).2 →
      r' ∈ rs ∨ ∃ r ∈ rs, r' = r.ack hasAsid cpu ∧ mySeq < r.seq ∧
      r.seq ≤ (ackReqs hasAsid cpu mySeq rs).1 := by
  induction rs with
  | nil => exact fun h => .inl h
  | cons r rs ih =>
    intro mySeq r' h
    rw [ackReqs] at h ⊢
    split_ifs at h ⊢ with hlt
    · rcases mem_cons.mp h with rfl | h
      · exact .inr ⟨r, mem_cons_self, rfl, hlt, ackReqs_seq_le hasAsid cpu rs r.seq⟩
      · rcases ih h with h | ⟨q, hq, rfl, hlow, hhigh⟩
        · exact .inl (mem_cons_of_mem r h)
        · exact .inr ⟨q, mem_cons_of_mem r hq, rfl, hlt.trans hlow, hhigh⟩
    · rcases mem_cons.mp h with rfl | h
      · exact .inl mem_cons_self
      · rcases ih h with h | ⟨q, hq, rfl, hlow, hhigh⟩
        · exact .inl (mem_cons_of_mem r h)
        · exact .inr ⟨q, mem_cons_of_mem r hq, rfl, hlow, hhigh⟩

theorem ackReqs_blocks : ∀ mySeq, (ackReqs hasAsid cpu mySeq rs).2.map block = rs.map block := by
  induction rs with
  | nil => exact fun _ => rfl
  | cons r rs ih =>
    intro mySeq
    rw [ackReqs]
    split_ifs
    · simp only [map_cons, ih]
      rfl
    · simp [ih]

/-- In an increasing queue the requests above the CPU's number are acknowledged, and no others. -/
theorem ackReqs_increasing : rs.Pairwise (fun a b => a.seq < b.seq) → ∀ mySeq,
      (ackReqs hasAsid cpu mySeq rs).2 = rs.map fun r => if mySeq < r.seq then r.ack hasAsid cpu
      else r := by
  induction rs with
  | nil => exact fun _ _ => rfl
  | cons r rs ih =>
    intro hp mySeq
    obtain ⟨hfirst, hrest⟩ := pairwise_cons.mp hp
    rw [ackReqs, map_cons]
    split_ifs with hlt
    · simp only [ih hrest, List.cons.injEq, true_and]
      apply map_congr_left
      intro q hq
      have := hfirst q hq
      rw [if_pos this, if_pos (hlt.trans this)]
    · simp only [ih hrest]

/-- After the traversal the CPU's number is the old one or that of a request, and no request is
above it. -/
theorem ackReqs_seq :
    ∀ mySeq, ((ackReqs hasAsid cpu mySeq rs).1 = mySeq ∨ ∃ r ∈ rs,
    (ackReqs hasAsid cpu mySeq rs).1 = r.seq) ∧
      ∀ r ∈ rs, r.seq ≤ (ackReqs hasAsid cpu mySeq rs).1 := by
  induction rs with
  | nil => exact fun mySeq => ⟨.inl rfl, fun _ hr => absurd hr not_mem_nil⟩
  | cons r rs ih =>
    intro mySeq
    rw [ackReqs]
    split_ifs with hlt
    · obtain ⟨hval, hall⟩ := ih r.seq
      refine ⟨.inr ?_, fun q hq => ?_⟩
      · rcases hval with h | ⟨q, hq, h⟩
        · exact ⟨r, mem_cons_self, h⟩
        · exact ⟨q, mem_cons_of_mem r hq, h⟩
      · rcases mem_cons.mp hq with rfl | hq
        · exact ackReqs_seq_le hasAsid cpu rs q.seq
        · exact hall q hq
    · obtain ⟨hval, hall⟩ := ih mySeq
      refine ⟨?_, fun q hq => ?_⟩
      · rcases hval with h | ⟨q, hq, h⟩
        · exact .inl h
        · exact .inr ⟨q, mem_cons_of_mem r hq, h⟩
      · rcases mem_cons.mp hq with rfl | hq
        · exact (Nat.le_of_not_lt hlt).trans (ackReqs_seq_le hasAsid cpu rs mySeq)
        · exact hall q hq

end

theorem popReqs_append (rs : List (ShootReq n β)) : (popReqs rs).1 ++ (popReqs rs).2 = rs := by
  induction rs with
  | nil => rfl
  | cons r rs ih =>
    rw [popReqs]
    split_ifs
    · rfl
    · exact congrArg (List.cons r) ih

theorem popReqs_acked (rs : List (ShootReq n β)) : ∀ r ∈ (popReqs rs).1, r.waitAcks = 0 := by
  induction rs with
  | nil => exact fun _ hr => absurd hr not_mem_nil
  | cons d rs ih =>
    rw [popReqs]
    split_ifs with h
    · exact fun _ hr => absurd hr not_mem_nil
    · intro r hr
      rcases mem_cons.mp hr with rfl | hr
      · exact not_not.mp h
      · exact ih r hr

variable {r : ShootReq n β} {rs : List (ShootReq n β)}

theorem popReqs_popped_mem (h : r ∈ (popReqs rs).1) : r ∈ rs := by
  rw [← popReqs_append rs]
  exact mem_append_left _ h

theorem popReqs_left_mem (h : r ∈ (popReqs rs).2) : r ∈ rs := by
  rw [← popReqs_append rs]
  exact mem_append_right _ h

/-- `wait_acks` counts the CPUs that have not acknowledged, and a CPU that has is not below the
request. -/
structure ReqOk (localSeq : Fin n → ℕ) (r : ShootReq n β) : Prop where
  count : r.waitAcks + r.ackedBy.length = n
  nodup : r.ackedBy.Nodup
  reached : ∀ c ∈ r.ackedBy, r.seq ≤ localSeq c

structure ShootInv (s : Shootdown n β) : Prop where
  history : s.moved.map block ++ s.reqs.map block = s.requested
  reqs : ∀ r ∈ s.reqs, ReqOk s.localSeq r
  moved : ∀ r ∈ s.moved, ∀ c, c ∈ r.ackedBy

theorem ReqOk.all_acked {localSeq : Fin n → ℕ} (h : ReqOk localSeq r) (h0 : r.waitAcks = 0)
    (c : Fin n) : c ∈ r.ackedBy := by
  have hlen : r.ackedBy.toFinset.card = Fintype.card (Fin n) := by
    have hcount := h.count
    rw [toFinset_card_of_nodup h.nodup, Fintype.card_fin]
    omega
  have huniv := (Finset.card_eq_iff_eq_univ _).mp hlen
  exact mem_toFinset.mp (huniv ▸ Finset.mem_univ c)

theorem ReqOk.mono {l l' : Fin n → ℕ} (h : ReqOk l r) (hle : ∀ c, l c ≤ l' c) : ReqOk l' r :=
  ⟨h.count, h.nodup, fun c hc => (h.reached c hc).trans (hle c)⟩

theorem ReqOk.acknowledge {l l' : Fin n → ℕ} (h : ReqOk l r) (hle : ∀ c, l c ≤ l' c)
    (hlt : l cpu < r.seq) (hreach : r.seq ≤ l' cpu) : ReqOk l' (r.ack hasAsid cpu) := by
  have hnew : cpu ∉ r.ackedBy := fun hc => absurd (h.reached cpu hc) (by omega)
  refine ⟨?_, nodup_cons.mpr ⟨hnew, h.nodup⟩, fun c hc => ?_⟩
  · have hcount := h.count
    simp only [ShootReq.ack, length_cons]
    omega
  · rcases mem_cons.mp hc with rfl | hc
    · exact hreach
    · exact (h.reached c hc).trans (hle c)

theorem le_update_seq (localSeq : Fin n → ℕ) (cpu : Fin n) {m : ℕ} (h : localSeq cpu ≤ m)
    (c : Fin n) : localSeq c ≤ update localSeq cpu m c := by
  rcases eq_or_ne c cpu with rfl | hne
  · rwa [update_self]
  · rw [update_of_ne hne]

variable {s s' : Shootdown n β}

theorem shootInv_init : ShootInv (initShootdown : Shootdown n β) :=
  ⟨rfl, fun _ hr => absurd hr not_mem_nil, fun _ hr => absurd hr not_mem_nil⟩

theorem ShootInv.movedInOrder (hi : ShootInv s) : MovedInOrder s := ⟨⟨_, hi.history⟩, hi.moved⟩

/-- What all numbers in use are below when `seq` is the next one. -/
def seqTop (seq : ℕ) : ℕ := if seq = 0 then word else seq

/-- The queue is increasing, and a CPU that is not below a request has acknowledged it. -/
structure SeqInv (s : Shootdown n β) : Prop where
  seq_lt : s.seq < word
  increasing : s.reqs.Pairwise fun a b => a.seq < b.seq
  below : ∀ r ∈ s.reqs, r.seq < seqTop s.seq
  localBelow : ∀ c, s.localSeq c < seqTop s.seq
  exact : ∀ r ∈ s.reqs, ∀ c, r.seq ≤ s.localSeq c → c ∈ r.ackedBy

theorem seqTop_succ {seq : ℕ} (h0 : seq ≠ 0) (hlt : seq < word) :
    seqTop seq = seq ∧ seqTop (add64 seq 1) = seq + 1 ∧ add64 seq 1 < word := by
  unfold seqTop
  rw [if_neg h0]
  rcases add64_cases hlt (show 1 < word by omega) with h | h
  · rw [if_neg (by omega)]
    omega
  · rw [if_pos (by omega)]
    omega

theorem seqInv_init : SeqInv (initShootdown : Shootdown n β) :=
  ⟨show 1 < word by decide, List.Pairwise.nil, fun _ hr => absurd hr not_mem_nil,
    fun _ => Nat.one_pos, fun _ hr => absurd hr not_mem_nil⟩

theorem ackCounted_of_inv (hi : ShootInv s) (hq : SeqInv s) : AckCounted s := by
  refine ⟨fun r hr => ?_, hq.increasing⟩
  have hset : (Finset.univ.filter fun c => s.localSeq c < r.seq) = Finset.univ \ r.ackedBy.toFinset := by
    ext c
    simp only [Finset.mem_filter, Finset.mem_univ, true_and, Finset.mem_sdiff, mem_toFinset]
    constructor
    · exact fun hlt hc => absurd ((hi.reqs r hr).reached c hc) (Nat.not_le_of_lt hlt)
    · exact fun hc => Nat.lt_of_not_le fun hle => hc (hq.exact r hr c hle)
  have hcount := (hi.reqs r hr).count
  have hle : r.ackedBy.length ≤ n := by
    have := List.Nodup.length_le_card (hi.reqs r hr).nodup
    rwa [Fintype.card_fin] at this
  rw [hset, Finset.card_sdiff_of_subset (Finset.subset_univ _),
    toFinset_card_of_nodup (hi.reqs r hr).nodup, Finset.card_univ, Fintype.card_fin]
  omega

/-- A CPU that has acknowledged a request has invalidated it, or stands before the flush that
does. -/
structure FlushInv (hasAsid : Bool) (s : Shootdown n β) : Prop where
  reqs : ∀ r ∈ s.reqs, ∀ c ∈ r.ackedBy, c ∈ r.invalidatedBy ∨
    (hasAsid = false ∧ s.point c = .flush ∧ s.startSeq c < r.seq)
  moved : MovedInvalidated s

theorem mem_ack_invalidatedBy {c : Fin n} (h : c ∈ r.invalidatedBy) :
    c ∈ (r.ack hasAsid cpu).invalidatedBy := by
  simp only [ShootReq.ack]
  split_ifs
  · exact mem_cons_of_mem cpu h
  · exact h

theorem flushInv_acks (hi : FlushInv hasAsid s) (hp : s.point cpu = .outside) (hr : r ∈ s.reqs)
    {c : Fin n} (hc : c ∈ r.ackedBy) {p : ServicePoint} {m : ℕ} : c ∈ r.invalidatedBy ∨
      (hasAsid = false ∧ update s.point cpu p c = .flush ∧ update s.startSeq cpu m c < r.seq) := by
  rcases hi.reqs r hr c hc with h | ⟨hasid, hflush, hlt⟩
  · exact .inl h
  · have hne : c ≠ cpu := by
      rintro rfl
      rw [hp] at hflush
      cases hflush
    rw [update_of_ne hne, update_of_ne hne]
    exact .inr ⟨hasid, hflush, hlt⟩

theorem flushInv_init : FlushInv hasAsid (initShootdown : Shootdown n β) :=
  ⟨fun _ hr => absurd hr not_mem_nil, fun _ hr => absurd hr not_mem_nil⟩

section Step

variable [DecidableEq β] {a : ShootdownAction n β}

/-- What a step can do, on two CPUs or more. -/
theorem shootdownStep_cases (hn : 2 ≤ n) (h : shootdownStep hasAsid s a = some s') :
    (∃ cpu b, a = .request cpu b ∧ s' = { s with
      reqs := s.reqs ++ [⟨b, n, s.seq, [], []⟩]
      seq := add64 s.seq 1
      requested := s.requested ++ [b] }) ∨
    (∃ cpu, a = .serviceAcks cpu ∧ s.point cpu = .outside ∧ s' = { s with
      reqs := (ackReqs hasAsid cpu (s.localSeq cpu) s.reqs).2
      localSeq := update s.localSeq cpu (ackReqs hasAsid cpu (s.localSeq cpu) s.reqs).1
      startSeq := update s.startSeq cpu (s.localSeq cpu)
      point := update s.point cpu (if hasAsid then .pop else .flush) }) ∨
    (∃ cpu, a = .serviceFlush cpu ∧ s.point cpu = .flush ∧ s' = { s with
      reqs := s.reqs.map (flush cpu)
      point := update s.point cpu .pop }) ∨
    (∃ cpu, a = .servicePop cpu ∧ s.point cpu = .pop ∧ s' = { s with
      reqs := (popReqs s.reqs).2
      moved := s.moved ++ (popReqs s.reqs).1
      point := update s.point cpu .outside }) := by
  cases a with
  | request cpu b =>
    simp only [shootdownStep, requestShootdown, if_neg (show ¬ n ≤ 1 by omega)] at h
    split_ifs at h
    exact .inl ⟨cpu, b, rfl, (Option.some.inj h).symm⟩
  | serviceAcks cpu =>
    rw [shootdownStep] at h
    by_cases hp : s.point cpu = .outside
    swap
    · rw [if_neg hp] at h
      cases h
    rw [if_pos hp] at h
    exact .inr (.inl ⟨cpu, rfl, hp, (Option.some.inj h).symm⟩)
  | serviceFlush cpu =>
    simp only [shootdownStep] at h
    split_ifs at h with hp
    exact .inr (.inr (.inl ⟨cpu, rfl, hp, (Option.some.inj h).symm⟩))
  | servicePop cpu =>
    simp only [shootdownStep] at h
    split_ifs at h with hp
    exact .inr (.inr (.inr ⟨cpu, rfl, hp, (Option.some.inj h).symm⟩))

theorem shootInv_step (hn : 2 ≤ n) (hi : ShootInv s) (h : shootdownStep hasAsid s a = some s') :
    ShootInv s' := by
  obtain ⟨cpu, b, -, rfl⟩ | ⟨cpu, -, -, rfl⟩ | ⟨cpu, -, -, rfl⟩ | ⟨cpu, -, -, rfl⟩ :=
    shootdownStep_cases hn h
  · refine ⟨?_, fun r hr => ?_, hi.moved⟩
    · rw [← hi.history, map_append, append_assoc]
      rfl
    · rcases mem_append.mp hr with hr | hr
      · exact hi.reqs r hr
      · rw [mem_singleton.mp hr]
        exact ⟨by simp, nodup_nil, fun c hc => absurd hc not_mem_nil⟩
  · have hle := le_update_seq s.localSeq cpu (ackReqs_seq_le hasAsid cpu s.reqs (s.localSeq cpu))
    refine ⟨?_, fun r' hr' => ?_, hi.moved⟩
    · rw [ackReqs_blocks]
      exact hi.history
    · rcases ackReqs_mem hasAsid cpu s.reqs hr' with hr | ⟨r, hr, rfl, hlow, hhigh⟩
      · exact (hi.reqs r' hr).mono hle
      · refine (hi.reqs r hr).acknowledge hle hlow ?_
        simp only [update_self]
        exact hhigh
  · refine ⟨?_, fun r' hr' => ?_, hi.moved⟩
    · rw [← hi.history, map_map]
      rfl
    · obtain ⟨r, hr, rfl⟩ := mem_map.mp hr'
      exact ⟨(hi.reqs r hr).count, (hi.reqs r hr).nodup, (hi.reqs r hr).reached⟩
  · refine ⟨?_, fun r hr => hi.reqs r (popReqs_left_mem hr), fun r hr => ?_⟩
    · rw [← hi.history, map_append, append_assoc, ← map_append, popReqs_append]
    · rcases mem_append.mp hr with hr | hr
      · exact hi.moved r hr
      · exact (hi.reqs r (popReqs_popped_mem hr)).all_acked (popReqs_acked s.reqs r hr)

theorem shootInv_reach (hn : 2 ≤ n) {ok : Shootdown n β → ShootdownAction n β → Prop}
    (h : Reach (shootdownStep hasAsid) ok initShootdown s) : ShootInv s :=
  h.invariant shootInv_init fun _ _ _ hi _ hs => shootInv_step hn hi hs

theorem seqInv_step (hn : 2 ≤ n) (hi : SeqInv s) (hok : SeqNotWrapped s a)
    (h : shootdownStep hasAsid s a = some s') : SeqInv s' := by
  obtain ⟨cpu, b, rfl, rfl⟩ | ⟨cpu, -, -, rfl⟩ | ⟨cpu, -, -, rfl⟩ | ⟨cpu, -, -, rfl⟩ :=
    shootdownStep_cases hn h
  · obtain ⟨htop, htop', hlt⟩ := seqTop_succ hok hi.seq_lt
    have hbelow := hi.below
    have hlocal := hi.localBelow
    rw [htop] at hbelow hlocal
    refine ⟨hlt, ?_, fun r hr => ?_, fun c => ?_, fun r hr c hc => ?_⟩
    · rw [pairwise_append]
      refine ⟨hi.increasing, pairwise_singleton _ _, fun r hr q hq => ?_⟩
      rw [mem_singleton.mp hq]
      exact hbelow r hr
    · rw [htop']
      rcases mem_append.mp hr with hr | hr
      · exact Nat.lt_succ_of_lt (hbelow r hr)
      · rw [mem_singleton.mp hr]
        exact Nat.lt_succ_self _
    · rw [htop']
      exact Nat.lt_succ_of_lt (hlocal c)
    · rcases mem_append.mp hr with hr | hr
      · exact hi.exact r hr c hc
      · rw [mem_singleton.mp hr] at hc
        exact absurd hc (Nat.not_le_of_lt (hlocal c))
  · have heq := ackReqs_increasing hasAsid cpu s.reqs hi.increasing (s.localSeq cpu)
    obtain ⟨hval, -⟩ := ackReqs_seq hasAsid cpu s.reqs (s.localSeq cpu)
    have hseq (r : ShootReq n β) : (if s.localSeq cpu < r.seq then r.ack hasAsid cpu else r).seq =
        r.seq := by
      split_ifs <;> rfl
    refine ⟨hi.seq_lt, ?_, fun r' hr' => ?_, fun c => ?_, fun r' hr' c hc => ?_⟩
    · simp only [heq, pairwise_map, hseq]
      exact hi.increasing
    · simp only [heq] at hr'
      obtain ⟨r, hr, rfl⟩ := mem_map.mp hr'
      rw [hseq]
      exact hi.below r hr
    · rcases eq_or_ne c cpu with rfl | hne
      · simp only [update_self]
        rcases hval with h | ⟨r, hr, h⟩
        · rw [h]
          exact hi.localBelow c
        · rw [h]
          exact hi.below r hr
      · simp only [update_of_ne hne]
        exact hi.localBelow c
    · simp only [heq] at hr'
      obtain ⟨r, hr, rfl⟩ := mem_map.mp hr'
      rw [hseq] at hc
      rcases eq_or_ne c cpu with rfl | hne
      · split_ifs with hlt
        · exact mem_cons_self
        · exact hi.exact r hr c (Nat.le_of_not_lt hlt)
      · simp only [update_of_ne hne] at hc
        have := hi.exact r hr c hc
        split_ifs
        · exact mem_cons_of_mem cpu this
        · exact this
  · refine ⟨hi.seq_lt, ?_, fun r' hr' => ?_, hi.localBelow, fun r' hr' => ?_⟩
    · rw [pairwise_map]
      exact hi.increasing
    · obtain ⟨r, hr, rfl⟩ := mem_map.mp hr'
      exact hi.below r hr
    · obtain ⟨r, hr, rfl⟩ := mem_map.mp hr'
      exact hi.exact r hr
  · have hinc := hi.increasing
    rw [← popReqs_append s.reqs] at hinc
    exact ⟨hi.seq_lt, (pairwise_append.mp hinc).2.1, fun r hr => hi.below r (popReqs_left_mem hr),
      hi.localBelow, fun r hr => hi.exact r (popReqs_left_mem hr)⟩

/-- In every run the moved blocks are the first requested, each acknowledged by all CPUs; and as
long as the counter has not wrapped the acknowledgements are counted exactly. -/
theorem shootdown_ack_counting (hasAsid : Bool) (hn : 2 ≤ n) (s : Shootdown n β) :
    (Reach (shootdownStep hasAsid) anyStep initShootdown s → MovedInOrder s) ∧
    (Reach (shootdownStep hasAsid) SeqNotWrapped initShootdown s → AckCounted s) := by
  refine ⟨fun h => (shootInv_reach hn h).movedInOrder, fun h => ?_⟩
  exact ackCounted_of_inv (shootInv_reach hn h)
    (h.invariant seqInv_init fun _ _ _ hi hok hs => seqInv_step hn hi hok hs)

/-- Two requests, the first acknowledged and moved, the second acknowledged by one CPU. -/
theorem shootdown_ack_counting_two_requests : ∃ s : Shootdown 2 ℕ,
    s.moved.map block = [7] ∧ s.reqs.map waitAcks = [1] ∧ MovedInOrder s ∧ AckCounted s := by
  obtain ⟨s, hs, hmoved, hwait⟩ : ∃ s : Shootdown 2 ℕ,
    Reach (shootdownStep true) SeqNotWrapped initShootdown s ∧
      s.moved.map block = [7] ∧ s.reqs.map waitAcks = [1] :=
    exists_reach [.request 0 7, .serviceAcks 0, .request 1 8, .serviceAcks 1,
      .servicePop 1] (by decide +kernel)
  have hresult := shootdown_ack_counting true le_rfl s
  exact ⟨s, hmoved, hwait, hresult.1 (hs.mono fun _ _ _ => trivial), hresult.2 hs⟩

structure IdleAt (k : ℕ) (s : Shootdown 2 Unit) : Prop where
  reqs : s.reqs = []
  seq : s.seq = add64 k 1
  localSeq : ∀ c, s.localSeq c = k
  point : ∀ c, s.point c = .outside

/-- One block is requested, acknowledged by both CPUs and moved. -/
theorem idle_cycle {k : ℕ} (hk : k + 1 < word) {s : Shootdown 2 Unit} (hi : IdleAt k s) :
    ∃ t, Reach (shootdownStep true) anyStep s t ∧ IdleAt (k + 1) t := by
  have hseq : s.seq = k + 1 := hi.seq.trans (add64_of_lt hk)
  have hrun : execute (shootdownStep true) anyStep s
      [.request 0 (), .serviceAcks 0, .servicePop 0, .serviceAcks 1, .servicePop 1] = some { s with
        reqs := []
        seq := add64 (k + 1) 1
        localSeq := update (update s.localSeq 0 (k + 1)) 1 (k + 1)
        startSeq := update (update s.startSeq 0 k) 1 k
        point := update (update s.point 0 .outside) 1 .outside
        requested := s.requested ++ [()]
        moved := s.moved ++ [⟨(), 0, k + 1, [1, 0], [1, 0]⟩] } := by
    simp [execute, anyStep, shootdownStep, requestShootdown, ackReqs, popReqs, ShootReq.ack,
      hi.reqs, hi.localSeq, hi.point, hseq]
  refine ⟨_, reach_of_execute hrun, rfl, rfl, fun c => ?_, fun c => ?_⟩
  · fin_cases c <;> rfl
  · fin_cases c <;> rfl

theorem idle_reach (k : ℕ) (hk : k < word) :
    ∃ s, Reach (shootdownStep true) anyStep (initShootdown : Shootdown 2 Unit) s ∧ IdleAt k s := by
  induction k with
  | zero => exact ⟨initShootdown, Reach.refl _, rfl, rfl, fun _ => rfl, fun _ => rfl⟩
  | succ k ih =>
    obtain ⟨s, hreach, hi⟩ := ih (by omega)
    obtain ⟨t, hcycle, ht⟩ := idle_cycle hk hi
    exact ⟨t, hreach.trans hcycle, ht⟩

/-- After `2 ^ 64 - 1` requests the next one takes the number 0, which no CPU is below. -/
theorem shootdown_seq_wraps : ¬ ∀ (n : ℕ) (hasAsid : Bool) (s : Shootdown n Unit), 2 ≤ n →
    Reach (shootdownStep hasAsid) anyStep initShootdown s → AckCounted s ∧ MovedInOrder s := by
  intro h
  obtain ⟨s, hreach, hi⟩ := idle_reach (word - 1) (by decide)
  have hseq : s.seq = 0 := hi.seq.trans (by decide)
  have hstep : shootdownStep true s (.request 0 ()) = some { s with
      reqs := [⟨(), 2, 0, [], []⟩]
      seq := add64 0 1
      requested := s.requested ++ [()] } := by
    simp [shootdownStep, requestShootdown, hi.reqs, hseq]
  have hcount := (h 2 true _ le_rfl (hreach.tail ⟨_, trivial, hstep⟩)).1.count _ mem_cons_self
  simp at hcount

theorem flushInv_step (hn : 2 ≤ n) (hs : ShootInv s) (hi : FlushInv hasAsid s)
    (hok : FlushedBeforePop hasAsid s a) (h : shootdownStep hasAsid s a = some s') :
    FlushInv hasAsid s' := by
  obtain ⟨cpu, b, -, rfl⟩ | ⟨cpu, -, hp, rfl⟩ | ⟨cpu, -, hp, rfl⟩ | ⟨cpu, rfl, hp, rfl⟩ :=
    shootdownStep_cases hn h
  · refine ⟨fun r hr c hc => ?_, hi.moved⟩
    rcases mem_append.mp hr with hr | hr
    · exact hi.reqs r hr c hc
    · rw [mem_singleton.mp hr] at hc
      exact absurd hc not_mem_nil
  · refine ⟨fun r' hr' c hc => ?_, hi.moved⟩
    rcases ackReqs_mem hasAsid cpu s.reqs hr' with hr | ⟨r, hr, rfl, hlow, -⟩
    · exact flushInv_acks hi hp hr hc
    · rcases mem_cons.mp hc with rfl | hc
      · -- the acknowledging CPU has invalidated the range, or its flush comes next
        cases hasAsid with
        | true => exact .inl mem_cons_self
        | false =>
          right
          simp only [update_self]
          exact ⟨trivial, rfl, hlow⟩
      · exact (flushInv_acks hi hp hr hc).imp mem_ack_invalidatedBy id
  · refine ⟨fun r' hr' c hc => ?_, hi.moved⟩
    obtain ⟨r, hr, rfl⟩ := mem_map.mp hr'
    rcases eq_or_ne c cpu with rfl | hne
    · exact .inl mem_cons_self
    · simp only [update_of_ne hne]
      exact (hi.reqs r hr c hc).imp (mem_cons_of_mem cpu) id
  · refine ⟨fun r hr c hc => ?_, fun r hr c => ?_⟩
    · rcases hi.reqs r (popReqs_left_mem hr) c hc with h | ⟨hasid, hflush, hlt⟩
      · exact .inl h
      · have hne : c ≠ cpu := by
          rintro rfl
          rw [hp] at hflush
          cases hflush
        simp only [update_of_ne hne]
        exact .inr ⟨hasid, hflush, hlt⟩
    · rcases mem_append.mp hr with hr | hr
      · exact hi.moved r hr c
      have hmem := popReqs_popped_mem hr
      have hzero := popReqs_acked s.reqs r hr
      rcases hi.reqs r hmem c ((hs.reqs r hmem).all_acked hzero c) with h | ⟨hasid, hflush, hlt⟩
      · exact h
      · rcases hok with hok | hok
        · rw [hasid] at hok
          cases hok
        · exact absurd (hok r hmem hzero c hflush) (Nat.not_le_of_lt hlt)

/-- Along a run in which no request is removed before a pending flush, every moved block has been
invalidated by every CPU. -/
theorem shootdown_complete_after_invalidation (hasAsid : Bool) (hn : 2 ≤ n) (s : Shootdown n β)
    (h : Reach (shootdownStep hasAsid) (FlushedBeforePop hasAsid) initShootdown s) :
    MovedInvalidated s := by
  have hboth : ShootInv s ∧ FlushInv hasAsid s := by
    refine h.invariant (I := fun t => ShootInv t ∧ FlushInv hasAsid t) ⟨shootInv_init, flushInv_init⟩ ?_
    rintro u a v ⟨hs, hi⟩ hok hstep
    exact ⟨shootInv_step hn hs hstep, flushInv_step hn hs hi hok hstep⟩
  exact hboth.2.moved

/-- Both CPUs acknowledge and flush before the block is removed. -/
theorem shootdown_complete_two_flushes : ∃ s :
    Shootdown 2 ℕ, s.moved.map block = [7] ∧ MovedInvalidated s := by
  obtain ⟨s, hs, hmoved⟩ : ∃ s : Shootdown 2 ℕ,
    Reach (shootdownStep false) (FlushedBeforePop false) initShootdown s ∧
      s.moved.map block = [7] :=
    exists_reach [.request 0 7, .serviceAcks 0, .serviceAcks 1, .serviceFlush 1, .serviceFlush 0,
      .servicePop 1] (by decide +kernel)
  exact ⟨s, hmoved, shootdown_complete_after_invalidation false le_rfl s hs⟩

/-- CPU 0 has acknowledged the block but not flushed when CPU 1 removes it. -/
theorem shootdown_moved_before_flush : ¬ ∀ (n : ℕ) (hasAsid : Bool) (s : Shootdown n ℕ), 2 ≤ n →
    Reach (shootdownStep hasAsid) anyStep initShootdown s → MovedInvalidated s := by
  intro h
  obtain ⟨s, hs, hmoved⟩ : ∃ s : Shootdown 2 ℕ,
    Reach (shootdownStep false) anyStep initShootdown s ∧
      s.moved.map invalidatedBy = [[1]] :=
    exists_reach [.request 0 7, .serviceAcks 0, .serviceAcks 1, .serviceFlush 1,
      .servicePop 1] (by decide +kernel)
  have hinv := h 2 false s le_rfl hs
  obtain ⟨r, hr, hby⟩ := mem_map.mp (hmoved ▸ mem_cons_self : [1] ∈ s.moved.map invalidatedBy)
  have h0 := hinv r hr 0
  rw [hby] at h0
  exact absurd h0 (by decide)

end Step

end Toddler
