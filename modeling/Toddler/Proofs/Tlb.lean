import Toddler.Spec.Tlb
import Toddler.Proofs.Vm
import Mathlib.Tactic

/-! Pages are given back only when no TLB can reach them, as long as no CPU reloads a translation it
has been told to drop. The invariant follows a block from the request queue to the cleaner: a CPU
that has acknowledged a block holds no translation of its pages. -/

namespace Toddler

open Function List Option

variable {n : ℕ} {hasAsid : Bool}

def Clear (tlb : List Translation) (b : VmBlock) : Prop := ∀ e ∈ tlb, b.hasPage e.page = false

variable {tlb : List Translation} {b : VmBlock}

theorem Clear.subset {tlb' : List Translation} (h : Clear tlb b) (hs : tlb' ⊆ tlb) : Clear tlb' b :=
  fun e he => h e (hs he)

theorem clear_invalidateTlb (tlb : List Translation) (b : VmBlock) :
    Clear (invalidateTlb tlb b) b := by
  intro e he
  have := (mem_filter.mp he).2
  simpa using this

theorem invalidateTlb_subset (tlb : List Translation) (b : VmBlock) : invalidateTlb tlb b ⊆ tlb :=
  filter_sublist.subset

theorem Clear.cons {e : Translation} (h : Clear tlb b) (he : b.hasPage e.page = false) :
    Clear (e :: tlb) b := by
  intro d hd
  rcases mem_cons.mp hd with rfl | hd
  · exact he
  · exact h d hd

theorem clear_nil (b : VmBlock) : Clear [] b := fun _ he => absurd he not_mem_nil

variable {pt : List Translation}

theorem translate_unmapPage_of_ne {v w : ℕ} (h : w ≠ v) :
    translate (unmapPage pt v) w = translate pt w := by
  unfold translate unmapPage
  rw [find?_filter]
  congr 2
  apply congrArg (fun p => List.find? p pt)
  funext e
  by_cases he : e.page = w <;> simp [he, h]

theorem translate_unmapPage_self (pt : List Translation) (v : ℕ) :
    translate (unmapPage pt v) v = 0 := by
  have hnone : (unmapPage pt v).find? (fun e => e.page = v) = none := by
    rw [find?_eq_none]
    intro e he
    simpa using (mem_filter.mp he).2
  simp [translate, hnone]

/-- A page with a translation is in the table. -/
theorem exists_mem_of_translate {v : ℕ} (h : translate pt v ≠ 0) : ∃ e ∈ pt, e.page = v := by
  unfold translate at h
  cases hf : pt.find? (fun e => e.page = v) with
  | none => simp [hf] at h
  | some e => exact ⟨e, mem_of_find?_eq_some hf, by simpa using find?_some hf⟩

variable {k : PageCleaner}

theorem PageCleaner.hasPage_page (h : k.offset < k.block.size) : k.block.hasPage k.page = true := by
  have hle : k.block.base / pageSize ≤ k.page := Nat.div_le_div_right (Nat.le_add_right _ _)
  have hmul : k.page * pageSize ≤ k.block.base + k.offset := Nat.div_mul_le_self _ _
  have hlt : k.page * pageSize < k.block.fin := by
    simp only [VmBlock.fin]
    omega
  simp [VmBlock.hasPage, hle, hlt]

theorem cleanerUnmap_spec (pt : List Translation) (hk : k.toFree = none) :
    (cleanerUnmap pt k).2.block = k.block ∧
      (((cleanerUnmap pt k).1 = pt ∧ (cleanerUnmap pt k).2.toFree = none) ∨
        ((cleanerUnmap pt k).1 = unmapPage pt k.page ∧ translate pt k.page ≠ 0 ∧
          ∀ p ∈ (cleanerUnmap pt k).2.toFree, p = translate pt k.page)) := by
  unfold cleanerUnmap
  by_cases hmapped : translate pt k.page ≠ 0 ∧ translate pt k.page ≠ k.prevPaddr
  · by_cases howner : k.block.mapType = .owner
    · simp [hmapped, howner]
    · simp [hmapped, howner, hk]
  · rw [if_neg hmapped]
    exact ⟨rfl, .inl ⟨rfl, hk⟩⟩

theorem ackLoop_spec (hasAsid : Bool) (cpu : Fin n) (rs : List (ShootdownReq n)) :
    ∀ (mySeq : ℕ) (tlb : List Translation),
    mySeq ≤ (ackLoop hasAsid cpu mySeq tlb rs).1 ∧ (ackLoop hasAsid cpu mySeq tlb rs).2.1 ⊆ tlb ∧
      ∀ r' ∈ (ackLoop hasAsid cpu mySeq tlb rs).2.2, ∃ r ∈ rs, r'.block = r.block ∧ r'.seq = r.seq ∧
        ((r'.waitAcks = r.waitAcks ∧ r'.ackedBy = r.ackedBy) ∨
          (mySeq < r.seq ∧ r.seq ≤ (ackLoop hasAsid cpu mySeq tlb rs).1 ∧ r'.waitAcks = r.waitAcks - 1 ∧
            r'.ackedBy = cpu :: r.ackedBy ∧
            (hasAsid = true → Clear (ackLoop hasAsid cpu mySeq tlb rs).2.1 r.block))) := by
  induction rs with
  | nil =>
    intro mySeq tlb
    exact ⟨le_refl _, fun _ h => h, fun _ h => absurd h not_mem_nil⟩
  | cons r rs ih =>
    intro mySeq tlb
    unfold ackLoop
    by_cases hlt : mySeq < r.seq
    · simp only [if_pos hlt]
      obtain ⟨h1, h2, h3⟩ := ih r.seq (if hasAsid = true then invalidateTlb tlb r.block else tlb)
      have hsub : (if hasAsid = true then invalidateTlb tlb r.block else tlb) ⊆ tlb := by
        split_ifs
        · exact invalidateTlb_subset tlb r.block
        · exact fun _ h => h
      refine ⟨hlt.le.trans h1, List.Subset.trans h2 hsub, fun r' hr' => ?_⟩
      rcases mem_cons.mp hr' with rfl | hr'
      · refine ⟨r, mem_cons_self, rfl, rfl, .inr ⟨hlt, h1, rfl, rfl, fun hasid => ?_⟩⟩
        rw [if_pos hasid] at h2 ⊢
        exact (clear_invalidateTlb tlb r.block).subset h2
      · obtain ⟨q, hq, hb, hs, hcase⟩ := h3 r' hr'
        refine ⟨q, mem_cons_of_mem r hq, hb, hs, hcase.imp_right fun hacked => ?_⟩
        exact ⟨hlt.trans hacked.1, hacked.2⟩
    · simp only [if_neg hlt]
      obtain ⟨h1, h2, h3⟩ := ih mySeq tlb
      refine ⟨h1, h2, fun r' hr' => ?_⟩
      rcases mem_cons.mp hr' with rfl | hr'
      · exact ⟨r', mem_cons_self, rfl, rfl, .inl ⟨rfl, rfl⟩⟩
      · obtain ⟨q, hq, hrest⟩ := h3 r' hr'
        exact ⟨q, mem_cons_of_mem r hq, hrest⟩

theorem ackLoop_blocks (cpu : Fin n) (rs : List (ShootdownReq n)) :
    ∀ (mySeq : ℕ) (tlb : List Translation),
    (ackLoop hasAsid cpu mySeq tlb rs).2.2.map ShootdownReq.block = rs.map ShootdownReq.block := by
  induction rs with
  | nil => exact fun _ _ => rfl
  | cons r rs ih =>
    intro mySeq tlb
    unfold ackLoop
    by_cases hlt : mySeq < r.seq
    · simp [if_pos hlt, ih]
    · simp [if_neg hlt, ih]

/-- Queued blocks are on `sanit_mapped`, and an address names one block. -/
structure Queued (vm : Vm) (reqs : List (ShootdownReq n)) : Prop where
  mem : ∀ r ∈ reqs, r.block ∈ vm.sanitMapped
  ids : ((vm.inuseMapped ++ vm.sanitMapped).map VmBlock.id).Nodup
  reqIds : (reqs.map fun r => r.block.id).Nodup
  reuse : vm.reuseMapped = []

variable {vm : Vm}

/-- What `vm_move_to_sanit_unmapped` does to a block of `sanit_mapped`. -/
theorem vmMoveToSanitUnmapped_eq {vm' : Vm} (hb : b ∈ vm.sanitMapped)
    (hids : (vm.sanitMapped.map VmBlock.id).Nodup) (h : vmMoveToSanitUnmapped vm b.id = some vm') :
    vm' =
      { vm with sanitMapped := vm.sanitMapped.erase b, sanitUnmapped := vm.sanitUnmapped ++ [b] } := by
  simp only [vmMoveToSanitUnmapped, bind_eq_bind, bind_eq_some_iff, Option.some.injEq] at h
  obtain ⟨d, hd, rfl⟩ := h
  have hid : d.id = b.id := by simpa using find?_some hd
  have hdb : d = b := inj_on_of_nodup_map hids (mem_of_find?_eq_some hd) hb hid
  rw [hdb]

variable {r : ShootdownReq n}

theorem Queued.tail {rs : List (ShootdownReq n)} (hq : Queued vm (r :: rs)) :
    r.block ∈ vm.sanitMapped ∧ (∀ q ∈ rs, q.block.id ≠ r.block.id) ∧ Queued vm rs := by
  obtain ⟨hhead, htail⟩ := nodup_cons.mp hq.reqIds
  refine ⟨hq.mem r mem_cons_self, fun q hmem hid => ?_, ?_, hq.ids, htail, hq.reuse⟩
  · exact hhead (mem_map.mpr ⟨q, hmem, hid⟩)
  · exact fun q hmem => hq.mem q (mem_cons_of_mem r hmem)

variable {reqs : List (ShootdownReq n)}

theorem Queued.move {vm' : Vm} (hq : Queued vm reqs) (hb : b ∈ vm.sanitMapped)
    (hnew : ∀ r ∈ reqs, r.block.id ≠ b.id) (h : vmMoveToSanitUnmapped vm b.id = some vm') :
    Queued vm' reqs ∧ vm'.sanitUnmapped = vm.sanitUnmapped ++ [b] := by
  have hids := hq.ids
  rw [map_append] at hids
  rw [vmMoveToSanitUnmapped_eq hb hids.of_append_right h]
  refine ⟨⟨fun r hr => ?_, ?_, hq.reqIds, hq.reuse⟩, rfl⟩
  · refine (mem_erase_of_ne ?_).mpr (hq.mem r hr)
    intro heq
    exact hnew r hr (by rw [heq])
  · exact hq.ids.sublist ((erase_sublist.append_left _).map _)

theorem Queued.push (hq : Queued vm reqs) (hb : r.block ∈ vm.sanitMapped)
    (hnew : ∀ q ∈ reqs, q.block.id ≠ r.block.id) : Queued vm (reqs ++ [r]) := by
  refine ⟨fun q hmem => ?_, hq.ids, ?_, hq.reuse⟩
  · rcases mem_append.mp hmem with hmem | hmem
    · exact hq.mem q hmem
    · rw [mem_singleton.mp hmem]
      exact hb
  · rw [map_append]
    refine hq.reqIds.append (nodup_singleton _) fun i hi hi' => ?_
    obtain ⟨q, hmem, rfl⟩ := mem_map.mp hi
    exact hnew q hmem (mem_singleton.mp hi')

theorem Queued.congr {reqs' : List (ShootdownReq n)} (hq : Queued vm reqs)
    (h : reqs'.map ShootdownReq.block = reqs.map ShootdownReq.block) : Queued vm reqs' := by
  refine ⟨fun r hr => ?_, hq.ids, ?_, hq.reuse⟩
  · have hmem : r.block ∈ reqs.map ShootdownReq.block := h ▸ mem_map_of_mem hr
    obtain ⟨q, hq', hb⟩ := mem_map.mp hmem
    exact hb ▸ hq.mem q hq'
  · have hids : (reqs.map ShootdownReq.block).map VmBlock.id = reqs.map fun r => r.block.id := map_map
    have hids' : (reqs'.map ShootdownReq.block).map VmBlock.id = reqs'.map fun r => r.block.id := map_map
    rw [← hids', h, hids]
    exact hq.reqIds

theorem popLoop_spec (reqs : List (ShootdownReq n)) : ∀ {vm : Vm} {r : Vm × List (ShootdownReq n)},
    Queued vm reqs → popLoop vm reqs = some r →
    Queued r.1 r.2 ∧ r.2 ⊆ reqs ∧
      ∀ b ∈ r.1.sanitUnmapped, b ∈ vm.sanitUnmapped ∨ ∃ q ∈ reqs, q.waitAcks = 0 ∧ q.block = b := by
  induction reqs with
  | nil =>
    intro vm r hq h
    cases h
    exact ⟨hq, fun _ h => h, fun b hb => .inl hb⟩
  | cons q rs ih =>
    intro vm r hq h
    rw [popLoop] at h
    by_cases hw : q.waitAcks ≠ 0
    · rw [if_pos hw] at h
      cases h
      exact ⟨hq, fun _ h => h, fun b hb => .inl hb⟩
    · rw [if_neg hw] at h
      obtain ⟨vm', hmove, h⟩ := bind_eq_some_iff.mp h
      obtain ⟨hmem, hnew, htail⟩ := hq.tail
      obtain ⟨hq', hun⟩ := htail.move hmem hnew hmove
      obtain ⟨h1, h2, h3⟩ := ih hq' h
      refine ⟨h1, fun x hx => mem_cons_of_mem q (h2 hx), fun b hb => ?_⟩
      rcases h3 b hb with hold | ⟨p, hp, hrest⟩
      · rw [hun] at hold
        rcases mem_append.mp hold with hold | hold
        · exact .inl hold
        · exact .inr ⟨q, mem_cons_self, by simpa using hw, (mem_singleton.mp hold).symm⟩
      · exact .inr ⟨p, mem_cons_of_mem q hp, hrest⟩

/-- Freeing a block of `inuse_mapped` puts it on `sanit_mapped`. -/
theorem Queued.free (hq : Queued vm reqs) (hb : b ∈ vm.inuseMapped) :
    b ∈ listInsertSorted baseLe b vm.sanitMapped ∧ (∀ r ∈ reqs, r.block.id ≠ b.id) ∧
    Queued { vm with
        inuseMapped := vm.inuseMapped.erase b
        sanitMapped := listInsertSorted baseLe b vm.sanitMapped } reqs := by
  have hperm := listInsertSorted_perm baseLe b vm.sanitMapped
  have hself : b ∈ listInsertSorted baseLe b vm.sanitMapped := hperm.mem_iff.mpr mem_cons_self
  refine ⟨hself, fun r hr hid => ?_, fun r hr => ?_, ?_, hq.reqIds, hq.reuse⟩
  · have hdisj := disjoint_of_nodup_append (by simpa using hq.ids)
    exact hdisj (mem_map_of_mem hb) (mem_map.mpr ⟨r.block, hq.mem r hr, hid⟩)
  · exact hperm.mem_iff.mpr (mem_cons_of_mem b (hq.mem r hr))
  · have hall : (vm.inuseMapped.erase b ++ listInsertSorted baseLe b vm.sanitMapped).Perm
        (vm.inuseMapped ++ vm.sanitMapped) :=
      (hperm.append_left _).trans (perm_middle.trans ((perm_cons_erase hb).symm.append_right _))
    exact (hall.map VmBlock.id).nodup_iff.mpr hq.ids

structure TlbInv (hasAsid : Bool) (s : TlbState n) : Prop where
  tlb : ∀ cpu, ∀ e ∈ s.tlb cpu, translate s.pageTable e.page = e.paddr
  acks : ∀ r ∈ s.reqs, r.waitAcks = n - r.ackedBy.length ∧ r.ackedBy.Nodup ∧
    ∀ cpu ∈ r.ackedBy, r.seq ≤ s.localSeq cpu
  acked : ∀ r ∈ s.reqs, ∀ cpu ∈ r.ackedBy, hasAsid = true ∨ s.point cpu ≠ .flush →
    Clear (s.tlb cpu) r.block
  unmapped : ∀ b ∈ s.vm.sanitUnmapped, ∀ cpu, Clear (s.tlb cpu) b
  taken : ∀ k ∈ s.cleaner, ∀ cpu, Clear (s.tlb cpu) k.block
  freed : ∀ k ∈ s.cleaner, ∀ p ∈ k.toFree, ∀ page, translate s.pageTable page ≠ p
  queued : Queued s.vm s.reqs

variable {s s' : TlbState n}

theorem tlbInv_init (h : TlbInit s) : TlbInv hasAsid s := by
  refine ⟨h.tlb, ?_, ?_, ?_, ?_, ?_, ?_, ?_, ?_, h.reuse⟩
  · simp [h.reqs]
  · simp [h.reqs]
  · simp [h.sanitUnmapped]
  · simp [h.cleaner]
  · simp [h.cleaner]
  · simp [h.reqs]
  · simpa [h.sanitMapped] using h.ids
  · simp [h.reqs]

theorem TlbInv.pfreeSafe (hi : TlbInv hasAsid s) : PfreeSafe s := by
  intro k hk p hp cpu e he hep
  apply hi.freed k hk p hp e.page
  rw [hi.tlb cpu e he, hep]

variable {cpu : Fin n}

/-- The TLB of one CPU loses entries. -/
theorem update_tlb_subset (h : tlb ⊆ s.tlb cpu) (c : Fin n) : update s.tlb cpu tlb c ⊆ s.tlb c := by
  by_cases hc : c = cpu
  · subst hc
    rw [update_self]
    exact h
  · rw [update_of_ne hc]
    exact fun _ h => h

section

variable (hi : TlbInv hasAsid s)
include hi

theorem TlbInv.shrink {tlb : Fin n → List Translation} (h : ∀ c, tlb c ⊆ s.tlb c) :
    TlbInv hasAsid { s with tlb := tlb } :=
  ⟨fun c e he => hi.tlb c e (h c he), hi.acks,
    fun r hr c hc hp => (hi.acked r hr c hc hp).subset (h c),
    fun b hb c => (hi.unmapped b hb c).subset (h c), fun k hk c => (hi.taken k hk c).subset (h c),
    hi.freed,
    hi.queued⟩

theorem tlbFreeBlock_inv {id : ℕ} (h : tlbFreeBlock s cpu id = some s') : TlbInv hasAsid s' := by
  simp only [tlbFreeBlock, bind_eq_bind, bind_eq_some_iff] at h
  obtain ⟨b, hb, h⟩ := h
  rw [vmChooseSanit_eq (by exact hi.queued.reuse)] at h
  obtain ⟨hself, hnew, hqueued⟩ := hi.queued.free (mem_of_find?_eq_some hb)
  simp only [requestTlbShootdown] at h
  by_cases hn : n ≤ 1
  · rw [if_pos hn] at h
    simp only [bind_eq_bind, bind_eq_some_iff, Option.some.injEq] at h
    obtain ⟨vm, hvm, rfl⟩ := h
    obtain ⟨hqueued', hun⟩ := hqueued.move hself hnew hvm
    have hshrink := hi.shrink (update_tlb_subset (invalidateTlb_subset (s.tlb cpu) b))
    refine ⟨hshrink.tlb, hshrink.acks, hshrink.acked, ?_, hshrink.taken, hshrink.freed, hqueued'⟩
    intro d hd c
    rw [hun] at hd
    rcases mem_append.mp hd with hd | hd
    · exact hshrink.unmapped d hd c
    · have hc : c = cpu := Fin.ext (by omega)
      rw [mem_singleton.mp hd, hc]
      simp only [update_self]
      exact clear_invalidateTlb (s.tlb cpu) b
  · rw [if_neg hn] at h
    cases h
    refine ⟨hi.tlb, ?_, ?_, hi.unmapped, hi.taken, hi.freed, hqueued.push hself hnew⟩
    · intro r hr
      rcases mem_append.mp hr with hr | hr
      · exact hi.acks r hr
      · rw [mem_singleton.mp hr]
        simp
    · intro r hr c hc
      rcases mem_append.mp hr with hr | hr
      · exact hi.acked r hr c hc
      · rw [mem_singleton.mp hr] at hc
        exact absurd hc not_mem_nil

theorem serviceAcks_inv (h : tlbStep hasAsid s (.serviceAcks cpu) = some s') :
    TlbInv hasAsid s' := by
  simp only [tlbStep] at h
  by_cases hp : s.point cpu = .outside
  swap
  · rw [if_neg hp] at h
    cases h
  rw [if_pos hp] at h
  cases h
  obtain ⟨hseq, hsub, hreqs⟩ := ackLoop_spec hasAsid cpu s.reqs (s.localSeq cpu) (s.tlb cpu)
  have hshrink := hi.shrink (update_tlb_subset hsub)
  refine ⟨hshrink.tlb, fun r' hr' => ?_, fun r' hr' c hc hpoint => ?_, hshrink.unmapped,
    hshrink.taken, hshrink.freed, ?_⟩
  · obtain ⟨r, hr, -, hs, hcase⟩ := hreqs r' hr'
    obtain ⟨hcount, hnodup, hle⟩ := hi.acks r hr
    have hle' : ∀ c ∈ r.ackedBy, r.seq ≤ update s.localSeq cpu
        (ackLoop hasAsid cpu (s.localSeq cpu) (s.tlb cpu) s.reqs).1 c := by
      intro c hc
      by_cases hcpu : c = cpu
      · subst hcpu
        rw [update_self]
        exact (hle c hc).trans hseq
      · rw [update_of_ne hcpu]
        exact hle c hc
    rw [hs]
    rcases hcase with ⟨hw, ha⟩ | ⟨hlt, hle1, hw, ha, -⟩
    · rw [hw, ha]
      exact ⟨hcount, hnodup, hle'⟩
    · rw [hw, ha]
      refine ⟨?_, nodup_cons.mpr ⟨fun hmem => ?_, hnodup⟩, fun c hc => ?_⟩
      · rw [length_cons]
        omega
      · exact absurd (hle cpu hmem) (by omega)
      · rcases mem_cons.mp hc with rfl | hc
        · simp only [update_self]
          exact hle1
        · exact hle' c hc
  · obtain ⟨r, hr, hb, -, hcase⟩ := hreqs r' hr'
    rw [hb]
    by_cases hcpu : c = cpu
    · subst hcpu
      have hasid : hasAsid = true := by
        by_contra hasid
        simp [hasid] at hpoint
      rcases hcase with ⟨-, ha⟩ | ⟨-, -, -, -, hclear⟩
      · exact hshrink.acked r hr c (ha ▸ hc) (.inl hasid)
      · simp only [update_self]
        exact hclear hasid
    · simp only [update_of_ne hcpu] at hpoint ⊢
      refine hi.acked r hr c ?_ hpoint
      rcases hcase with ⟨-, ha⟩ | ⟨-, -, -, ha, -⟩
      · exact ha ▸ hc
      · rw [ha] at hc
        exact mem_of_ne_of_mem hcpu hc
  · exact hi.queued.congr (ackLoop_blocks cpu s.reqs _ _)

theorem serviceFlush_inv (h : tlbStep hasAsid s (.serviceFlush cpu) = some s') :
    TlbInv hasAsid s' := by
  simp only [tlbStep] at h
  split_ifs at h with hp
  cases h
  have hshrink := hi.shrink (update_tlb_subset (nil_subset (s.tlb cpu)))
  refine ⟨hshrink.tlb, hshrink.acks, ?_, hshrink.unmapped, hshrink.taken, hshrink.freed, hi.queued⟩
  intro r hr c hc hpoint
  by_cases hcpu : c = cpu
  · subst hcpu
    simp only [update_self]
    exact clear_nil _
  · simp only [update_of_ne hcpu] at hpoint ⊢
    exact hi.acked r hr c hc hpoint

/-- A request that waits for no more acknowledgements has them all. -/
theorem TlbInv.all_acked (hr : r ∈ s.reqs) (h0 : r.waitAcks = 0) (cpu : Fin n) :
    cpu ∈ r.ackedBy := by
  obtain ⟨hcount, hnodup, -⟩ := hi.acks r hr
  have hcard : r.ackedBy.toFinset.card = Fintype.card (Fin n) := by
    rw [toFinset_card_of_nodup hnodup, Fintype.card_fin]
    omega
  have huniv := Finset.eq_univ_of_card _ hcard
  exact mem_toFinset.mp (huniv ▸ Finset.mem_univ cpu)

theorem servicePop_inv (hok : QuietStep hasAsid s (.servicePop cpu))
    (h : tlbStep hasAsid s (.servicePop cpu) = some s') : TlbInv hasAsid s' := by
  simp only [tlbStep] at h
  split_ifs at h with hp
  simp only [bind_eq_bind, bind_eq_some_iff, Option.some.injEq] at h
  obtain ⟨r, hr, rfl⟩ := h
  obtain ⟨hqueued, hsub, hun⟩ := popLoop_spec s.reqs hi.queued hr
  refine ⟨hi.tlb, fun q hq => hi.acks q (hsub hq), fun q hq c hc hpoint => ?_, fun b hb c => ?_,
    hi.taken, hi.freed, hqueued⟩
  · refine hi.acked q (hsub hq) c hc (hpoint.imp_right fun hne => ?_)
    by_cases hcpu : c = cpu
    · rw [hcpu, hp]
      decide
    · simpa only [update_of_ne hcpu] using hne
  · rcases hun b hb with hold | ⟨q, hq, h0, rfl⟩
    · exact hi.unmapped b hold c
    · have hc := hi.all_acked hq h0 c
      exact hi.acked q hq c hc (hok.imp_right fun hflush => hflush q hq h0 c hc)

theorem refill_inv {page : ℕ} (hok : QuietStep hasAsid s (.refill cpu page))
    (h : tlbStep hasAsid s (.refill cpu page) = some s') : TlbInv hasAsid s' := by
  simp only [tlbStep] at h
  split_ifs at h with hp
  cases h
  obtain ⟨hreqs, hun, hcleaner⟩ := hok
  -- the new entry is no page of a block that `cpu` has to keep out of its TLB
  have hclear : ∀ c b, Clear (s.tlb c) b → (c = cpu → b.hasPage page = false) →
      Clear (update s.tlb cpu (⟨page, translate s.pageTable page⟩ :: s.tlb cpu) c) b := by
    intro c b hb hpage
    by_cases hcpu : c = cpu
    · subst hcpu
      rw [update_self]
      exact hb.cons (hpage rfl)
    · rw [update_of_ne hcpu]
      exact hb
  refine ⟨fun c e he => ?_, hi.acks, fun r hr c hc hpoint => ?_, fun b hb c => ?_, fun k hk c => ?_,
    hi.freed, hi.queued⟩
  · by_cases hcpu : c = cpu
    · subst hcpu
      simp only [update_self] at he
      rcases mem_cons.mp he with rfl | he
      · rfl
      · exact hi.tlb c e he
    · simp only [update_of_ne hcpu] at he
      exact hi.tlb c e he
  · exact hclear c _ (hi.acked r hr c hc hpoint) fun hcpu => hreqs r hr (hcpu ▸ hc)
  · exact hclear c _ (hi.unmapped b hb c) fun _ => hun b hb
  · exact hclear c _ (hi.taken k hk c) fun _ => hcleaner k hk

theorem cleanerTake_inv (h : tlbStep hasAsid s .cleanerTake = some s') : TlbInv hasAsid s' := by
  simp only [tlbStep] at h
  split at h
  · rename_i b rest hnone hun
    cases h
    refine ⟨hi.tlb, hi.acks, hi.acked, fun d hd c => ?_, fun k hk c => ?_, fun k hk p hp => ?_,
      ⟨hi.queued.mem, hi.queued.ids, hi.queued.reqIds, hi.queued.reuse⟩⟩
    · exact hi.unmapped d (hun ▸ mem_cons_of_mem b hd) c
    · cases hk
      exact hi.unmapped b (hun ▸ mem_cons_self) c
    · cases hk
      cases hp
  · cases h

theorem cleanerUnmap_inv (hok : QuietStep hasAsid s .cleanerUnmap)
    (h : tlbStep hasAsid s .cleanerUnmap = some s') : TlbInv hasAsid s' := by
  simp only [tlbStep, bind_eq_bind, bind_eq_some_iff] at h
  obtain ⟨k, hk, h⟩ := h
  split_ifs at h with hguard
  cases h
  have hpage := PageCleaner.hasPage_page hguard.2
  -- no TLB holds a translation of the page, so taking it out of the table leaves none behind
  have hkeep : ∀ c, ∀ e ∈ s.tlb c, translate (unmapPage s.pageTable k.page) e.page = e.paddr := by
    intro c e he
    have hne : e.page ≠ k.page := by
      intro heq
      have := hi.taken k hk c e he
      rw [heq, hpage] at this
      cases this
    rw [translate_unmapPage_of_ne hne]
    exact hi.tlb c e he
  have hgone : translate s.pageTable k.page ≠ 0 →
      ∀ page, translate (unmapPage s.pageTable k.page) page ≠ translate s.pageTable k.page := by
    intro h0 page heq
    by_cases hpg : page = k.page
    · rw [hpg, translate_unmapPage_self] at heq
      exact h0 heq.symm
    · rw [translate_unmapPage_of_ne hpg] at heq
      obtain ⟨e, he, rfl⟩ := exists_mem_of_translate (heq ▸ h0)
      exact hpg (hok k hk e he heq)
  obtain ⟨hblock, hcase⟩ := cleanerUnmap_spec s.pageTable hguard.1
  refine ⟨?_, hi.acks, hi.acked, hi.unmapped, fun j hj => ?_, fun j hj p hp => ?_, hi.queued⟩
  · rcases hcase with ⟨hpt, -⟩ | ⟨hpt, -, -⟩
    · simp only [hpt]
      exact hi.tlb
    · simp only [hpt]
      exact hkeep
  · cases hj
    rw [hblock]
    exact hi.taken k hk
  · cases hj
    rcases hcase with ⟨-, hnone⟩ | ⟨hpt, h0, hfree⟩
    · rw [hnone] at hp
      cases hp
    · rw [hfree p hp]
      simp only [hpt]
      exact hgone h0

theorem cleanerFree_inv (h : tlbStep hasAsid s .cleanerFree = some s') : TlbInv hasAsid s' := by
  simp only [tlbStep, bind_eq_bind, bind_eq_some_iff, Option.some.injEq] at h
  obtain ⟨k, hk, p, -, rfl⟩ := h
  refine ⟨hi.tlb, hi.acks, hi.acked, hi.unmapped, fun j hj => ?_, fun j hj q hq => ?_, hi.queued⟩
  · cases hj
    exact hi.taken k hk
  · cases hj
    cases hq

theorem cleanerDone_inv (h : tlbStep hasAsid s .cleanerDone = some s') : TlbInv hasAsid s' := by
  simp only [tlbStep, bind_eq_bind, bind_eq_some_iff] at h
  obtain ⟨k, hk, h⟩ := h
  split_ifs at h with hguard
  cases h
  exact ⟨hi.tlb, hi.acks, hi.acked, hi.unmapped, fun j hj => (by cases hj),
    fun j hj => (by cases hj), ⟨hi.queued.mem, hi.queued.ids, hi.queued.reqIds, hi.queued.reuse⟩⟩

theorem tlbInv_step {a : TlbAction n} (hok : QuietStep hasAsid s a)
    (h : tlbStep hasAsid s a = some s') : TlbInv hasAsid s' := by
  cases a with
  | freeBlock cpu id => exact tlbFreeBlock_inv hi h
  | serviceAcks cpu => exact serviceAcks_inv hi h
  | serviceFlush cpu => exact serviceFlush_inv hi h
  | servicePop cpu => exact servicePop_inv hi hok h
  | refill cpu page => exact refill_inv hi hok h
  | cleanerTake => exact cleanerTake_inv hi h
  | cleanerUnmap => exact cleanerUnmap_inv hi hok h
  | cleanerFree => exact cleanerFree_inv hi h
  | cleanerDone => exact cleanerDone_inv hi h

end

theorem pfree_safe_of_quiet (hasAsid : Bool) (s0 s : TlbState n) (h0 : TlbInit s0)
    (h : Reach (tlbStep hasAsid) (QuietStep hasAsid) s0 s) : PfreeSafe s :=
  (h.invariant (tlbInv_init h0) fun _ _ _ hi hok hs => tlbInv_step hi hok hs).pfreeSafe

/-- Two CPUs, and a process with one mapped page in use that both TLBs hold. -/
def onePageMapped : TlbState 2 where
  vm := { vmCreate sixteenPages 1 with
    availUnmapped := [⟨0, 0x11000, 0xf000, .avail, .none⟩]
    inuseMapped := [⟨1, 0x10000, 0x1000, .generic, .owner⟩]
    numActiveBlocks := 1
    nextId := 2 }
  pageTable := [⟨0x10, 0x7000⟩]
  tlb := fun _ => [⟨0x10, 0x7000⟩]
  reqs := []
  seq := 1
  localSeq := fun _ => 0
  point := fun _ => .outside
  cleaner := none

theorem onePageMapped_init : TlbInit onePageMapped := by
  refine ⟨by decide, rfl, rfl, rfl, rfl, rfl, fun _ => rfl, fun _ => rfl, rfl, fun cpu e he => ?_⟩
  rw [mem_singleton.mp he]
  rfl

theorem pfree_safe_after_shootdown : ∃ s, execute (tlbStep false) (QuietStep false) onePageMapped
        [.freeBlock 0 1, .serviceAcks 0, .refill 1 0x10, .serviceFlush 0, .serviceAcks 1, .serviceFlush 1,
          .servicePop 1, .cleanerTake, .cleanerUnmap] = some s ∧
      s.cleaner.bind PageCleaner.toFree = some 0x7000 ∧ PfreeSafe s := by
  refine exists_execute (P := fun s => s.cleaner.bind PageCleaner.toFree =
    some 0x7000) (by decide +kernel) fun s hs hfree => ?_
  exact ⟨hfree, pfree_safe_of_quiet false onePageMapped s onePageMapped_init hs⟩

/-- The page-table entry is still there after the shootdown, and a CPU loads it again before the
cleaner takes it out. -/
theorem refill_after_ack_reaches_freed_page :
    ¬ ∀ (n : ℕ) (hasAsid : Bool) (s0 s : TlbState n),
    TlbInit s0 → Reach (tlbStep hasAsid) anyStep s0 s →
      PfreeSafe s := by
  intro h
  obtain ⟨s, hs, hcleaner, htlb⟩ : ∃ s, Reach (tlbStep true) anyStep onePageMapped s ∧
      s.cleaner = some ⟨⟨1, 0x10000, 0x1000, .generic, .owner⟩, 0, 0x7000, some 0x7000⟩ ∧
      s.tlb 0 = [⟨0x10, 0x7000⟩] :=
    exists_reach [.freeBlock 0 1, .serviceAcks 0, .servicePop 0, .refill 0 0x10, .serviceAcks 1,
      .servicePop 1, .cleanerTake, .cleanerUnmap] (by decide +kernel)
  have hsafe := h 2 true onePageMapped s onePageMapped_init hs
  exact hsafe _ hcleaner 0x7000 rfl 0 ⟨0x10, 0x7000⟩ (htlb ▸ mem_singleton_self _) rfl

/-- The virtual memory with the block of the cleaner put back on `sanit_unmapped`. -/
def TlbState.held (s : TlbState n) : Vm :=
  { s.vm with sanitUnmapped := (s.cleaner.map PageCleaner.block).toList ++ s.vm.sanitUnmapped }

theorem Moved.hold {v v' : Vm} (h : Moved v v') (l : List VmBlock) :
    Moved { v with sanitUnmapped := l ++ v.sanitUnmapped }
    { v' with sanitUnmapped := l ++ v'.sanitUnmapped } := by
  have hput : ∀ u : Vm, ({ u with sanitUnmapped := l ++ u.sanitUnmapped } : Vm).active.Perm (l ++
      u.active) := by
    intro u
    simp only [Vm.active]
    rw [← append_assoc, ← append_assoc]
    exact perm_append_comm.append_right _
  exact ⟨h.avail, (hput v').trans ((h.active.append_left l).trans (hput v).symm), h.count, h.nextId,
    h.reuse⟩

variable {c : VmConfig}

/-- `vm_free_block` with the shootdown of this model does to the lists what it does with a counter
of CPUs alone. -/
theorem tlbFreeBlock_vm {id : ℕ} (hn : c.numCpus = n)
    (h : tlbFreeBlock s cpu id = some s') : vmFreeBlock c s.vm id = some s'.vm ∧
    s'.cleaner = s.cleaner := by
  simp only [tlbFreeBlock, bind_eq_bind, bind_eq_some_iff] at h
  obtain ⟨b, hb, h⟩ := h
  simp only [vmFreeBlock, hb, bind_eq_bind, bind_some, vmFreeRemovedBlock]
  revert h
  -- both sides make the same choice of the block to free
  rcases vmChooseSanit { s.vm with inuseMapped := s.vm.inuseMapped.erase b } b with ⟨vm, _ | d⟩
  · intro h
    cases h
    exact ⟨rfl, rfl⟩
  · intro h
    simp only [vmRequestShootdown, hn]
    unfold requestTlbShootdown at h
    split_ifs at h with hone
    · simp only [bind_eq_bind, bind_eq_some_iff, Option.some.injEq] at h
      obtain ⟨u, hu, rfl⟩ := h
      rw [if_pos hone]
      exact ⟨hu, rfl⟩
    · cases h
      rw [if_neg hone]
      exact ⟨rfl, rfl⟩

theorem popLoop_moved (reqs : List (ShootdownReq n)) : ∀ {vm : Vm} {r : Vm × List (ShootdownReq n)},
    popLoop vm reqs = some r → Moved vm r.1 := by
  induction reqs with
  | nil =>
    intro vm r h
    cases h
    exact Moved.refl vm
  | cons q rs ih =>
    intro vm r h
    rw [popLoop] at h
    split_ifs at h with hw
    · cases h
      exact Moved.refl vm
    · obtain ⟨u, hu, h⟩ := bind_eq_some_iff.mp h
      exact (vmMoveToSanitUnmapped_moved hu).trans (ih h)

theorem VmInv.cleanerDone (hk : s.cleaner = some k) (hi : VmInv c s.held) :
    VmInv c (vmMoveOneToAvail s.vm k.block) := by
  have hperm : s.held.active.Perm (k.block :: s.vm.active) := by
    simp only [TlbState.held, hk]
    exact perm_middle
  refine ⟨⟨?_, hi.reuse⟩, (hi.parts.perm hperm).release⟩
  have hcount := hi.count
  rw [hperm.length_eq, length_cons] at hcount
  change s.vm.numActiveBlocks = _ at hcount
  change s.vm.numActiveBlocks - 1 = s.vm.active.length
  omega

theorem vmInv_tlbStep {a : TlbAction n} (hn : c.numCpus = n) (hi : VmInv c s.held)
    (h : tlbStep hasAsid s a = some s') : VmInv c s'.held := by
  cases a with
  | freeBlock cpu id =>
    obtain ⟨hvm, hcleaner⟩ := tlbFreeBlock_vm hn h
    have hreuse : s.vm.reuseMapped = [] := hi.reuse
    have hmoved := (vmFreeBlock_moved hreuse hvm).hold (s.cleaner.map PageCleaner.block).toList
    unfold TlbState.held
    rw [hcleaner]
    exact (hmoved.keeps hi).1
  | serviceAcks cpu =>
    simp only [tlbStep] at h
    split at h
    · cases h
      exact hi
    · cases h
  | serviceFlush cpu =>
    simp only [tlbStep] at h
    split_ifs at h
    cases h
    exact hi
  | servicePop cpu =>
    simp only [tlbStep] at h
    split_ifs at h
    simp only [bind_eq_bind, bind_eq_some_iff, Option.some.injEq] at h
    obtain ⟨r, hr, rfl⟩ := h
    exact (((popLoop_moved s.reqs hr).hold (s.cleaner.map PageCleaner.block).toList).keeps hi).1
  | refill cpu page =>
    simp only [tlbStep] at h
    split_ifs at h
    cases h
    exact hi
  | cleanerTake =>
    simp only [tlbStep] at h
    split at h
    · rename_i b rest hnone hun
      cases h
      simpa [TlbState.held, hnone, hun] using hi
    · cases h
  | cleanerUnmap =>
    simp only [tlbStep, bind_eq_bind, bind_eq_some_iff] at h
    obtain ⟨k, hk, h⟩ := h
    split_ifs at h with hguard
    cases h
    have hblock := (cleanerUnmap_spec s.pageTable hguard.1).1
    simpa [TlbState.held, hk, hblock] using hi
  | cleanerFree =>
    simp only [tlbStep, bind_eq_bind, bind_eq_some_iff, Option.some.injEq] at h
    obtain ⟨k, hk, p, -, rfl⟩ := h
    simpa [TlbState.held, hk] using hi
  | cleanerDone =>
    simp only [tlbStep, bind_eq_bind, bind_eq_some_iff] at h
    obtain ⟨k, hk, h⟩ := h
    split_ifs at h
    cases h
    exact hi.cleanerDone hk

/-- Along every run of frees, shootdowns and cleaner steps. -/
theorem tlb_vm_partition {s0 : TlbState n} (hn : c.numCpus = n) (h0 : VmInv c s0.held)
    (h : Reach (tlbStep hasAsid) anyStep s0 s) : VmPartition c s.held :=
  (h.invariant h0 fun _ _ _ hi _ hs => vmInv_tlbStep hn hi hs).partition

theorem tlb_vm_partition_after_free : ∃ s, Reach (tlbStep false) anyStep onePageMapped s ∧
    s.vm.active = [] ∧ VmPartition ⟨0x10000, 0x20000,
    2, by decide, by decide, by decide⟩ s.held := by
  refine exists_reach_of (P := fun s => s.vm.active = []) [.freeBlock 0 1, .serviceAcks 0,
    .serviceFlush 0,
    .serviceAcks 1, .serviceFlush 1, .servicePop 1, .cleanerTake, .cleanerUnmap, .cleanerFree,
    .cleanerDone]
    (by decide +kernel) fun s hs hactive => ?_
  refine ⟨hactive, tlb_vm_partition rfl ⟨⟨rfl, rfl⟩, fun x => ?_, by decide, by decide, by
    decide⟩ hs⟩
  change cover VmBlock.base _ [⟨0, 0x11000, 0xf000, .avail, .none⟩,
    ⟨1, 0x10000, 0x1000, .generic, .owner⟩] x = _
  simp only [cover_block, cover_nil]
  split_ifs <;> omega

end Toddler
