import Mathlib.Data.List.Nodup
import Toddler.Spec.VfsCalls

/-! Reference counts of ventries: along any sequence of acquisitions, releases and mounts a count is
the number of references, as long as this fits in a word. A trim reads counts, so what it frees
depends on them; within a call no ventry has more children than requests have been sent. -/

namespace Toddler

open Function List Option Vfs

variable {t : Vfs} {salloc : Vfs → ℕ}

theorem add64_mod_one (n : ℕ) : add64 (n % word) 1 = (n + 1) % word := Nat.mod_add_mod n word 1

theorem sub64_mod_one {n : ℕ} (h : n ≠ 0) : sub64 (n % word) 1 = (n - 1) % word := by
  unfold sub64 word
  omega

namespace Vfs

variable {s : Vfs} {v cur u m : ℕ} {seg : Seg} {node : FsNode}

theorem cacheNode_parent :
    (s.cacheNode v m cur seg node).parent u = if u = v then some cur else s.parent u := by
  simp only [cacheNode, attachVentry, refCountInc, newVentry, update_apply]
  split_ifs <;> rfl

theorem cacheNode_children (hne : v ≠ cur) : (s.cacheNode v m cur seg node).children u =
      if u = cur then v :: s.children cur else if u = v then [] else s.children u := by
  simp only [cacheNode, attachVentry, refCountInc, newVentry, update_apply]
  split_ifs with h <;> simp_all

theorem cacheNode_isRoot :
    (s.cacheNode v m cur seg node).isRoot u = if u = v then false else s.isRoot u := by
  simp only [cacheNode, attachVentry, refCountInc, newVentry, update_apply]

theorem cacheNode_mount :
    (s.cacheNode v m cur seg node).mount u = if u = v then none else s.mount u := by
  simp only [cacheNode, attachVentry, refCountInc, newVentry, update_apply]

theorem cacheNode_vnode :
    (s.cacheNode v m cur seg node).vnode u = if u = v then none else s.vnode u := by
  simp only [cacheNode, attachVentry, refCountInc, newVentry, update_apply]

theorem cacheNode_refCount (hne : v ≠ cur) : (s.cacheNode v m cur seg node).refCount u =
      if u = cur then add64 (s.refCount cur) 1 else if u = v then 0 else s.refCount u := by
  simp only [cacheNode, attachVentry, refCountInc, newVentry, update_apply]
  split_ifs with h <;> simp_all

theorem cacheNode_refs (hne : v ≠ cur) : (s.cacheNode v m cur seg node).refs u =
      if u = cur then s.refs cur + 1 else if u = v then s.acquired v else s.refs u := by
  have hacq : (s.cacheNode v m cur seg node).acquired = s.acquired := rfl
  unfold refs
  rw [cacheNode_children hne, cacheNode_isRoot, hacq]
  grind

theorem CountInv.cacheNode (h : CountInv s) (hv : v ∉ s.live) (hcur : cur ∈ s.live) (m : ℕ)
    (seg : Seg) (node : FsNode) : CountInv (s.cacheNode v m cur seg node) := by
  have hlive : (s.cacheNode v m cur seg node).live = v :: s.live := rfl
  have hacq : (s.cacheNode v m cur seg node).acquired = s.acquired := rfl
  have hvroot : (s.cacheNode v m cur seg node).vroot = s.vroot := rfl
  have hmountRoot : (s.cacheNode v m cur seg node).mountRoot = s.mountRoot := rfl
  have hnumMounts : (s.cacheNode v m cur seg node).numMounts = s.numMounts := rfl
  obtain ⟨hroot, href, hvnode, hnoVnode, hdead, hchild, hnodup, hparent, hmounts, hmounted,
    hfreed⟩ := h
  refine ⟨?_, ?_, ?_, ?_, ?_, ?_, ?_, ?_, ?_, ?_, hfreed⟩
  · grind [cacheNode_isRoot, cacheNode_parent]
  · grind [cacheNode_refCount, cacheNode_refs, add64_mod_one, Nat.zero_mod]
  · grind [cacheNode_vnode]
  · grind [cacheNode_vnode]
  · grind
  · grind [cacheNode_children, cacheNode_parent, cacheNode_isRoot]
  · grind [cacheNode_children]
  · grind [cacheNode_children, cacheNode_parent, cacheNode_isRoot]
  · grind [cacheNode_isRoot]
  · grind [cacheNode_parent, cacheNode_mount]

theorem CountInv.request (h : CountInv s) (r : FsRequest) : CountInv (s.request r) :=
  ⟨h.vroot, h.ref, h.vnode, h.noVnode, h.dead, h.child, h.nodup, h.parent, h.root, h.mounted,
    h.freed⟩

/-- The invariant between calls. A child was asked for. -/
structure CallInv (s : Vfs) : Prop where
  inv : CountInv s
  kids : ∀ v ∈ s.live, (s.children v).length ≤ s.log.length

/-- The invariant within a call, by which a trim frees only what is not used. -/
structure Counted (s : Vfs) : Prop extends CallInv s where
  acquired : ∀ v, s.acquired v < word

theorem CallInv.request (h : CallInv s) (r : FsRequest) : CallInv (s.request r) := by
  refine ⟨h.inv.request r, fun v hv => ?_⟩
  have := h.kids v hv
  simp only [Vfs.request, length_append]
  omega

theorem Counted.request (h : Counted s) (r : FsRequest) : Counted (s.request r) :=
  ⟨h.toCallInv.request r, h.acquired⟩

theorem Counted.unused (h : Counted s) (hlog : FewRequests s) (hv : v ∈ s.live)
    (hroot : s.isRoot v = false) (href : s.refCount v = 0) (hidle : ¬ s.vnodeInUse v) :
    FreedVentry.Unused ⟨v, s.children v, s.acquired v, s.vnode v, s.isRoot v⟩ := by
  have hopen : ∀ node ∈ s.vnode v, node.openCount = 0 := by
    intro node hnode
    simpa [vnodeInUse, Option.mem_def.mp hnode] using hidle
  have hacq : s.acquired v = 0 := by
    cases hvn : s.vnode v with
    | none => exact h.inv.noVnode v hv hvn
    | some node =>
      have hmod := h.inv.vnode v hv node hvn
      rwa [hopen node hvn, Nat.mod_eq_of_lt (h.acquired v), eq_comm] at hmod
  have hkids : (s.children v).length = 0 := by
    have hmod := h.inv.ref v hv
    have hlt := (h.kids v hv).trans_lt hlog
    simp only [refs, hroot, hacq, href, Bool.false_eq_true, if_false, add_zero] at hmod
    rwa [Nat.mod_eq_of_lt hlt, eq_comm] at hmod
  exact ⟨length_eq_zero_iff.mp hkids, hacq, hopen, hroot⟩

variable {p depth : ℕ}

/-- What a round of `trim_ventries` leaves; the file system may be told. -/
theorem trimOne_eq (ht : s.trimOne depth p v = some t) :
    ∃ told, (∀ r ∈ told, ∃ m id, r = FsRequest.forget m id) ∧ t = { s with
      freed := ⟨v, s.children v, s.acquired v, s.vnode v, s.isRoot v⟩ :: s.freed
      vnode := update s.vnode v none
      children := update s.children p ((s.children p).erase v)
      refCount := update s.refCount p (sub64 (s.refCount p) 1)
      log := s.log ++ told
      live := s.live.filter (· ≠ v) } := by
  simp only [trimOne, forgetIpc, bind_eq_bind, map_eq_some_iff, bind_eq_some_iff,
    Option.some.injEq] at ht
  obtain ⟨t', ⟨m, -, rfl⟩, rfl⟩ := ht
  split_ifs
  · exact ⟨[], by simp, by rw [append_nil]; rfl⟩
  · exact ⟨[.forget m (s.fsId v)], by simp, rfl⟩

theorem trimOne_refs (ht : s.trimOne depth p v = some t) (hmem : v ∈ s.children p) (u : ℕ) :
    t.refs u = if u = p then s.refs p - 1 else s.refs u := by
  obtain ⟨told, -, rfl⟩ := trimOne_eq ht
  simp only [refs, update_apply]
  grind

theorem Counted.trimOne (h : Counted s) (hlog : FewRequests s) (hv : v ∈ s.live)
    (hroot : s.isRoot v = false) (href : s.refCount v = 0) (hidle : ¬ s.vnodeInUse v)
    (hp : s.parent v = some p) (ht : s.trimOne depth p v = some t) : Counted t ∧ p ∈ t.live := by
  have hunused := h.unused hlog hv hroot href hidle
  have hnil := hunused.children
  have hacq := hunused.acquired
  obtain ⟨p', hplive, hp', hmem⟩ := h.inv.parent v hv hroot
  cases hp.symm.trans hp'
  have hrefs := trimOne_refs ht hmem
  have hpos : s.refs p ≠ 0 := by
    have := length_pos_of_mem hmem
    unfold refs
    omega
  obtain ⟨told, -, rfl⟩ := trimOne_eq ht
  obtain ⟨⟨⟨hvroot, href', hvnode, hnoVnode, hdead, hchild, hnodup, hparent, hmounts, hmounted,
    hfreed⟩, hkids⟩, hacqs⟩ := h
  refine ⟨⟨⟨⟨?_, ?_, ?_, ?_, ?_, ?_, ?_, ?_, ?_, ?_, ?_⟩, ?_⟩, hacqs⟩, ?_⟩
  · grind
  · grind [update_apply, sub64_mod_one]
  · grind [update_apply]
  · grind [update_apply]
  · grind
  · grind [update_apply]
  · grind [update_apply]
  · grind [update_apply]
  · grind
  · grind
  · grind
  · grind [update_apply]
  · grind

theorem trimLoop_cases {fuel : ℕ} (ht : trimLoop depth fuel s v = some t) :
    t = s ∨ ∃ n p s', fuel = n + 1 ∧ s.parent v = some p ∧ s.isRoot v = false ∧
      s.refCount v = 0 ∧ ¬ s.vnodeInUse v ∧ s.trimOne depth p v = some s' ∧
      trimLoop depth n s' p = some t := by
  cases fuel with
  | zero => cases ht
  | succ n =>
    rw [Vfs.trimLoop] at ht
    split at ht
    · cases ht
      exact .inl rfl
    next p hp =>
    split_ifs at ht with hstop huse
    · cases ht
      exact .inl rfl
    · cases ht
      exact .inl rfl
    · obtain ⟨hroot, href⟩ := not_or.mp hstop
      obtain ⟨s', hone, hrest⟩ := bind_eq_some_iff.mp ht
      exact .inr ⟨n, p, s', rfl, hp, Bool.eq_false_iff.mpr hroot, not_not.mp href, huse, hone, hrest⟩

/-- A trim sends nothing else than what it forgets. -/
theorem trimLoop_told {fuel : ℕ} : ∀ {s : Vfs} {v : ℕ}, trimLoop depth fuel s v = some t →
    ∃ told, (∀ r ∈ told, ∃ m id, r = FsRequest.forget m id) ∧ t.log = s.log ++ told := by
  induction fuel with
  | zero =>
    intro s v ht
    cases ht
  | succ fuel ih =>
    intro s v ht
    rcases trimLoop_cases ht with rfl | ⟨_, p, s', ⟨⟩, -, -, -, -, hone, hrest⟩
    · exact ⟨[], by simp⟩
    · obtain ⟨told, htold, rfl⟩ := trimOne_eq hone
      obtain ⟨told', htold', hlog⟩ := ih hrest
      refine ⟨told ++ told', fun r hr => ?_, by simp [hlog]⟩
      exact (mem_append.mp hr).elim (htold r) (htold' r)

theorem trimLoop_log {fuel : ℕ} (ht : trimLoop depth fuel s v = some t) : s.log <+: t.log := by
  obtain ⟨told, -, hlog⟩ := trimLoop_told ht
  exact ⟨told, hlog.symm⟩

theorem FewRequests.of_prefix (h : FewRequests t) (hlog : s.log <+: t.log) : FewRequests s :=
  hlog.length_le.trans_lt h

/-- A part of a call leads from `s` to `t`: it adds to the requests, and if they are few it keeps the
counts and gets from `P` to `Q`. -/
structure Leads (s t : Vfs) (P Q : Prop) : Prop where
  log : s.log <+: t.log
  counted : FewRequests t → Counted s → P → Counted t ∧ t.vroot = s.vroot ∧ Q

section

variable {P Q R : Prop}

theorem Leads.refl (h : Counted s → P → Q) : Leads s s P Q :=
  ⟨prefix_rfl, fun _ hs hp => ⟨hs, rfl, h hs hp⟩⟩

theorem Leads.request {r : FsRequest} (h : P → Q) : Leads s (s.request r) P Q :=
  ⟨prefix_append _ _, fun _ hs hp => ⟨hs.request r, rfl, h hp⟩⟩

theorem Leads.trans {t' : Vfs} (h : Leads s t P Q) (h' : Leads t t' Q R) : Leads s t' P R := by
  refine ⟨h.log.trans h'.log, fun hfew hs hp => ?_⟩
  obtain ⟨ht, hvroot, hq⟩ := h.counted (hfew.of_prefix h'.log) hs hp
  obtain ⟨ht', hvroot', hr⟩ := h'.counted hfew ht hq
  exact ⟨ht', hvroot'.trans hvroot, hr⟩

theorem Leads.weaken {A B : Prop} (h : Leads s t P Q) (hp : Counted s → A → P)
    (hq : A → t.vroot = s.vroot → Q → B) : Leads s t A B := by
  refine ⟨h.log, fun hfew hs ha => ?_⟩
  obtain ⟨ht, hvroot, hq'⟩ := h.counted hfew hs (hp hs ha)
  exact ⟨ht, hvroot, hq ha hvroot hq'⟩

end

theorem Leads.trimLoop {fuel : ℕ} (ht : trimLoop depth fuel s v = some t) :
    Leads s t (v ∈ s.live) True := by
  induction fuel generalizing s v with
  | zero => cases ht
  | succ fuel ih =>
    refine ⟨trimLoop_log ht, fun hfew h hv => ?_⟩
    have hlog := hfew.of_prefix (trimLoop_log ht)
    rcases trimLoop_cases ht with rfl | ⟨_, p, s', ⟨⟩, hp, hroot, href, huse, hone, hrest⟩
    · exact ⟨h, rfl, trivial⟩
    · obtain ⟨h', hp'⟩ := h.trimOne hlog hv hroot href huse hp hone
      obtain ⟨told, -, rfl⟩ := trimOne_eq hone
      exact (ih hrest).counted hfew h' hp'

theorem Anchored.live (h : CountInv s) (ha : Anchored s v) : v ∈ s.live := by
  induction ha with
  | vroot => exact h.vroot.1
  | child _ hc ih => exact (h.child _ ih _ hc).1
  | root _ hm ih => exact (h.root _ (h.mounted _ ih _ hm).1).1

theorem Anchored.parent (h : CountInv s) (ha : Anchored s v) (hp : s.parent v = some p) :
    Anchored s p := by
  cases ha with
  | vroot =>
    rw [h.vroot.2.2] at hp
    cases hp
  | child ha hc =>
    cases hp.symm.trans (h.child _ (ha.live h) _ hc).2.1
    exact ha
  | root ha hm =>
    cases hp.symm.trans (h.mounted _ (ha.live h) _ hm).2
    exact ha

theorem Anchored.parentOf (h : CountInv s) (ha : Anchored s cur) : Anchored s (s.parentOf cur) := by
  have hup : ∀ {u}, Anchored s u → Anchored s ((s.parent u).getD u) := by
    intro u hu
    cases hp : s.parent u with
    | none => exact hu
    | some p => exact hu.parent h hp
  unfold Vfs.parentOf
  cases hp : s.parent cur with
  | none => exact ha
  | some p =>
    split_ifs
    · exact hup (ha.parent h hp)
    · exact hup ha

theorem Anchored.cacheNode (h : CountInv s) (hv : v ∉ s.live) (hcur : cur ∈ s.live) (m : ℕ)
    (seg : Seg) (node : FsNode) (ha : Anchored s u) :
    Anchored (s.cacheNode v m cur seg node) u := by
  have hne : v ≠ cur := fun he => hv (he ▸ hcur)
  induction ha with
  | vroot => exact .vroot
  | child ha hc ih =>
    refine ih.child ?_
    rw [cacheNode_children hne]
    split_ifs with hpc hpv
    · exact mem_cons_of_mem _ (hpc ▸ hc)
    · exact absurd (hpv ▸ ha.live h) hv
    · exact hc
  | root ha hm ih =>
    refine ih.root ?_
    rw [cacheNode_mount, if_neg]
    · exact hm
    · rintro rfl
      exact hv (ha.live h)

theorem Anchored.request (ha : Anchored s v) (r : FsRequest) : Anchored (s.request r) v := by
  induction ha with
  | vroot => exact .vroot
  | child _ hc ih => exact ih.child hc
  | root _ hm ih => exact ih.root hm

section Walk

variable {depth : ℕ} {fs : FsAnswers} {salloc : Vfs → ℕ} {vent found : Option ℕ}

/-- What a lookup does: it stays in the tree, or asks the file system for a child. -/
inductive Lookup (fs : FsAnswers) (salloc : Vfs → ℕ) (s : Vfs) (m cur : ℕ) :
    Seg → Vfs → Option ℕ → Prop
  | dot : Lookup fs salloc s m cur dot s (some cur)
  | dotdot : Lookup fs salloc s m cur dotdot s (some (s.parentOf cur))
  | cached {seg : Seg} {c : ℕ} (hname : seg ≠ Toddler.dot ∧ seg ≠ Toddler.dotdot)
    (hc : s.cached cur seg = some c) : Lookup fs salloc s m cur seg s (some c)
  | missing {seg : Seg} {asked : Vfs} (hname : seg ≠ Toddler.dot ∧ seg ≠ Toddler.dotdot)
    (hc : s.cached cur seg = none) (hasked : asked = s.request (.lookup m (s.lookupId m cur) seg))
    (hanswer : fs.lookup s.log m (s.lookupId m cur) seg = none) :
    Lookup fs salloc s m cur seg asked none
  | new {seg : Seg} {asked : Vfs} {node : FsNode}
    (hname : seg ≠ Toddler.dot ∧ seg ≠ Toddler.dotdot) (hc : s.cached cur seg = none)
    (hasked : asked = s.request (.lookup m (s.lookupId m cur) seg))
    (hanswer : fs.lookup s.log m (s.lookupId m cur) seg = some node) :
    Lookup fs salloc s m cur seg (asked.cacheNode (salloc asked) m cur seg node)
      (some (salloc asked))

theorem lookupVentry_cases (ht : s.lookupVentry fs salloc m cur seg = (t, found)) :
    Lookup fs salloc s m cur seg t found := by
  unfold Vfs.lookupVentry lookupIpc at ht
  split_ifs at ht with hdot hdotdot
  · cases ht
    exact hdot ▸ .dot
  · cases ht
    exact hdotdot ▸ .dotdot
  · split at ht
    next c hc =>
      cases ht
      exact .cached ⟨hdot, hdotdot⟩ hc
    next hc =>
      dsimp only at ht
      split at ht
      next hanswer =>
        cases ht
        exact .missing ⟨hdot, hdotdot⟩ hc rfl hanswer
      next node hanswer =>
        cases ht
        exact .new ⟨hdot, hdotdot⟩ hc rfl hanswer

/-- The first segment of a walk that returns. -/
theorem walkLoop_cons_cases {segs : List Seg} {w : WalkEnd} {prev : ℕ}
    (hw : (walkLoop depth fs salloc (seg :: segs) s m prev).2 = some w) :
    ∃ t found, s.lookupVentry fs salloc m prev seg = (t, found) ∧
      ((∃ t', t.trimVentries depth prev = some t' ∧ w = ⟨t', m, none, []⟩) ∨
      ∃ c m' c', found = some c ∧ (t.mount c = none ∧ m' = m ∧ c' = c ∨
        t.mount c = some m' ∧ m' ≠ m ∧ c' = t.mountRoot m') ∧
        (w = ⟨t, m', some c', segs⟩ ∨ (walkLoop depth fs salloc segs t m' c').2 = some w)) := by
  rw [Vfs.walkLoop] at hw
  rcases hlookup : s.lookupVentry fs salloc m prev seg with ⟨t, _ | c⟩
  · rw [hlookup] at hw
    obtain ⟨t', htrim, rfl⟩ := map_eq_some_iff.mp hw
    exact ⟨t, none, rfl, .inl ⟨t', htrim, rfl⟩⟩
  · refine ⟨t, some c, rfl, .inr ?_⟩
    rw [hlookup] at hw
    dsimp only at hw
    cases hm : t.mount c with
    | none =>
      rw [hm] at hw
      refine ⟨c, m, c, rfl, .inl ⟨hm, rfl, rfl⟩, ?_⟩
      split_ifs at hw
      · cases hw
        exact .inl rfl
      · exact .inr hw
    | some m' =>
      rw [hm] at hw
      dsimp only at hw
      split_ifs at hw with hsame
      · refine ⟨c, m', _, rfl, .inr ⟨hm, hsame, rfl⟩, ?_⟩
        cases hw
        exact .inl rfl
      · exact ⟨c, m', _, rfl, .inr ⟨hm, hsame, rfl⟩, .inr hw⟩

section

variable (hsalloc : ∀ s : Vfs, salloc s ∉ s.live)
include hsalloc

/-- A lookup leaves the counts exact, and gets to a ventry that can be reached. -/
theorem CountInv.lookupVentry (h : CountInv s) (ha : Anchored s cur) (m : ℕ) (seg : Seg)
    (ht : s.lookupVentry fs salloc m cur seg = (t, found)) :
    CountInv t ∧ t.vroot = s.vroot ∧ Anchored t cur ∧ ∀ c ∈ found, Anchored t c := by
  have hlive := ha.live h
  cases lookupVentry_cases ht with
  | dot => exact ⟨h, rfl, ha, by rintro _ ⟨⟩; exact ha⟩
  | dotdot => exact ⟨h, rfl, ha, by rintro _ ⟨⟩; exact ha.parentOf h⟩
  | cached _ hc => exact ⟨h, rfl, ha, by rintro _ ⟨⟩; exact ha.child (mem_of_find?_eq_some hc)⟩
  | missing _ _ hasked => exact hasked ▸ ⟨h.request _, rfl, ha.request _, by rintro c ⟨⟩⟩
  | @new _ asked node _ _ hasked _ =>
    have hasked' : CountInv asked := hasked ▸ h.request _
    have hlive' : cur ∈ asked.live := hasked ▸ hlive
    have ha' : Anchored asked cur := hasked ▸ ha.request _
    have hfresh := hsalloc asked
    have hcur := ha'.cacheNode hasked' hfresh hlive' m seg node
    refine ⟨hasked'.cacheNode hfresh hlive' m seg node, hasked ▸ rfl, hcur, ?_⟩
    rintro c ⟨⟩
    refine hcur.child ?_
    rw [cacheNode_children (ne_of_mem_of_not_mem hlive' hfresh).symm, if_pos rfl]
    exact mem_cons_self

theorem Leads.lookupVentry (ht : s.lookupVentry fs salloc m cur seg = (t, found)) :
    Leads s t (Anchored s cur) (Anchored t cur ∧ ∀ c ∈ found, Anchored t c) := by
  have hlog : s.log <+: t.log := by
    cases lookupVentry_cases ht with
    | dot => exact prefix_rfl
    | dotdot => exact prefix_rfl
    | cached => exact prefix_rfl
    | missing _ _ hasked => exact hasked ▸ prefix_append _ _
    | new _ _ hasked => exact hasked ▸ prefix_append _ _
  refine ⟨hlog, fun _ h ha => ?_⟩
  have hlive := ha.live h.inv
  obtain ⟨hinv, hvroot, hanchored⟩ := h.inv.lookupVentry hsalloc ha m seg ht
  refine ⟨?_, hvroot, hanchored⟩
  cases lookupVentry_cases ht with
  | dot => exact h
  | dotdot => exact h
  | cached => exact h
  | missing _ _ hasked => exact hasked ▸ h.request _
  | @new _ asked node _ _ hasked _ =>
    have hlive' : cur ∈ asked.live := hasked ▸ hlive
    have hkids : ∀ v ∈ asked.live, (asked.children v).length < asked.log.length := by
      intro v hv
      have := h.kids v (by rwa [hasked] at hv)
      simp only [hasked, Vfs.request, length_append, length_singleton]
      omega
    refine ⟨⟨hinv, fun v hv => ?_⟩, fun v => ?_⟩
    · rw [cacheNode_children (ne_of_mem_of_not_mem hlive' (hsalloc asked)).symm]
      show _ ≤ asked.log.length
      have hv' := mem_cons.mp hv
      grind
    · show asked.acquired v < word
      rw [hasked]
      exact h.acquired v

/-- The loop of a walk. The induction is on the segments left. -/
theorem Leads.walkLoop : ∀ (segs : List Seg) {s : Vfs} {m prev : ℕ} {w : WalkEnd},
    (walkLoop depth fs salloc segs s m prev).2 = some w →
      Leads s w.vfs (Anchored s prev) (∀ v ∈ w.vent, v ∈ w.vfs.live) := by
  intro segs
  induction segs with
  | nil =>
    intro s m prev w hw
    cases hw
    refine .refl ?_
    rintro h ha v ⟨⟩
    exact ha.live h.inv
  | cons seg segs ih =>
    intro s m prev w hw
    obtain ⟨t, found, hlookup, hcases⟩ := walkLoop_cons_cases hw
    refine (Leads.lookupVentry hsalloc hlookup).trans ?_
    rcases hcases with ⟨t', htrim, rfl⟩ | ⟨c, m', c', rfl, hc', hw⟩
    · exact (Leads.trimLoop htrim).weaken (fun h ha => ha.1.live h.inv) (by rintro - - - v ⟨⟩)
    have hanchor : (Anchored t prev ∧ ∀ x ∈ some c, Anchored t x) → Anchored t c' := by
      rintro ⟨-, hfound⟩
      rcases hc' with ⟨-, -, rfl⟩ | ⟨hm, -, rfl⟩
      · exact hfound _ rfl
      · exact (hfound c rfl).root hm
    rcases hw with rfl | hw
    · refine .refl ?_
      rintro h ha v ⟨⟩
      exact (hanchor ha).live h.inv
    · exact (ih hw).weaken (fun _ => hanchor) fun _ _ hlive => hlive

/-- What a walk has sent it does not take back. -/
theorem walkLoop_cons_log {segs : List Seg} {w : WalkEnd} {prev : ℕ}
    (hw : (Vfs.walkLoop depth fs salloc (seg :: segs) s m prev).2 = some w) :
    (s.lookupVentry fs salloc m prev seg).1.log <+: w.vfs.log := by
  obtain ⟨t, found, hlookup, hcases⟩ := walkLoop_cons_cases hw
  rw [hlookup]
  rcases hcases with ⟨t', htrim, rfl⟩ | ⟨c, m', c', -, -, rfl | hw⟩
  · exact trimLoop_log htrim
  · exact prefix_rfl
  · exact (Leads.walkLoop hsalloc segs hw).log

theorem Leads.tryWalkPath {root : ℕ} {segs left : List Seg}
    (ht : (s.tryWalkPath depth fs salloc root segs).2 = some (t, vent, left)) :
    Leads s t (root = s.vroot) (root = t.vroot ∧ ∀ v ∈ vent, v ∈ t.live) := by
  unfold Vfs.tryWalkPath at ht
  cases hm : s.mount root with
  | none =>
    rw [hm] at ht
    cases ht
    exact .refl fun _ hroot => ⟨hroot, by rintro v ⟨⟩⟩
  | some m =>
    have hanchor : root = s.vroot → Anchored s (s.mountRoot m) := fun h => Anchored.vroot.root (h ▸ hm)
    rw [hm] at ht
    split_ifs at ht
    · cases ht
      refine .refl fun h hroot => ⟨hroot, ?_⟩
      rintro v ⟨⟩
      exact (hanchor hroot).live h.inv
    · obtain ⟨w, hw, heq⟩ := map_eq_some_iff.mp ht
      cases heq
      exact (Leads.walkLoop hsalloc segs hw).weaken (fun _ => hanchor) fun hroot hvroot hlive =>
        ⟨hroot.trans hvroot.symm, hlive⟩

end

/-- A round of the loop that follows symlinks. -/
theorem followLoop_cases {levels root : ℕ} {path : List UInt8} {left : List Seg} {vent' : Option ℕ}
    (ht : (followLoop depth fs salloc levels s root vent path left).2 = some (t, vent')) :
    (t = s ∧ vent' = vent) ∨ ∃ v asked trimmed, vent = some v ∧ (asked = s ∨ ∃ r, asked = s.request r) ∧
      asked.trimVentries depth v = some trimmed ∧ (t = trimmed ∧ vent' = none ∨
        ∃ n path' segs' walked vent'' left', levels = n + 1 ∧
          (trimmed.tryWalkPath depth fs salloc root segs').2 = some (walked, vent'', left') ∧
          (followLoop depth fs salloc n walked root vent'' path' left').2 = some (t, vent')) := by
  rcases vent with _ | v
  · rw [followLoop.eq_def] at ht
    cases ht
    exact .inl ⟨rfl, rfl⟩
  rw [followLoop.eq_def] at ht
  dsimp only at ht
  split_ifs at ht with hlink
  · right
    cases hread : s.symlinkReadToBuf fs v with
    | none => simp [hread] at ht
    | some r =>
      obtain ⟨asked, link⟩ := r
      have hasked : asked = s ∨ ∃ r, asked = s.request r := by
        simp only [symlinkReadToBuf, bind_eq_bind, bind_eq_some_iff] at hread
        obtain ⟨m, -, hread⟩ := hread
        split_ifs at hread
        · cases hread
          exact .inl rfl
        · obtain ⟨_, -, heq⟩ := map_eq_some_iff.mp hread
          cases heq
          exact .inr ⟨_, rfl⟩
      rw [hread] at ht
      dsimp only at ht
      split_ifs at ht
      cases htrim : asked.trimVentries depth v with
      | none => simp [htrim] at ht
      | some trimmed =>
        refine ⟨v, asked, trimmed, rfl, hasked, htrim, ?_⟩
        rw [htrim] at ht
        cases levels with
        | zero =>
          cases ht
          exact .inl ⟨rfl, rfl⟩
        | succ n =>
          right
          dsimp only at ht
          split at ht
          · cases ht
          next walked vent'' left' hwalk => exact ⟨n, _, _, walked, vent'', left', rfl, hwalk, ht⟩
  · cases ht
    exact .inl ⟨rfl, rfl⟩

section

variable (hsalloc : ∀ s : Vfs, salloc s ∉ s.live)
include hsalloc

/-- Following symlinks. The induction is on the levels left. -/
theorem Leads.followLoop : ∀ (levels : ℕ) {s : Vfs} {root : ℕ} {vent vent' : Option ℕ}
    {path : List UInt8} {left : List Seg},
    (followLoop depth fs salloc levels s root vent path left).2 = some (t, vent') →
      Leads s t (root = s.vroot ∧ ∀ v ∈ vent, v ∈ s.live) (∀ v ∈ vent', v ∈ t.live) := by
  intro levels
  induction levels using Nat.strong_induction_on with
  | _ levels ih =>
    intro s root vent vent' path left ht
    rcases followLoop_cases ht with ⟨rfl, rfl⟩ | ⟨v, asked, trimmed, rfl, hasked, htrim, hcases⟩
    · exact .refl fun _ h => h.2
    have hask : Leads s asked (root = s.vroot ∧ ∀ u ∈ some v, u ∈ s.live)
        (root = asked.vroot ∧ v ∈ asked.live) := by
      rcases hasked with rfl | ⟨r, rfl⟩
      · exact .refl fun _ h => ⟨h.1, h.2 v rfl⟩
      · exact .request fun h => ⟨h.1, h.2 v rfl⟩
    have hkeep := hask.trans ((Leads.trimLoop htrim).weaken (B := root = trimmed.vroot)
      (fun _ h => h.2) fun h hvroot _ => h.1.trans hvroot.symm)
    rcases hcases with ⟨rfl, rfl⟩ | ⟨n, _, _, walked, _, _, hn, hwalk, hrest⟩
    · exact hkeep.weaken (fun _ h => h) (by rintro - - - v ⟨⟩)
    · exact (hkeep.trans (Leads.tryWalkPath hsalloc hwalk)).trans (ih n (by omega) hrest)

theorem Leads.walkPath {path : List UInt8}
    (ht : (s.walkPath depth fs salloc s.vroot path).2 = some (t, vent)) :
    Leads s t True (∀ v ∈ vent, v ∈ t.live) := by
  unfold Vfs.walkPath at ht
  split at ht
  · cases ht
  next walked vent' left hwalk =>
    exact ((Leads.tryWalkPath hsalloc hwalk).trans (Leads.followLoop hsalloc 9 ht)).weaken
      (fun _ _ => rfl) fun _ _ hlive => hlive

end

theorem needVnode_cases (ht : s.needVnode depth fs v = some t) :
    t = s ∨ ∃ asked r, asked = s.request r ∧
    (t = asked ∨ s.vnode v = none ∧ ∃ node : VentVnode, node.openCount = 0 ∧
      t = { asked with vnode := update asked.vnode v (some node) }) := by
  unfold Vfs.needVnode at ht
  split_ifs at ht with hsome
  · cases ht
    exact .inl rfl
  simp only [acquireIpc, bind_eq_bind, bind_eq_some_iff] at ht
  obtain ⟨m, -, ht⟩ := ht
  refine .inr ⟨_, .acquire m (s.fsId v), rfl, ?_⟩
  split at ht
  · cases ht
    exact .inl rfl
  · cases ht
    exact .inr ⟨by simpa using hsome, _, rfl, rfl⟩

theorem Leads.needVnode (ht : s.needVnode depth fs v = some t) :
    Leads s t (v ∈ s.live) (v ∈ t.live) := by
  rcases needVnode_cases ht with rfl | ⟨_, r, rfl, rfl | ⟨hnone, node, hopen, rfl⟩⟩
  · exact .refl fun _ hv => hv
  · exact .request fun hv => hv
  · refine ⟨prefix_append _ _, fun _ h hv => ⟨?_, rfl, hv⟩⟩
    have hacq := h.inv.noVnode v hv hnone
    obtain ⟨⟨⟨hvroot, href, hvnode, hnoVnode, hdead, hchild, hnodup, hparent, hmounts, hmounted,
      hfreed⟩, hkids⟩, hacqs⟩ := h.request r
    have hsame : (s.request r).acquired = s.acquired := rfl
    refine ⟨⟨⟨hvroot, href, ?_, ?_, hdead, hchild, hnodup, hparent, hmounts, hmounted, hfreed⟩,
      hkids⟩, hacqs⟩
    · grind [update_apply, Nat.zero_mod]
    · grind [update_apply]

/-- The counts after a change of the acquisitions of one ventry. -/
theorem CountInv.recount (h : CountInv s) (hv : v ∈ s.live) {vn : VentVnode} {k r : ℕ}
    (hopen : vn.openCount = k % word)
    (hr : r = ((s.children v).length + k + if s.isRoot v then 1 else 0) % word) :
    CountInv { s with
      vnode := update s.vnode v (some vn)
      acquired := update s.acquired v k
      refCount := update s.refCount v r } := by
  obtain ⟨hvroot, href, hvnode, hnoVnode, hdead, hchild, hnodup, hparent, hmounts, hmounted,
    hfreed⟩ := h
  refine ⟨hvroot, ?_, ?_, ?_, ?_, hchild, hnodup, hparent, hmounts, hmounted, hfreed⟩
  · grind [update_apply, refs]
  · grind [update_apply]
  · grind [update_apply]
  · grind [update_apply]

theorem CallInv.counted (h : CallInv s) (hrefs : FewRefs s) : Counted s := by
  refine ⟨h, fun v => ?_⟩
  by_cases hv : v ∈ s.live
  · have := hrefs v hv
    unfold refs at this
    omega
  · rw [h.inv.dead v hv]
    exact Nat.two_pow_pos 64

theorem Counted.vfsAcquire (hsalloc : ∀ s : Vfs, salloc s ∉ s.live) (h : Counted s)
    {path : List UInt8} (ht : s.vfsAcquire depth fs salloc path = some (t, vent))
    (hfew : FewRequests t) : CallInv t := by
  simp only [Vfs.vfsAcquire, bind_eq_bind, bind_eq_some_iff] at ht
  obtain ⟨⟨s₁, found⟩, hwalk, ht⟩ := ht
  have hwalked := Leads.walkPath hsalloc hwalk
  cases found with
  | none =>
    cases ht
    exact (hwalked.counted hfew h trivial).1.toCallInv
  | some v =>
    obtain ⟨s₂, hneed, ht⟩ := bind_eq_some_iff.mp ht
    have hneeded := (hwalked.weaken (fun _ h => h) fun _ _ hlive => hlive v rfl).trans
      (Leads.needVnode hneed)
    split at ht
    · obtain ⟨s₃, htrim, heq⟩ := map_eq_some_iff.mp ht
      cases heq
      exact ((hneeded.trans (Leads.trimLoop htrim)).counted hfew h trivial).1.toCallInv
    next vn hvnode =>
      cases ht
      obtain ⟨h₂, -, hv⟩ := hneeded.counted hfew h trivial
      refine ⟨h₂.inv.recount (k := s₂.acquired v + 1) hv ?_ ?_, h₂.kids⟩
      · show add64 vn.openCount 1 = _
        rw [h₂.inv.vnode v hv vn hvnode, add64_mod_one]
      · show add64 (s₂.refCount v) 1 = _
        rw [h₂.inv.ref v hv, add64_mod_one, refs]
        congr 1
        omega

theorem Counted.vfsRelease (h : Counted s) (hacq : s.acquired v ≠ 0)
    (ht : s.vfsRelease depth v = some t) (hfew : FewRequests t) : CallInv t := by
  have hv : v ∈ s.live := by
    by_contra hv
    exact hacq (h.inv.dead v hv)
  simp only [Vfs.vfsRelease, bind_eq_bind, bind_eq_some_iff] at ht
  obtain ⟨vn, hvnode, ht⟩ := ht
  have hcount : Counted (s.countRelease v vn) := by
    refine ⟨⟨h.inv.recount hv ?_ ?_, h.kids⟩, fun u => ?_⟩
    · show sub64 vn.openCount 1 = _
      rw [h.inv.vnode v hv vn hvnode, sub64_mod_one hacq]
    · show sub64 (s.refCount v) 1 = _
      rw [h.inv.ref v hv, sub64_mod_one (by unfold refs; omega), refs]
      congr 1
      omega
    · show update s.acquired v (s.acquired v - 1) u < word
      have := h.acquired
      grind [update_apply]
  have hsent : Counted ((s.countRelease v vn).releaseIpc v vn) ∧
      v ∈ ((s.countRelease v vn).releaseIpc v vn).live := by
    unfold releaseIpc
    split_ifs
    · exact ⟨hcount, hv⟩
    · exact ⟨hcount.request _, hv⟩
  split_ifs at ht
  · exact ((Leads.trimLoop ht).counted hfew hsent.1 hsent.2).1.toCallInv
  · cases ht
    exact hsent.1.toCallInv

end Walk

section Mount

variable {vent root ignore rootFsId : ℕ}

theorem addMount_parent :
    (s.addMount vent root ignore rootFsId).parent u = if u = root then some vent
    else s.parent u := by
  simp only [addMount, newVentry, update_apply]
  split_ifs <;> rfl

theorem addMount_isRoot : (s.addMount vent root ignore rootFsId).isRoot u = if u = root then true
    else s.isRoot u := by
  simp only [addMount, newVentry, update_apply]
  split_ifs <;> rfl

theorem addMount_children :
    (s.addMount vent root ignore rootFsId).children u = if u = root then [] else s.children u := by
  simp only [addMount, newVentry, update_apply]

theorem addMount_vnode : (s.addMount vent root ignore rootFsId).vnode u = if u = root
    then none else s.vnode u := by
  simp only [addMount, newVentry, update_apply]

theorem addMount_refCount :
    (s.addMount vent root ignore rootFsId).refCount u = if u = root then 1 else s.refCount u := by
  simp only [addMount, newVentry, update_apply]
  split_ifs <;> rfl

theorem addMount_mountRoot (vent root ignore rootFsId k : ℕ) :
    (s.addMount vent root ignore rootFsId).mountRoot k = if k = s.numMounts then root
    else s.mountRoot k := by
  simp only [addMount, newVentry, update_apply]

theorem addMount_mount :
    (s.addMount vent root ignore rootFsId).mount u =
      if u = root then none else if u = vent then some s.numMounts else s.mount u := by
  simp only [addMount, newVentry, update_apply]

theorem addMount_refs : (s.addMount vent root ignore rootFsId).refs u =
    if u = root then s.acquired root + 1 else s.refs u := by
  have hacq : (s.addMount vent root ignore rootFsId).acquired = s.acquired := rfl
  unfold refs
  rw [addMount_children, addMount_isRoot, hacq]
  grind

theorem CountInv.addMount (h : CountInv s) (hroot : root ∉ s.live) :
    CountInv (s.addMount vent root ignore rootFsId) := by
  have hlive : (s.addMount vent root ignore rootFsId).live = root :: s.live := rfl
  have hacq : (s.addMount vent root ignore rootFsId).acquired = s.acquired := rfl
  have hvroot : (s.addMount vent root ignore rootFsId).vroot = s.vroot := rfl
  have hnumMounts : (s.addMount vent root ignore rootFsId).numMounts = s.numMounts + 1 := rfl
  have hone : 1 % word = 1 := rfl
  obtain ⟨hvroot', href, hvnode, hnoVnode, hdead, hchild, hnodup, hparent, hmounts, hmounted,
    hfreed⟩ := h
  refine ⟨?_, ?_, ?_, ?_, ?_, ?_, ?_, ?_, ?_, ?_, hfreed⟩
  · grind [addMount_isRoot, addMount_parent]
  · grind [addMount_refCount, addMount_refs]
  · grind [addMount_vnode]
  · grind [addMount_vnode]
  · grind
  · grind [addMount_children, addMount_parent, addMount_isRoot]
  · grind [addMount_children]
  · grind [addMount_children, addMount_parent, addMount_isRoot]
  · grind [addMount_isRoot, addMount_mountRoot]
  · grind [addMount_parent, addMount_mountRoot, addMount_mount]

theorem CallInv.vfsMountOn {fs : FsAnswers} (hsalloc : ∀ s : Vfs, salloc s ∉ s.live)
    (h : CallInv s) (vent : Option ℕ) (pid opcode ignore : ℕ) :
    CallInv (s.vfsMountOn fs salloc vent pid opcode ignore).1 := by
  unfold Vfs.vfsMountOn
  dsimp only
  split_ifs
  · exact h
  · exact h
  cases fs.mount s.log pid opcode with
  | none => exact h.request _
  | some rootFsId =>
    have hsent := h.request (.mount pid opcode)
    refine ⟨hsent.inv.addMount (hsalloc _), fun v hv => ?_⟩
    rw [addMount_children]
    split_ifs with hroot
    · exact Nat.zero_le _
    · exact hsent.kids v (mem_of_ne_of_mem hroot hv)

end Mount

theorem CallInv.step (hsalloc : ∀ s : Vfs, salloc s ∉ s.live) (h : CallInv s) (hrefs : FewRefs s)
    {call : VfsCall} (hfew : FewRequests t) (ht : vfsCall salloc s call = some t) : CallInv t := by
  cases call with
  | acquire depth fs path =>
    obtain ⟨⟨t', vent⟩, hacquire, rfl⟩ := map_eq_some_iff.mp ht
    exact (h.counted hrefs).vfsAcquire hsalloc hacquire hfew
  | release depth v =>
    simp only [vfsCall] at ht
    split_ifs at ht with hacq
    exact (h.counted hrefs).vfsRelease hacq ht hfew
  | mount fs vent pid opcode ignore =>
    simp only [vfsCall] at ht
    split_ifs at ht
    cases ht
    exact h.vfsMountOn hsalloc vent pid opcode ignore

theorem CallInv.init (h : NoVfs s) : CallInv s.initVfs := by
  have hlive : s.initVfs.live = [s.vroot] := congrArg (s.vroot :: ·) h.live
  have hkids : s.initVfs.children s.vroot = [] := update_self _ _ _
  have hvnode : s.initVfs.vnode s.vroot = none := update_self _ _ _
  have hmount : s.initVfs.mount s.vroot = none := update_self _ _ _
  have hroot : s.initVfs.isRoot s.vroot = true := update_self _ _ _
  have href : s.initVfs.refCount s.vroot = 1 := update_self _ _ _
  have hparent : s.initVfs.parent s.vroot = none := update_self _ _ _
  have hacq : ∀ v, s.initVfs.acquired v = 0 := h.acquired
  have hvroot : s.initVfs.vroot = s.vroot := rfl
  have hnum : s.initVfs.numMounts = 0 := h.numMounts
  have hfreed : s.initVfs.freed = [] := h.freed
  have hone : 1 % word = 1 := rfl
  refine ⟨⟨?_, ?_, ?_, ?_, ?_, ?_, ?_, ?_, ?_, ?_, ?_⟩, ?_⟩ <;> grind [refs]

end Vfs

theorem vfsStep_eq {s : Vfs} {call : VfsCall} : vfsStep salloc s call = some t ↔
    vfsCall salloc s call = some t ∧ t.FewRefs ∧ t.FewRequests := by
  simp [vfsStep, filter_eq_some_iff]

theorem fewRefs_initVfs {s : Vfs} (h : NoVfs s) : s.initVfs.FewRefs := by
  intro v hv
  have hlive : s.initVfs.live = [s.vroot] := congrArg (s.vroot :: ·) h.live
  cases mem_singleton.mp (hlive ▸ hv)
  simp [refs, initVfs, newVentry, h.acquired, word]

theorem Vfs.CountInv.of_reach (hsalloc : ∀ s : Vfs, salloc s ∉ s.live) {s₀ s : Vfs}
    (h₀ : NoVfs s₀) (hreach : Reach (vfsStep salloc) anyStep s₀.initVfs s) : s.CountInv := by
  have hrun := hreach.invariant (I := fun s => CallInv s ∧ FewRefs s)
    ⟨CallInv.init h₀, fewRefs_initVfs h₀⟩ fun u call t h _ ht => by
      obtain ⟨hcall, hrefs, hfew⟩ := vfsStep_eq.mp ht
      exact ⟨h.1.step hsalloc h.2 hfew hcall, hrefs⟩
  exact hrun.1.inv

def nestedFs : FsAnswers where
  lookup _ _ id name := if name = [0x61] then some ⟨id + 1, NodeType.dir.code⟩ else none
  acquire _ _ id := some ⟨id, NodeType.dir.code⟩
  symlinkRead _ _ _ := none
  mount _ _ _ := some 1

def noVfs : Vfs where
  vroot := 0
  live := []
  parent _ := none
  children _ := []
  isRoot _ := false
  isSymlink _ := false
  name _ := []
  fsId _ := 0
  fromMount _ := none
  mount _ := none
  vnode _ := none
  refCount _ := 0
  numMounts := 0
  mountRoot _ := 0
  mountRootFsId _ := 0
  opsIgnoreMap _ := 0
  log := []
  acquired _ := 0
  freed := []

def sallocAbove (s : Vfs) : ℕ := s.live.foldr max 0 + 1

theorem sallocAbove_fresh (s : Vfs) : sallocAbove s ∉ s.live := by
  intro hmem
  have hle : sallocAbove s ≤ s.live.foldr max 0 := le_max_of_le' 0 hmem le_rfl
  exact absurd hle (Nat.not_succ_le_self _)

def mountedVfs : Vfs := (noVfs.initVfs.vfsMountOn nestedFs sallocAbove none 1 1 0).1

/-- Opens `/a/a` and `/a`, fails to open `/a/b`, and closes `/a/a`. -/
def openCloseCalls : List VfsCall :=
  [.mount nestedFs none 1 1 0, .acquire 8 nestedFs [0x2f, 0x61, 0x2f, 0x61],
    .acquire 8 nestedFs [0x2f, 0x61], .acquire 8 nestedFs [0x2f, 0x61, 0x2f, 0x62], .release 8 3]

def mountOnA : List VfsCall :=
  [.mount nestedFs none 1 1 0, .acquire 8 nestedFs [0x2f, 0x61], .mount nestedFs (some 2) 2 2 0]

/-- A walk from the root over children, mounts and parents meets no ventry that is freed. -/
theorem anchored_ventries_live {salloc : Vfs → ℕ} (hsalloc : ∀ s : Vfs, salloc s ∉ s.live)
    {s₀ s : Vfs} (h₀ : NoVfs s₀) (hreach : Reach (vfsStep salloc) anyStep s₀.initVfs s) {v : ℕ}
    (hv : Anchored s v) :
    v ∈ s.live ∧ ∀ p, s.parent v = some p → Anchored s p ∧ p ∈ s.live := by
  have hinv := CountInv.of_reach hsalloc h₀ hreach
  refine ⟨hv.live hinv, fun p hp => ?_⟩
  have hparent := hv.parent hinv hp
  exact ⟨hparent, hparent.live hinv⟩

theorem anchored_ventries_live_of_openClose :
    ∃ s, Reach (vfsStep sallocAbove) anyStep noVfs.initVfs s ∧ s.freed.length = 1 ∧
    s.vroot ∈ s.live := by
  refine exists_reach_of (P := fun s => s.freed.length = 1) openCloseCalls (by decide +kernel) fun s
    hs hfreed => ?_
  exact ⟨hfreed, (anchored_ventries_live sallocAbove_fresh ⟨rfl, fun _ => rfl, rfl,
    rfl⟩ hs .vroot).1⟩

end Toddler
