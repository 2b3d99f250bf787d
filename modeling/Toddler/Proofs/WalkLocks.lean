import Toddler.Proofs.PathPlaces

/-! Locks of a walk. `_try_walk_path` hands the lock of a mount over to that of the next mount that
it lands on, and a path that lands on the same mount twice in a row makes it ask for a lock that it
holds. No other path does. -/

namespace Toddler

open List

namespace Vfs

/-- The operations of a walk that holds the lock of `m` and lands on the mounts. -/
def handOvers : ℕ → List ℕ → List LockOp
  | _, [] => []
  | m, m' :: mounts => .wlock (.mount m') :: .wunlock (.mount m) :: handOvers m' mounts

variable {m : ℕ} {mounts : List ℕ} {pre post fin : List LockOp} {vent : Option ℕ}

/-- Where a trace of hand-overs can be cut. -/
theorem handOvers_split (h : handOvers m mounts ++ fin = pre ++ post) :
    (∃ done left, mounts = done ++ left ∧ pre = handOvers m done ∧
    post = handOvers (done.getLastD m) left ++ fin) ∨
    (∃ done m' left, mounts = done ++ m' :: left ∧ pre = handOvers m done ++ [.wlock (.mount m')] ∧
      post = .wunlock (.mount (done.getLastD m)) :: (handOvers m' left ++ fin)) ∨
    ∃ fin', pre = handOvers m mounts ++ fin' ∧ fin = fin' ++ post := by
  induction mounts generalizing m pre with
  | nil => exact .inr (.inr ⟨pre, rfl, h⟩)
  | cons m' mounts ih =>
    cases pre with
    | nil => exact .inl ⟨[], m' :: mounts, rfl, rfl, h.symm⟩
    | cons op pre =>
      rw [handOvers, cons_append, cons_append, cons_append, cons.injEq] at h
      obtain ⟨rfl, h⟩ := h
      cases pre with
      | nil => exact .inr (.inl ⟨[], m', mounts, rfl, rfl, h.symm⟩)
      | cons op pre =>
        rw [cons_append, cons.injEq] at h
        obtain ⟨rfl, h⟩ := h
        rcases ih h with ⟨done, left, rfl, rfl, rfl⟩ | ⟨done, m'', left, rfl, rfl, rfl⟩ | ⟨fin', rfl, rfl⟩
        · exact .inl ⟨m' :: done, left, rfl, rfl, by rw [getLastD_cons]⟩
        · exact .inr (.inl ⟨m' :: done, m'', left, rfl, rfl, by rw [getLastD_cons]⟩)
        · exact .inr (.inr ⟨fin', rfl, rfl⟩)

/-- After hand-overs between different mounts one lock is held. -/
theorem held_handOvers (h : (m :: mounts).IsChain (· ≠ ·)) :
    (handOvers m mounts).foldl LockOp.apply [.mount m] = [.mount (mounts.getLastD m)] := by
  induction mounts generalizing m with
  | nil => rfl
  | cons m' mounts ih =>
    obtain ⟨hne, hrest⟩ := isChain_cons_cons.mp h
    rw [handOvers, getLastD_cons, ← ih hrest]
    simp [LockOp.apply, hne.symm]

theorem heldAfter_handOvers (h : (m :: mounts).IsChain (· ≠ ·)) :
    heldAfter (.wlock (.mount m) :: handOvers m mounts) = [.mount (mounts.getLastD m)] :=
  held_handOvers h

theorem isChain_take {done left : List ℕ} (h : (m :: (done ++ left)).IsChain (· ≠ ·)) :
    (m :: done).IsChain (· ≠ ·) := by
  exact h.left_of_append

theorem isChain_next {done left : List ℕ} {m' : ℕ}
    (h : (m :: (done ++ m' :: left)).IsChain (· ≠ ·)) : m' ≠ done.getLastD m := by
  induction done generalizing m with
  | nil => exact (isChain_cons_cons.mp h).1.symm
  | cons d done ih =>
    rw [getLastD_cons]
    exact ih (isChain_cons_cons.mp h).2

theorem walkDone_split {w : WalkEnd} (h : walkDone w = pre ++ post) (hpost : post ≠ []) :
    pre = [] ∨ ∃ v, pre = [.wlock (.vent v)] := by
  cases pre with
  | nil => exact .inl rfl
  | cons op pre =>
    cases hvent : w.vent with
    | none =>
      simp only [walkDone, hvent, Option.map_none, Option.toList_none, nil_append, cons_append,
        cons.injEq, nil_eq, append_eq_nil_iff] at h
      exact absurd h.2.2 hpost
    | some v =>
      simp only [walkDone, hvent, Option.map_some, Option.toList_some, cons_append, nil_append,
        cons.injEq] at h
      obtain ⟨rfl, h⟩ := h
      cases pre with
      | nil => exact .inr ⟨v, rfl⟩
      | cons op pre =>
        rw [cons_append, cons.injEq] at h
        exact absurd (append_eq_nil_iff.mp h.2.symm).2 hpost

/-- The walk of the empty path takes no lock of a mount. -/
theorem lockDiscipline_vent (v : ℕ) : LockDiscipline [.wlock (.vent v)] (some v) := by
  refine ⟨fun pre m post hsplit => ?_, fun pre post hsplit ⟨m, hmem⟩ => ?_, rfl⟩
  · have hmem : LockOp.wlock (.mount m) ∈ [LockOp.wlock (.vent v)] := by simp [hsplit]
    simp at hmem
  · have hmem' : LockOp.wlock (.mount m) ∈ [LockOp.wlock (.vent v)] := by simp [hsplit, hmem]
    simp at hmem'

/-- A walk that lands on different mounts in a row keeps the discipline. -/
theorem lockDiscipline_handOvers (h : (m :: mounts).IsChain (· ≠ ·)) (w : WalkEnd)
    (hw : w.mount = mounts.getLastD m) :
    LockDiscipline (.wlock (.mount m) :: handOvers m mounts ++ walkDone w) w.vent := by
  -- what is held when the hand-overs in `done` are made
  have hheld : ∀ {done left}, mounts = done ++ left →
      heldAfter (.wlock (.mount m) :: handOvers m done) = [.mount (done.getLastD m)] := by
    rintro done left rfl
    exact heldAfter_handOvers (isChain_take h)
  have hdone : ∀ ops, heldAfter (.wlock (.mount m) :: (handOvers m mounts ++ ops)) =
      ops.foldl LockOp.apply [.mount w.mount] := by
    intro ops
    rw [hw, ← heldAfter_handOvers h, ← cons_append, heldAfter, foldl_append]
    rfl
  refine ⟨?_, ?_, ?_⟩
  · intro pre m' post hsplit
    cases pre with
    | nil => exact not_mem_nil
    | cons op pre =>
      rw [cons_append, cons_append, cons.injEq] at hsplit
      obtain ⟨rfl, hsplit⟩ := hsplit
      rcases handOvers_split hsplit with ⟨done, left, hm, rfl, hpost⟩ | ⟨done, m'', left, -, -,
        hpost⟩ | ⟨fin', -, hfin⟩
      · cases left with
        | nil =>
          exfalso
          cases hvent : w.vent with
          | none => simp [handOvers, walkDone, hvent] at hpost
          | some v => simp [handOvers, walkDone, hvent] at hpost
        | cons next left =>
          rw [handOvers, cons_append, cons.injEq] at hpost
          obtain ⟨hop, -⟩ := hpost
          cases hop
          rw [hheld hm, mem_singleton]
          intro heq
          cases heq
          exact isChain_next (hm ▸ h) rfl
      · cases hpost
      · exfalso
        have hmem : LockOp.wlock (.mount m') ∈ walkDone w := by simp [hfin]
        cases hvent : w.vent <;> simp [walkDone] at hmem
  · intro pre post hsplit hlocked hlast
    cases pre with
    | nil =>
      obtain ⟨m', hmem⟩ := hlocked
      cases hmem
    | cons op pre =>
      rw [cons_append, cons_append, cons.injEq] at hsplit
      obtain ⟨rfl, hsplit⟩ := hsplit
      rcases handOvers_split hsplit with ⟨done, left, hm, rfl, -⟩ | ⟨done, m', left, hm, rfl,
        hpost⟩ | ⟨fin', rfl, hfin⟩
      · refine .inl ⟨done.getLastD m, ?_⟩
        rw [mountsHeld, hheld hm]
        rfl
      · refine .inr ⟨done.getLastD m, m', .wlock (.mount m) :: handOvers m done, _, rfl, hpost, ?_⟩
        rw [mountsHeld, hheld hm]
        rfl
      · -- the lock of the ventry may be held, and that of the mount still is
        refine .inl ⟨w.mount, ?_⟩
        have hpost : post ≠ [] := by
          rintro rfl
          obtain ⟨m', hmem⟩ := hlast
          cases hmem
        rw [mountsHeld, hdone]
        rcases walkDone_split hfin hpost with rfl | ⟨v, rfl⟩
        · rfl
        · rfl
  · rw [cons_append, hdone]
    cases hvent : w.vent with
    | none => simp [walkDone, hvent, LockOp.apply]
    | some v => simp [walkDone, hvent, LockOp.apply]

section Walk

variable {s t : Vfs} {salloc : Vfs → ℕ}

/-- A walk that does not land twice in a row on one mount returns. The induction is on the segments
left; what it finds is where the path leads in the tree before the walk. -/
theorem walkLoop_handOvers (fs : FsAnswers) (hsalloc : ∀ s : Vfs, salloc s ∉ s.live)
    (hvroot : (s.mount s.vroot).isSome) :
    ∀ (segs : List Seg) {t : Vfs} {m prev : ℕ} {place : Place}, Grown s t → Anchored t prev →
    Place.At s t place.base place.below prev → (m :: landings s place segs).IsChain (· ≠ ·) →
    ∃ mounts, mounts <+: landings s place segs ∧
      (∀ depth, (walkLoop depth fs salloc segs t m prev).1 = handOvers m mounts) ∧
      ∃ n, ∀ depth ≥ n, ∃ w, (walkLoop depth fs salloc segs t m prev).2 = some w ∧
        w.mount = mounts.getLastD m := by
  intro segs
  induction segs with
  | nil =>
    intro t m prev place _ _ _ _
    exact ⟨[], nil_prefix, fun _ => rfl, 0, fun depth _ => ⟨_, rfl, rfl⟩⟩
  | cons seg segs ih =>
    intro t m prev place hgrown ha hat hchain
    rcases hlookup : t.lookupVentry fs salloc m prev seg with ⟨t', found⟩
    obtain ⟨ht', -, hprev', hfound⟩ := hgrown.now.lookupVentry hsalloc ha m seg hlookup
    obtain ⟨hgrown', hplace⟩ := lookupVentry_place hsalloc hgrown hat hlookup
    simp only [walkLoop, hlookup]
    rw [landings] at hchain ⊢
    cases found with
    | none =>
      obtain ⟨n, htrim⟩ := hprev'.trimVentries ht' (hgrown'.mounted hvroot)
      refine ⟨[], nil_prefix, fun _ => rfl, n, fun depth hdepth => ?_⟩
      obtain ⟨t', htrim⟩ := Option.isSome_iff_exists.mp (htrim depth hdepth)
      exact ⟨_, by rw [htrim]; rfl, rfl⟩
    | some cur =>
      have hcur := hfound cur rfl
      have hat' := hplace cur rfl
      rw [← hat'.mount hgrown'] at hchain ⊢
      cases hm : t'.mount cur with
      | none =>
        simp only [hm] at hchain ⊢
        by_cases hlink : t'.isSymlink cur = true
        · simp only [if_pos hlink]
          exact ⟨[], nil_prefix, fun _ => rfl, 0, fun depth _ => ⟨_, rfl, rfl⟩⟩
        · have hplain := fun hl => hlink (hat'.isSymlink hgrown' hl)
          simp only [if_neg hlink]
          rw [if_neg hplain] at hchain ⊢
          exact ih hgrown' hcur hat' hchain
      | some m' =>
        obtain ⟨hroot, hsame⟩ := hat'.root hgrown' hm
        have hlinks := hgrown'.isSymlink _ (hroot.live hgrown'.before)
        simp only [hm] at hchain ⊢
        obtain ⟨hne, hrest⟩ := isChain_cons_cons.mp hchain
        simp only [if_neg hne.symm, hsame, hlinks]
        by_cases hlink : s.isSymlink (s.mountRoot m') = true
        · simp only [if_pos hlink]
          exact ⟨[m'], prefix_rfl, fun _ => rfl, 0, fun depth _ => ⟨_, rfl, rfl⟩⟩
        · simp only [if_neg hlink] at hrest ⊢
          obtain ⟨mounts, hprefix, hops, n, hend⟩ :=
            ih hgrown' (hsame ▸ hcur.root hm) (.here hroot) hrest
          refine ⟨m' :: mounts, cons_prefix_cons.mpr ⟨rfl, hprefix⟩, fun depth => ?_, n,
            fun depth hdepth => ?_⟩
          · rw [hops depth, handOvers]
          · rw [getLastD_cons]
            exact hend depth hdepth

def everyName : FsAnswers where
  lookup _ _ _ _ := some ⟨0, NodeType.dir.code⟩
  acquire _ _ _ := none
  symlinkRead _ _ _ := none
  mount _ _ _ := none

def NoNewLinks (s t : Vfs) : Prop := ∀ v ∈ t.live, v ∉ s.live → t.isSymlink v = false

theorem lookupVentry_everyName (salloc : Vfs → ℕ) (h : NoNewLinks s t) (m prev : ℕ) (seg : Seg) :
    ∃ t' cur, t.lookupVentry everyName salloc m prev seg = (t', some cur) ∧ NoNewLinks s t' := by
  rcases hlookup : t.lookupVentry everyName salloc m prev seg with ⟨t', found⟩
  cases lookupVentry_cases hlookup with
  | dot => exact ⟨t, _, rfl, h⟩
  | dotdot => exact ⟨t, _, rfl, h⟩
  | cached => exact ⟨t, _, rfl, h⟩
  | missing _ _ _ hanswer => cases hanswer
  | new _ _ hasked hanswer =>
    cases hanswer
    refine ⟨_, _, rfl, fun v hv hnew => ?_⟩
    rw [cacheNode_isSymlink]
    split_ifs with hsame
    · rfl
    · subst hasked
      exact h v ((mem_cons.mp hv).resolve_left hsame) hnew

/-- A link of the walk is one of the tree before it. -/
theorem isSymlink_of_noNewLinks (hgrown : Grown s t) (h : NoNewLinks s t) {place : Place} {v : ℕ}
    (hat : Place.At s t place.base place.below v) (hlink : t.isSymlink v = true) :
    place.isSymlink s = true := by
  have hlive := hat.live hgrown
  unfold Place.isSymlink
  cases hbelow : place.below with
  | nil =>
    rw [hbelow] at hat
    obtain ⟨rfl, ha⟩ := hat
    rw [hgrown.isSymlink _ (ha.live hgrown.before)] at hlink
    rw [hlink]
    rfl
  | cons n below =>
    rw [hbelow] at hat
    obtain ⟨p, -, -, hnew⟩ := hat
    rw [h v hlive hnew] at hlink
    cases hlink

/-- A walk that lands twice in a row on one mount does not return, if all names exist. -/
theorem walkLoop_relocks (hsalloc : ∀ s : Vfs, salloc s ∉ s.live) (depth : ℕ) :
    ∀ (segs : List Seg) {t : Vfs} {m prev : ℕ} {place : Place}, Grown s t → Anchored t prev →
    NoNewLinks s t → Place.At s t place.base place.below prev →
    ¬ (m :: landings s place segs).IsChain (· ≠ ·) →
    (walkLoop depth everyName salloc segs t m prev).2 = none := by
  intro segs
  induction segs with
  | nil =>
    intro t m prev place _ _ _ _ hchain
    exact absurd (isChain_singleton m) hchain
  | cons seg segs ih =>
    intro t m prev place hgrown ha hlinks hat hchain
    obtain ⟨t', cur, hlookup, hlinks'⟩ := lookupVentry_everyName salloc hlinks m prev seg
    obtain ⟨-, -, -, hfound⟩ := hgrown.now.lookupVentry hsalloc ha m seg hlookup
    obtain ⟨hgrown', hplace⟩ := lookupVentry_place hsalloc hgrown hat hlookup
    have hcur := hfound cur rfl
    have hat' := hplace cur rfl
    simp only [walkLoop, hlookup]
    rw [landings, ← hat'.mount hgrown'] at hchain
    cases hm : t'.mount cur with
    | none =>
      rw [hm] at hchain
      by_cases hlink : (place.move s seg).isSymlink s = true
      · rw [if_pos hlink] at hchain
        exact absurd (isChain_singleton m) hchain
      · rw [if_neg hlink] at hchain
        rw [if_neg fun hl => hlink (isSymlink_of_noNewLinks hgrown' hlinks' hat' hl)]
        exact ih hgrown' hcur hlinks' hat' hchain
    | some m' =>
      obtain ⟨hroot, hsame⟩ := hat'.root hgrown' hm
      rw [hm] at hchain
      dsimp only at hchain ⊢
      by_cases hm' : m' = m
      · rw [if_pos hm']
      rw [if_neg hm', hsame, hgrown'.isSymlink _ (hroot.live hgrown'.before)]
      have hrest := fun hrest => hchain (isChain_cons_cons.mpr ⟨fun he => hm' he.symm, hrest⟩)
      by_cases hlink : s.isSymlink (s.mountRoot m') = true
      · rw [if_pos hlink] at hrest
        exact absurd (isChain_singleton m') hrest
      · rw [if_neg hlink] at hrest ⊢
        exact ih hgrown' (hsame ▸ hcur.root hm) hlinks' (.here hroot) hrest

/-- The walks of one path, for all answers of the file systems. -/
theorem disciplined_iff (hsalloc : ∀ s : Vfs, salloc s ∉ s.live) (hs : CountInv s)
    (segs : List Seg) : (∀ fs, ∃ n, ∀ depth ≥ n,
    Disciplined (s.tryWalkPath depth fs salloc s.vroot segs)) ↔
      ∀ m ∈ s.mount s.vroot, (m :: s.landings ⟨s.mountRoot m, []⟩ segs).IsChain (· ≠ ·) := by
  cases hm : s.mount s.vroot with
  | none =>
    refine ⟨fun _ m hmem => (by cases hmem), fun _ fs => ⟨0, fun depth _ => ?_⟩⟩
    simp only [Vfs.tryWalkPath, hm]
    refine ⟨s, none, [], rfl, fun pre m post hsplit => ?_, fun pre post hsplit hlocked => ?_, rfl⟩
    · exact absurd hsplit (by simp)
    · obtain ⟨rfl, -⟩ := append_eq_nil_iff.mp hsplit.symm
      obtain ⟨m, hmem⟩ := hlocked
      cases hmem
  | some m =>
    have hroot : Anchored s (s.mountRoot m) := Anchored.vroot.root hm
    have hmounted : (s.mount s.vroot).isSome := by
      rw [hm]
      rfl
    have hat := Place.At.here (t := s) hroot
    constructor
    · rintro hall m' ⟨⟩
      by_contra hchain
      obtain ⟨n, hn⟩ := hall everyName
      obtain ⟨t, vent, remain, hreturn, -⟩ := hn n le_rfl
      have hsegs : segs ≠ [] := by
        rintro rfl
        exact hchain (isChain_singleton m)
      have hstuck := walkLoop_relocks hsalloc n segs (.refl hs) hroot
        (fun v hv hnew => absurd hv hnew) hat hchain
      simp only [Vfs.tryWalkPath, hm, if_neg hsegs, hstuck] at hreturn
      cases hreturn
    · intro hchain fs
      by_cases hsegs : segs = []
      · refine ⟨0, fun depth _ => ⟨s, some (s.mountRoot m), [], ?_, ?_⟩⟩
        · simp only [Vfs.tryWalkPath, hm, if_pos hsegs]
        · simp only [Vfs.tryWalkPath, hm, if_pos hsegs]
          exact lockDiscipline_vent _
      · obtain ⟨mounts, ⟨rest, hrest⟩, hops, n, hend⟩ :=
          walkLoop_handOvers fs hsalloc hmounted segs (.refl hs) hroot hat (hchain m rfl)
        have hmounts : (m :: mounts).IsChain (· ≠ ·) := isChain_take (hrest ▸ hchain m rfl)
        refine ⟨n, fun depth hdepth => ?_⟩
        obtain ⟨w, hw, hwm⟩ := hend depth hdepth
        refine ⟨w.vfs, w.vent, w.remain, ?_, ?_⟩
        · simp only [Vfs.tryWalkPath, hm, if_neg hsegs, hw]
          rfl
        · simp only [Vfs.tryWalkPath, hm, if_neg hsegs, hw, hops depth]
          exact lockDiscipline_handOvers hmounts w hwm

end Walk

end Vfs

/-- The walk of a path keeps the discipline of locks, whatever the file systems answer, exactly if
the path does not land on the same mount twice in a row. -/
theorem walk_disciplined_iff {salloc : Vfs → ℕ} (hsalloc : ∀ s : Vfs, salloc s ∉ s.live)
    {s₀ s : Vfs} (h₀ : NoVfs s₀) (hreach : Reach (vfsStep salloc) anyStep s₀.initVfs s)
    (path : List UInt8) :
    (∀ fs, ∃ n, ∀ depth ≥ n, Vfs.Disciplined
    (s.tryWalkPath depth fs salloc s.vroot (pathSegs path))) ↔
      ∀ m ∈ s.mount s.vroot, (m :: s.landings ⟨s.mountRoot m, []⟩ (pathSegs path)).IsChain (· ≠ ·) :=
  Vfs.disciplined_iff hsalloc (Vfs.CountInv.of_reach hsalloc h₀ hreach) (pathSegs path)

/-- `/a/a` lands on the mount on `/a`. -/
theorem walk_disciplined_iff_of_mountOnA :
    ∃ s, Reach (vfsStep sallocAbove) anyStep noVfs.initVfs s ∧ s.numMounts = 2 ∧
      ∀ fs, ∃ n, ∀ depth ≥ n,
        Vfs.Disciplined (s.tryWalkPath depth fs sallocAbove s.vroot (pathSegs [0x2f, 0x61, 0x2f,
        0x61])) := by
  refine exists_reach_of (P := fun s => s.numMounts = 2 ∧ s.mount s.vroot = some 0 ∧
    s.landings ⟨s.mountRoot 0, []⟩ (pathSegs [0x2f, 0x61, 0x2f, 0x61]) =
    [1]) mountOnA (by decide +kernel)
    fun s hs hP => ?_
  obtain ⟨htwo, hmount, hlandings⟩ := hP
  refine ⟨htwo, (walk_disciplined_iff sallocAbove_fresh ⟨rfl, fun _ => rfl, rfl, rfl⟩ hs _).mpr ?_⟩
  intro m hm
  rw [hmount] at hm
  cases hm
  rw [hlandings]
  decide

/-- `/..` lands on the root again: the walk asks for the lock that it holds. -/
theorem walk_relocks_at_root : ¬ ∀ (salloc : Vfs → ℕ) (s₀ s : Vfs), (∀ s : Vfs, salloc s ∉ s.live) →
    NoVfs s₀ →
      Reach (vfsStep salloc) anyStep s₀.initVfs s → ∀ (path : List UInt8) (fs : FsAnswers),
      ∃ n, ∀ depth ≥ n,
        Vfs.Disciplined (s.tryWalkPath depth fs salloc s.vroot (pathSegs path)) := by
  intro hclaim
  have hrun : execute (vfsStep sallocAbove) anyStep noVfs.initVfs [.mount nestedFs none 1 1 0] =
    some mountedVfs := rfl
  obtain ⟨n, hn⟩ := hclaim sallocAbove noVfs mountedVfs sallocAbove_fresh ⟨rfl, fun _ => rfl,
    rfl, rfl⟩ (reach_of_execute hrun) [0x2f, 0x2e, 0x2e] nestedFs
  obtain ⟨t, vent, remain, hreturn, -⟩ := hn n le_rfl
  have hsegs : pathSegs [0x2f, 0x2e, 0x2e] = [dotdot] := by decide +kernel
  have hstuck : mountedVfs.tryWalkPath n nestedFs sallocAbove mountedVfs.vroot [dotdot] =
      ([.wlock (.mount 0), .wlock (.mount 0)], none) := rfl
  rw [hsegs] at hreturn
  cases hreturn

end Toddler
