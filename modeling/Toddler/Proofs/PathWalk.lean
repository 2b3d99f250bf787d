import Toddler.Proofs.PathPlaces

/-! Resolution of paths. A path without its `.` and `name/..` is a list of names, the last one
first; what it denotes is given by the mounts and by the file systems. A walk finds it exactly if
the path keeps to the owners: `cur_mount` is the mount landed on last, and it has to be the owner of
each directory where something is looked up. -/

namespace Toddler

open List Option Vfs

namespace Vfs

variable {s t : Vfs} {u v e m prev : ℕ} {seg n : Seg} {node : FsNode} {p q : List Seg}

theorem through_of_none (h : s.mount e = none) : s.through e = e := by
  rw [through, h]
  rfl

theorem through_of_some (h : s.mount e = some m) : s.through e = s.mountRoot m := by
  rw [through, h]
  rfl

theorem ventAt_of_entryAt (he : s.entryAt p = some e) : s.ventAt p = some (s.through e) := by
  rw [ventAt, he]
  rfl

theorem entryAt_cons (hp : s.ventAt p = some u) : s.entryAt (n :: p) = s.cached u n := by
  obtain ⟨e, he, rfl⟩ := map_eq_some_iff.mp hp
  rw [entryAt, he]
  rfl

theorem ventAt_cons_iff : s.ventAt (n :: p) = some v ↔
    ∃ u e, s.ventAt p = some u ∧ s.cached u n = some e ∧ s.through e = v := by
  simp only [ventAt, entryAt, map_eq_some_iff, bind_eq_some_iff]
  constructor
  · rintro ⟨e, ⟨d, hd, he⟩, rfl⟩
    exact ⟨_, e, ⟨d, hd, rfl⟩, he, rfl⟩
  · rintro ⟨_, e, ⟨d, hd, rfl⟩, he, rfl⟩
    exact ⟨e, ⟨d, hd, he⟩, rfl⟩

theorem ventAt_anchored : ∀ {p : List Seg} {v : ℕ}, s.ventAt p = some v → Anchored s v := by
  have hthrough : ∀ {e}, Anchored s e → Anchored s (s.through e) := by
    intro e he
    cases hm : s.mount e with
    | none => rw [through_of_none hm]; exact he
    | some m => rw [through_of_some hm]; exact he.root hm
  intro p
  induction p with
  | nil =>
    rintro v ⟨⟩
    exact hthrough .vroot
  | cons n p ih =>
    intro v hv
    obtain ⟨u, e, hu, he, rfl⟩ := ventAt_cons_iff.mp hv
    exact hthrough ((ih hu).child (mem_of_find?_eq_some he))

theorem CountInv.ventAt_live (h : CountInv s) (hv : s.ventAt p = some v) : v ∈ s.live :=
  (ventAt_anchored hv).live h

theorem CountInv.entryAt_live (h : CountInv s) (he : s.entryAt p = some e) : e ∈ s.live := by
  cases p with
  | nil =>
    cases he
    exact h.vroot.1
  | cons n p =>
    obtain ⟨e', he', hc⟩ := bind_eq_some_iff.mp he
    exact (h.cached_mem (h.ventAt_live (ventAt_of_entryAt he')) hc).1

/-- What the names are has no mount. -/
theorem MountTree.ventAt_mount (h : MountTree s) (hv : s.ventAt p = some v) : s.mount v = none := by
  have hroot : ∀ {e m}, e ∈ s.live → s.mount e = some m → s.mount (s.mountRoot m) = none := by
    intro e m he hm
    obtain ⟨hlt, hparent⟩ := h.inv.mounted e he m hm
    obtain ⟨hlive, hisRoot⟩ := h.inv.root m hlt
    refine h.roots _ hlive hisRoot ?_
    intro heq
    rw [heq, h.inv.vroot.2.2] at hparent
    cases hparent
  cases p with
  | nil =>
    cases hv
    obtain ⟨m, hm⟩ := isSome_iff_exists.mp h.mounted
    rw [through_of_some hm]
    exact hroot h.inv.vroot.1 hm
  | cons n p =>
    obtain ⟨u, e, hu, he, rfl⟩ := ventAt_cons_iff.mp hv
    cases hm : s.mount e with
    | none => rw [through_of_none hm, hm]
    | some m =>
      rw [through_of_some hm]
      exact hroot (h.inv.cached_mem (h.inv.ventAt_live hu) he).1 hm

/-- `..` of what the names are is what the names before the last one are. -/
theorem CountInv.parentOf_ventAt (h : CountInv s) (hv : s.ventAt (n :: p) = some v) :
    s.ventAt p = some (s.parentOf v) := by
  obtain ⟨u, e, hu, he, rfl⟩ := ventAt_cons_iff.mp hv
  obtain ⟨hlive, hparent, hroot⟩ := h.cached_mem (h.ventAt_live hu) he
  rw [hu]
  cases hm : s.mount e with
  | none =>
    rw [through_of_none hm, parentOf, hroot]
    exact congrArg some (by simp [hparent])
  | some m =>
    obtain ⟨hlt, hmount⟩ := h.mounted e hlive m hm
    rw [through_of_some hm, parentOf, hmount, (h.root m hlt).2]
    exact congrArg some (by simp [hparent])

/-- `..` of the root is the ventry that the first mount is on. -/
theorem MountTree.parentOf_root (h : MountTree s) (hv : s.ventAt [] = some v) :
    s.parentOf v = s.vroot := by
  cases hv
  obtain ⟨m, hm⟩ := isSome_iff_exists.mp h.mounted
  obtain ⟨hlt, hparent⟩ := h.inv.mounted _ h.inv.vroot.1 m hm
  rw [through_of_some hm, parentOf, hparent, (h.inv.root m hlt).2]
  simp [h.inv.vroot.2.2]

/-- A ventry that is entered determines the one it is entered by. -/
theorem CountInv.through_inj (h : CountInv s) {e' : ℕ} (he : e ∈ s.live) (he' : e' ∈ s.live)
    (hroot : s.isRoot e = false ∨ (s.mount e).isSome)
    (hroot' : s.isRoot e' = false ∨ (s.mount e').isSome)
    (heq : s.through e = s.through e') : e = e' := by
  have hentered : ∀ {e m}, e ∈ s.live → s.mount e = some m →
      s.isRoot (s.mountRoot m) = true ∧ s.parent (s.mountRoot m) = some e := by
    intro e m he hm
    obtain ⟨hlt, hparent⟩ := h.mounted e he m hm
    exact ⟨(h.root m hlt).2, hparent⟩
  cases hm : s.mount e with
  | none =>
    have hplain : s.isRoot e = false := hroot.resolve_right (by simp [hm])
    rw [through_of_none hm] at heq
    cases hm' : s.mount e' with
    | none => rw [heq, through_of_none hm']
    | some m' =>
      rw [through_of_some hm'] at heq
      rw [heq, (hentered he' hm').1] at hplain
      cases hplain
  | some m =>
    obtain ⟨hisRoot, hparent⟩ := hentered he hm
    rw [through_of_some hm] at heq
    cases hm' : s.mount e' with
    | none =>
      have hplain' : s.isRoot e' = false := hroot'.resolve_right (by simp [hm'])
      rw [heq, through_of_none hm', hplain'] at hisRoot
      cases hisRoot
    | some m' =>
      rw [heq, through_of_some hm', (hentered he' hm').2] at hparent
      cases hparent
      rfl

/-- Different names are different ventries. -/
theorem MountTree.ventAt_inj (h : MountTree s) :
    ∀ {p q : List Seg} {v : ℕ}, s.ventAt p = some v → s.ventAt q = some v → p = q := by
  -- a ventry that is a child is no root
  have hentry : ∀ {p n u e}, s.ventAt p = some u → s.cached u n = some e →
    e ∈ s.live ∧ s.isRoot e = false ∧
      s.parent e = some u ∧ s.name e = n := by
    intro p n u e hu he
    obtain ⟨hlive, hparent, hroot⟩ := h.inv.cached_mem (h.inv.ventAt_live hu) he
    exact ⟨hlive, hroot, hparent, by simpa using find?_some he⟩
  have hnil : ∀ {n q v}, s.ventAt [] = some v → s.ventAt (n :: q) ≠ some v := by
    intro n q v hv hv'
    cases hv
    obtain ⟨u, e, hu, he, heq⟩ := ventAt_cons_iff.mp hv'
    obtain ⟨hlive, hroot, hparent, -⟩ := hentry hu he
    have hsame := h.inv.through_inj hlive h.inv.vroot.1 (.inl hroot) (.inr h.mounted) heq
    rw [hsame, h.inv.vroot.2.1] at hroot
    cases hroot
  intro p
  induction p with
  | nil =>
    intro q v hv hv'
    cases q with
    | nil => rfl
    | cons n q => exact absurd hv' (hnil hv)
  | cons n p ih =>
    intro q v hv hv'
    cases q with
    | nil => exact absurd hv (hnil hv')
    | cons n' q =>
      obtain ⟨u, e, hu, he, rfl⟩ := ventAt_cons_iff.mp hv
      obtain ⟨u', e', hu', he', heq⟩ := ventAt_cons_iff.mp hv'
      obtain ⟨hlive, hroot, hparent, hname⟩ := hentry hu he
      obtain ⟨hlive', hroot', hparent', hname'⟩ := hentry hu' he'
      have hsame := h.inv.through_inj hlive' hlive (.inl hroot') (.inl hroot) heq
      subst hsame
      rw [hparent] at hparent'
      cases hparent'
      rw [ih hu hu', ← hname, ← hname']

theorem through_cacheNode (hv : v ∉ t.live) (he : e ∈ t.live) (m prev : ℕ) (n : Seg)
    (node : FsNode) : (t.cacheNode v m prev n node).through e = t.through e := by
  have hev : e ≠ v := fun heq => hv (heq ▸ he)
  rw [through, cacheNode_mount, if_neg hev]
  rfl

section Growth

variable (h : MountTree t) (hv : v ∉ t.live) (hp : t.ventAt p = some prev)
  (hnone : t.cached prev n = none)
include h hv hp hnone

theorem MountTree.entryAt_cacheNode (m : ℕ) (node : FsNode) :
    ∀ {q : List Seg} {e : ℕ}, t.entryAt q = some e →
    (t.cacheNode v m prev n node).entryAt q = some e := by
  intro q
  induction q with
  | nil => exact fun he => he
  | cons k q ih =>
    intro e he
    obtain ⟨e', he', hc⟩ := bind_eq_some_iff.mp he
    have hu := h.inv.ventAt_live (ventAt_of_entryAt he')
    rw [entryAt, ih he', bind_some, through_cacheNode hv (h.inv.entryAt_live he'),
      h.inv.cached_cacheNode hv (h.inv.ventAt_live hp) hu, if_neg]
    · exact hc
    · rintro ⟨hsame, rfl⟩
      rw [hsame, hnone] at hc
      cases hc

/-- The new child is what the names after its name are. -/
theorem MountTree.entryAt_new (m : ℕ) (node : FsNode) :
    (t.cacheNode v m prev n node).entryAt (n :: p) = some v := by
  obtain ⟨e, he, rfl⟩ := map_eq_some_iff.mp hp
  have hprev := h.inv.ventAt_live hp
  rw [entryAt, h.entryAt_cacheNode hv hp hnone m node he, bind_some,
    through_cacheNode hv (h.inv.entryAt_live he), h.inv.cached_cacheNode hv hprev hprev,
    if_pos ⟨rfl, rfl⟩]

/-- Nothing else is new. -/
theorem MountTree.entryAt_cases (m : ℕ) (node : FsNode) : ∀ {q : List Seg} {e : ℕ},
    (t.cacheNode v m prev n node).entryAt q = some e → t.entryAt q = some e ∨ q = n :: p ∧
    e = v := by
  have hprev := h.inv.ventAt_live hp
  intro q
  induction q with
  | nil => exact fun he => .inl he
  | cons k q ih =>
    intro e he
    obtain ⟨e', he', hc⟩ := bind_eq_some_iff.mp he
    rcases ih he' with hold | ⟨rfl, rfl⟩
    · have hu := ventAt_of_entryAt hold
      rw [through_cacheNode hv (h.inv.entryAt_live hold),
        h.inv.cached_cacheNode hv hprev (h.inv.ventAt_live hu)] at hc
      split_ifs at hc with hsame
      · cases hc
        obtain ⟨hsame, rfl⟩ := hsame
        exact .inr ⟨by rw [h.ventAt_inj hu (hsame ▸ hp)], rfl⟩
      · exact .inl (by rw [entryAt, hold]; exact hc)
    · -- a ventry that is new has no children
      exfalso
      have hne : e' ≠ prev := fun heq => hv (heq ▸ hprev)
      have hbare : (t.cacheNode e' m prev n node).mount e' = none := by
        rw [cacheNode_mount, if_pos rfl]
      rw [through_of_none hbare, cached, cacheNode_children hne, if_neg hne, if_pos rfl] at hc
      cases hc

omit hnone in
theorem MountTree.cacheNode (m : ℕ) (node : FsNode) : MountTree (t.cacheNode v m prev n node) := by
  have hlive : (t.cacheNode v m prev n node).live = v :: t.live := rfl
  have hvroot : (t.cacheNode v m prev n node).vroot = t.vroot := rfl
  have hroot := h.inv.vroot.1
  refine ⟨h.inv.cacheNode hv (h.inv.ventAt_live hp) m n node, ?_, ?_⟩
  · rw [hvroot, cacheNode_mount, if_neg (ne_of_mem_of_not_mem hroot hv)]
    exact h.mounted
  · have hroots := h.roots
    grind [cacheNode_isRoot, cacheNode_mount]

end Growth

variable {id : ℕ} {tree : FsTree}

theorem ownerAt_of_resolve (h : resolve tree s p = some (m, id)) : s.ownerAt p = some m := by
  induction p generalizing m id with
  | nil =>
    obtain ⟨m', hm, heq⟩ := map_eq_some_iff.mp h
    cases heq
    exact hm
  | cons n p ih =>
    simp only [resolve, bind_eq_bind, bind_eq_some_iff] at h
    obtain ⟨⟨m', id'⟩, hp, node, -, h⟩ := h
    rw [ownerAt]
    cases hm : s.mountAt (n :: p) with
    | none =>
      rw [hm] at h
      cases h
      exact ih hp
    | some m'' =>
      rw [hm] at h
      cases h
      rfl

theorem entryAt_request (t : Vfs) (r : FsRequest) (q : List Seg) :
    (t.request r).entryAt q = t.entryAt q := by
  induction q with
  | nil => rfl
  | cons n q ih =>
    rw [entryAt, ih]
    rfl

theorem cacheNode_fsId : (s.cacheNode v m prev n node).fsId u = if u = v then node.id
    else s.fsId u := by
  simp only [cacheNode, attachVentry, refCountInc, newVentry, Function.update_apply]
  split_ifs <;> rfl

theorem cacheNode_fromMount : (s.cacheNode v m prev n node).fromMount u = if u = v then some m
    else s.fromMount u := by
  simp only [cacheNode, attachVentry, refCountInc, newVentry, Function.update_apply]
  split_ifs <;> rfl

/-- `t` is the tree of a walk from `s` that has looked up the names in `seen`, all of them where
they belong. -/
structure Walked (tree : FsTree) (s t : Vfs) (seen : List (List Seg)) : Prop where
  mounts : MountTree t
  found : ∀ q v, t.ventAt q = some v → ∃ m, resolve tree s q = some (m, t.fsId v) ∧
    t.fromMount v = some m
  plain : ∀ q v, t.ventAt q = some v → t.isSymlink v = false
  mountAt : ∀ q, t.mountAt q = s.mountAt q
  cached : ∀ q, (t.entryAt q).isSome ↔ (s.entryAt q).isSome ∨ q ∈ seen

theorem CacheOf.walked (h : MountTree s) (hc : CacheOf tree s) : Walked tree s s [] :=
  ⟨h, hc.found, hc.plain, fun _ => rfl, fun _ => by simp⟩

section Walk

variable {tree : FsTree} {seen : List (List Seg)} {depth : ℕ} {fs : FsAnswers} {salloc : Vfs → ℕ}
  {segs : List Seg} {cur : ℕ}

theorem ventAt_request (t : Vfs) (r : FsRequest) (q : List Seg) :
    (t.request r).ventAt q = t.ventAt q := by
  rw [ventAt, entryAt_request]
  rfl

theorem Walked.request (h : Walked tree s t seen) (r : FsRequest) :
    Walked tree s (t.request r) seen := by
  refine ⟨⟨h.mounts.inv.request r, h.mounts.mounted, h.mounts.roots⟩, ?_, ?_, ?_, ?_⟩
  · intro q v hv
    rw [ventAt_request] at hv
    exact h.found q v hv
  · intro q v hv
    rw [ventAt_request] at hv
    exact h.plain q v hv
  · intro q
    rw [Vfs.mountAt, entryAt_request]
    exact h.mountAt q
  · intro q
    rw [entryAt_request]
    exact h.cached q

theorem Walked.cacheNode (h : Walked tree s t seen) (hv : v ∉ t.live) (hp : t.ventAt p = some prev)
    (hnone : t.cached prev n = none) (hres : resolve tree s p = some (m, id))
    (hnode : tree m id n = some node) (hplain : node.type ≠ NodeType.symlink.code) :
    Walked tree s (t.cacheNode v m prev n node) ((n :: p) :: seen) := by
  have hentry : t.entryAt (n :: p) = none := (entryAt_cons hp).trans hnone
  have hmount : s.mountAt (n :: p) = none := by
    rw [← h.mountAt, Vfs.mountAt, hentry]
    rfl
  have hbare : (t.cacheNode v m prev n node).mount v = none := by
    rw [cacheNode_mount, if_pos rfl]
  have hnew := h.mounts.entryAt_new hv hp hnone m node
  -- what is found in the new tree was found before, or is the new ventry
  have hvent : ∀ {q w}, (t.cacheNode v m prev n node).ventAt q = some w →
      t.ventAt q = some w ∧ w ≠ v ∨ q = n :: p ∧ w = v := by
    intro q w hw
    obtain ⟨e, he, rfl⟩ := map_eq_some_iff.mp hw
    rcases h.mounts.entryAt_cases hv hp hnone m node he with hold | ⟨rfl, rfl⟩
    · rw [through_cacheNode hv (h.mounts.inv.entryAt_live hold)]
      have hw' := ventAt_of_entryAt hold
      exact .inl ⟨hw', fun heq => hv (heq ▸ h.mounts.inv.ventAt_live hw')⟩
    · exact .inr ⟨rfl, through_of_none hbare⟩
  refine ⟨h.mounts.cacheNode hv hp m node, ?_, ?_, ?_, ?_⟩
  · intro q w hw
    rw [cacheNode_fsId, cacheNode_fromMount]
    rcases hvent hw with ⟨hw, hne⟩ | ⟨rfl, rfl⟩
    · rw [if_neg hne, if_neg hne]
      exact h.found q w hw
    · rw [if_pos rfl, if_pos rfl]
      refine ⟨m, ?_, rfl⟩
      simp [resolve, hres, hnode, hmount]
  · intro q w hw
    rw [cacheNode_isSymlink]
    rcases hvent hw with ⟨hw, hne⟩ | ⟨rfl, rfl⟩
    · rw [if_neg hne]
      exact h.plain q w hw
    · rw [if_pos rfl]
      exact decide_eq_false hplain
  · intro q
    rw [← h.mountAt]
    cases he : (t.cacheNode v m prev n node).entryAt q with
    | none =>
      have hold : t.entryAt q = none := by
        by_contra hsome
        obtain ⟨e, he'⟩ := ne_none_iff_exists'.mp hsome
        rw [h.mounts.entryAt_cacheNode hv hp hnone m node he'] at he
        cases he
      rw [Vfs.mountAt, Vfs.mountAt, he, hold]
      rfl
    | some e =>
      rcases h.mounts.entryAt_cases hv hp hnone m node he with hold | ⟨rfl, rfl⟩
      · have hne : e ≠ v := fun heq => hv (heq ▸ h.mounts.inv.entryAt_live hold)
        rw [Vfs.mountAt, Vfs.mountAt, he, hold, bind_some, bind_some, cacheNode_mount, if_neg hne]
      · rw [Vfs.mountAt, Vfs.mountAt, he, hentry, bind_some, hbare]
        rfl
  · intro q
    rw [mem_cons]
    constructor
    · intro hsome
      obtain ⟨e, he⟩ := isSome_iff_exists.mp hsome
      rcases h.mounts.entryAt_cases hv hp hnone m node he with hold | ⟨rfl, -⟩
      · have hcached := (h.cached q).mp (isSome_iff_exists.mpr ⟨e, hold⟩)
        exact hcached.imp_right .inr
      · exact .inr (.inl rfl)
    · intro hcase
      by_cases hq : q = n :: p
      · rw [hq, hnew]
        rfl
      · have hold := (h.cached q).mpr (hcase.imp_right fun hor => hor.resolve_left hq)
        obtain ⟨e, he⟩ := isSome_iff_exists.mp hold
        rw [h.mounts.entryAt_cacheNode hv hp hnone m node he]
        rfl

/-- A segment that leads to a cached ventry, `c` or a root of the mount on it. -/
structure Moves (tree : FsTree) (s t : Vfs) (seen : List (List Seg)) (p : List Seg) (prev : ℕ)
    (seg : Seg) (land : Option ℕ) (c : ℕ) : Prop where
  walk : ∀ depth fs salloc cur segs, (walkLoop depth fs salloc (seg :: segs) t cur prev).2 =
    if land = some cur then none else (walkLoop depth fs salloc segs t (land.getD cur) c).2
  vent : t.ventAt (lexStep p seg) = some c
  keeps : ∀ cur segs, keepsOwner tree s cur seen p (seg :: segs) =
    (decide (land ≠ some cur) && keepsOwner tree s (land.getD cur) seen (lexStep p seg) segs)
  lookups : ∀ segs,
    lookups tree s seen p (seg :: segs) = lookups tree s seen (lexStep p seg) segs

/-- A segment that has to be looked up. -/
structure Asks (tree : FsTree) (s t : Vfs) (seen : List (List Seg)) (p : List Seg) (prev : ℕ)
    (seg : Seg) : Prop where
  name : seg ≠ dot ∧ seg ≠ dotdot
  step : lexStep p seg = seg :: p
  missing : t.cached prev seg = none
  keeps : ∀ cur segs, keepsOwner tree s cur seen p (seg :: segs) =
    (decide (s.ownerAt p = some cur) &&
      if (resolve tree s (seg :: p)).isSome then
        keepsOwner tree s cur ((seg :: p) :: seen) (seg :: p) segs
      else (resolve tree s (segs.foldl lexStep (seg :: p))).isNone)
  lookups : ∀ segs, lookups tree s seen p (seg :: segs) =
    match resolve tree s p with
    | none => []
    | some (m, id) =>
      .lookup m id seg ::
        if (resolve tree s (seg :: p)).isSome then
          lookups tree s ((seg :: p) :: seen) (seg :: p) segs
        else []

theorem Walked.move_walk (h : Walked tree s t seen) (seg : Seg) (prev : ℕ) {c : ℕ}
    (hvent : t.ventAt q = some (t.through c))
    (hlookup : ∀ fs salloc cur, t.lookupVentry fs salloc cur prev seg = (t, some c))
    (depth : ℕ) (fs : FsAnswers) (salloc : Vfs → ℕ) (cur : ℕ) (segs : List Seg) :
    (walkLoop depth fs salloc (seg :: segs) t cur prev).2 = if t.mount c = some cur then none
      else (walkLoop depth fs salloc segs t ((t.mount c).getD cur) (t.through c)).2 := by
  have hplain := h.plain q _ hvent
  cases hm : t.mount c with
  | none =>
    rw [through_of_none hm] at hplain ⊢
    simp [walkLoop, hlookup, hm, hplain]
  | some m =>
    rw [through_of_some hm] at hplain ⊢
    simp only [walkLoop, hlookup, hm, hplain, Bool.false_eq_true, if_false, Option.some.injEq]
    split_ifs <;> rfl

theorem Walked.segment (h : Walked tree s t seen) (hp : t.ventAt p = some prev) (seg : Seg) :
    (∃ land c, Moves tree s t seen p prev seg land c) ∨ Asks tree s t seen p prev seg := by
  by_cases hdot : seg = dot
  · subst hdot
    have hbare := h.mounts.ventAt_mount hp
    have hwalk := h.move_walk dot prev (q := p) (c := prev)
      (by rw [through_of_none hbare]; exact hp) fun _ _ _ => rfl
    rw [hbare, through_of_none hbare] at hwalk
    exact .inl ⟨none, prev, hwalk, hp, fun _ _ => rfl, fun _ => rfl⟩
  by_cases hdotdot : seg = dotdot
  · subst hdotdot
    have hne : dotdot ≠ dot := by decide
    have hlookup : ∀ fs salloc cur, t.lookupVentry fs salloc cur prev dotdot =
        (t, some (t.parentOf prev)) := fun _ _ _ => rfl
    cases p with
    | cons n p =>
      have hvent := h.mounts.inv.parentOf_ventAt hp
      have hbare := h.mounts.ventAt_mount hvent
      have hwalk := h.move_walk dotdot prev (q := p) (by rw [through_of_none hbare]; exact hvent) hlookup
      rw [hbare, through_of_none hbare] at hwalk
      exact .inl ⟨none, t.parentOf prev, hwalk, hvent, fun _ _ => rfl, fun _ => rfl⟩
    | nil =>
      obtain ⟨m, hm⟩ := isSome_iff_exists.mp h.mounts.mounted
      have hmountAt : s.mountAt [] = some m := (h.mountAt []).symm.trans hm
      have hwalk := h.move_walk dotdot prev (q := []) (c := t.vroot) rfl fun fs salloc cur => by
        rw [hlookup fs salloc cur, h.mounts.parentOf_root hp]
      rw [hm] at hwalk
      refine .inl ⟨some m, _, hwalk, rfl, fun cur segs => ?_, fun _ => rfl⟩
      rw [keepsOwner, hmountAt]
      simp [lexStep, hne]
  have hstep : lexStep p seg = seg :: p := by
    rw [lexStep, if_neg hdot, if_neg hdotdot]
  have hentry := entryAt_cons (n := seg) hp
  have hmountAt : s.mountAt (seg :: p) = (t.cached prev seg).bind t.mount := by
    rw [← h.mountAt, Vfs.mountAt, hentry]
  have hcases := h.cached (seg :: p)
  rw [hentry] at hcases
  cases hcached : t.cached prev seg with
  | none =>
    rw [hcached] at hmountAt hcases
    have hunseen := fun hor => Bool.false_ne_true (hcases.mpr hor)
    refine .inr ⟨⟨hdot, hdotdot⟩, hstep, hcached, fun cur segs => ?_, fun segs => ?_⟩
    · rw [keepsOwner, if_neg hdot, if_neg hdotdot, hmountAt]
      exact if_neg hunseen
    · rw [lookups, if_neg hdot, if_neg hdotdot]
      exact if_neg hunseen
  | some e =>
    rw [hcached] at hentry hmountAt hcases
    have hseen := hcases.mp rfl
    have hvent := ventAt_of_entryAt hentry
    have hwalk := h.move_walk seg prev hvent fun fs salloc cur => by
      rw [lookupVentry, if_neg hdot, if_neg hdotdot, hcached]
    refine .inl ⟨t.mount e, t.through e, hwalk, hstep ▸ hvent, fun cur segs => ?_, fun segs => ?_⟩
    · rw [keepsOwner, if_neg hdot, if_neg hdotdot, hmountAt, hstep, bind_some]
      cases t.mount e with
      | none => simp [hseen]
      | some m => simp
    · rw [lookups, if_neg hdot, if_neg hdotdot, if_pos hseen, hstep]

theorem Asks.lookup (h : Asks tree s t seen p prev seg) (fs : FsAnswers) (salloc : Vfs → ℕ)
    (cur : ℕ) : t.lookupVentry fs salloc cur prev seg = t.lookupIpc fs salloc cur prev seg := by
  rw [lookupVentry, if_neg h.name.1, if_neg h.name.2, h.missing]

theorem lookupIpc_log :
    (t.lookupIpc fs salloc m prev seg).1.log = t.log ++ [.lookup m (t.lookupId m prev) seg] := by
  dsimp only [lookupIpc]
  cases fs.lookup t.log m (t.lookupId m prev) seg <;> rfl

theorem lookupsSent_request (t : Vfs) (m id : ℕ) (n : Seg) :
    (t.request (.lookup m id n)).lookupsSent = t.lookupsSent ++ [.lookup m id n] := by
  rw [lookupsSent, request, filter_append]
  rfl

/-- A trim sends no lookups. -/
theorem lookupsSent_trimLoop {fuel : ℕ} (h : trimLoop depth fuel s v = some t) :
    t.lookupsSent = s.lookupsSent := by
  obtain ⟨told, htold, hlog⟩ := trimLoop_told h
  have hnone : told.filter isLookup = [] := by
    refine filter_eq_nil_iff.mpr fun r hr => ?_
    obtain ⟨m, id, rfl⟩ := htold r hr
    exact Bool.false_ne_true
  rw [lookupsSent, hlog, filter_append, hnone, append_nil, lookupsSent]

/-- A segment before the rest of a walk. -/
theorem walkRight_cons_iff {t' : Vfs} {seen' : List (List Seg)} {walked : Vfs} {vent : Option ℕ}
    (hsent : t'.lookupsSent ++ lookups tree s seen' (lexStep p seg) segs =
      t.lookupsSent ++ lookups tree s seen p (seg :: segs)) :
    WalkRight tree s t seen p (seg :: segs) walked vent ↔
      WalkRight tree s t' seen' (lexStep p seg) segs walked vent :=
  ⟨fun h => ⟨h.sent.trans hsent.symm, h.found, h.missing⟩,
    fun h => ⟨h.sent.trans hsent, h.found, h.missing⟩⟩

theorem MountTree.lookupId (h : MountTree t) (hp : t.ventAt p = some prev) (cur : ℕ) :
    t.lookupId cur prev = t.fsId prev := by
  rw [Vfs.lookupId, h.ventAt_mount hp, if_neg (by simp)]

/-- A name that is looked up in another mount than the one that owns the directory. -/
theorem Asks.strays (hsalloc : ∀ s : Vfs, salloc s ∉ s.live)
    (hseg : Asks tree s t seen p prev seg) (h : Walked tree s t seen)
    (hp : t.ventAt p = some prev) {id : ℕ} (hres : resolve tree s p = some (m, id)) (hm : m ≠ cur)
    {w : WalkEnd} (hw : (walkLoop depth fs salloc (seg :: segs) t cur prev).2 = some w) :
    ¬ WalkRight tree s t seen p (seg :: segs) w.vfs w.vent := by
  intro hright
  have hlog : t.lookupsSent ++ [.lookup cur (t.fsId prev) seg] <+: w.vfs.lookupsSent := by
    have hlog := (walkLoop_cons_log hsalloc hw).filter isLookup
    rwa [hseg.lookup, lookupIpc_log, h.mounts.lookupId hp, filter_append] at hlog
  rw [hright.sent, hseg.lookups, hres, prefix_append_right_inj] at hlog
  cases (cons_prefix_cons.mp hlog).1
  exact hm rfl

section

variable (hfs : ∀ log, fs.lookup log = tree)
include hfs

/-- A name that is looked up where it belongs, and exists. -/
theorem Asks.answered (hsalloc : ∀ s : Vfs, salloc s ∉ s.live)
    (hseg : Asks tree s t seen p prev seg) (h : Walked tree s t seen) (hp : t.ventAt p = some prev)
    (hres : resolve tree s p = some (cur, t.fsId prev))
    (hnode : tree cur (t.fsId prev) seg = some node)
    (hplain : node.type ≠ NodeType.symlink.code) :
    ∃ t' v, t.lookupVentry fs salloc cur prev seg = (t', some v) ∧
      Walked tree s t' ((seg :: p) :: seen) ∧ t'.ventAt (seg :: p) = some v ∧
      (resolve tree s (seg :: p)).isSome ∧
      t'.lookupsSent = t.lookupsSent ++ [.lookup cur (t.fsId prev) seg] := by
  have hlookup := hseg.lookup fs salloc cur
  rw [lookupIpc, h.mounts.lookupId hp, hfs, hnode] at hlookup
  have hasked := h.request (.lookup cur (t.fsId prev) seg)
  have hprev := (ventAt_request t (.lookup cur (t.fsId prev) seg) p).trans hp
  have hfresh := hsalloc (t.request (.lookup cur (t.fsId prev) seg))
  have hmissing : (t.request (.lookup cur (t.fsId prev) seg)).cached prev seg = none :=
    hseg.missing
  have hwalked := hasked.cacheNode hfresh hprev hmissing hres hnode hplain
  have hvent := ventAt_of_entryAt (hasked.mounts.entryAt_new hfresh hprev hmissing cur node)
  rw [through_of_none (by rw [cacheNode_mount, if_pos rfl])] at hvent
  obtain ⟨m, hsome, -⟩ := hwalked.found _ _ hvent
  exact ⟨_, _, hlookup, hwalked, hvent, by rw [hsome]; rfl, lookupsSent_request _ _ _ _⟩

/-- A name that is looked up where it belongs, and does not exist. -/
theorem Asks.unanswered (hseg : Asks tree s t seen p prev seg) (h : Walked tree s t seen)
    (hp : t.ventAt p = some prev) (hres : resolve tree s p = some (cur, t.fsId prev))
    (hnode : tree cur (t.fsId prev) seg = none) :
    (∃ n, ∀ depth ≥ n, ∃ w, (walkLoop depth fs salloc (seg :: segs) t cur prev).2 = some w ∧
      WalkRight tree s t seen p (seg :: segs) w.vfs w.vent) ↔
    resolve tree s (segs.foldl lexStep (seg :: p)) = none := by
  have hlookup := hseg.lookup fs salloc cur
  rw [lookupIpc, h.mounts.lookupId hp, hfs, hnode] at hlookup
  have hnothing : resolve tree s (seg :: p) = none := by
    simp [resolve, hres, hnode]
  have hwalk : ∀ depth, (walkLoop depth fs salloc (seg :: segs) t cur prev).2 =
      ((t.request (.lookup cur (t.fsId prev) seg)).trimVentries depth prev).map
        fun t' => ⟨t', cur, none, []⟩ := by
    intro depth
    simp only [walkLoop, hlookup]
  constructor
  · rintro ⟨n, hn⟩
    obtain ⟨w, hw, hright⟩ := hn n le_rfl
    obtain ⟨t', -, rfl⟩ := map_eq_some_iff.mp ((hwalk n).symm.trans hw)
    rw [← hseg.step]
    exact hright.missing rfl
  · intro hend
    have hsent := h.request (.lookup cur (t.fsId prev) seg)
    obtain ⟨n, hn⟩ := ((ventAt_anchored hp).request _).trimVentries hsent.mounts.inv
      hsent.mounts.mounted
    refine ⟨n, fun depth hdepth => ?_⟩
    obtain ⟨t', ht'⟩ := isSome_iff_exists.mp (hn depth hdepth)
    rw [hwalk, ht']
    refine ⟨_, rfl, ?_, fun v hv => (by cases hv), fun _ => ?_⟩
    · rw [lookupsSent_trimLoop ht', lookupsSent_request, hseg.lookups, hres]
      simp [hnothing]
    · rw [foldl_cons, hseg.step]
      exact hend

/-- A walk goes right just if the path keeps to the owners. The induction is on the segments
left. -/
theorem Walked.walk_iff (hsalloc : ∀ s : Vfs, salloc s ∉ s.live)
    (hnodes : ∀ m id n node, tree m id n = some node → node.type ≠ NodeType.symlink.code) :
    ∀ (segs : List Seg) {t : Vfs} {cur prev : ℕ} {p : List Seg} {seen : List (List Seg)},
    Walked tree s t seen → t.ventAt p = some prev →
    ((∃ n, ∀ depth ≥ n, ∃ w, (walkLoop depth fs salloc segs t cur prev).2 = some w ∧
      WalkRight tree s t seen p segs w.vfs w.vent) ↔
    keepsOwner tree s cur seen p segs = true) := by
  intro segs
  induction segs with
  | nil =>
    intro t cur prev p seen h hp
    refine ⟨fun _ => rfl, fun _ => ⟨0, fun depth _ => ⟨_, rfl, by simp [lookups], ?_, ?_⟩⟩⟩
    · rintro v ⟨⟩
      exact ⟨hp, h.found p prev hp⟩
    · intro hnone
      cases hnone
  | cons seg segs ih =>
    intro t cur prev p seen h hp
    rcases h.segment hp seg with ⟨land, c, hseg⟩ | hseg
    · simp only [hseg.walk, hseg.keeps, walkRight_cons_iff (congrArg _ (hseg.lookups segs)).symm]
      by_cases hland : land = some cur
      · simp only [hland, ne_eq, not_true_eq_false, decide_false, Bool.false_and,
          Bool.false_eq_true, iff_false]
        rintro ⟨n, hn⟩
        obtain ⟨w, hw, -⟩ := hn n le_rfl
        cases hw
      · simp only [ne_eq, hland, not_false_eq_true, decide_true, Bool.true_and]
        exact ih h hseg.vent
    · obtain ⟨m, hres, -⟩ := h.found p prev hp
      have howner := ownerAt_of_resolve hres
      rw [hseg.keeps]
      by_cases hm : m = cur
      · subst hm
        rw [decide_eq_true howner, Bool.true_and]
        cases hnode : tree m (t.fsId prev) seg with
        | none =>
          have hnothing : ¬ (resolve tree s (seg :: p)).isSome := by
            simp [resolve, hres, hnode]
          rw [if_neg hnothing, isNone_iff_eq_none]
          exact hseg.unanswered hfs h hp hres hnode
        | some node =>
          obtain ⟨t', v, hlookup, hwalked, hvent, hsome, hsent⟩ :=
            hseg.answered hfs hsalloc h hp hres hnode (hnodes _ _ _ _ hnode)
          have hwalk : ∀ depth, (walkLoop depth fs salloc (seg :: segs) t m prev).2 =
              (walkLoop depth fs salloc segs t' m v).2 := by
            intro depth
            simp [walkLoop, hlookup, hwalked.mounts.ventAt_mount hvent, hwalked.plain _ _ hvent]
          have hlookups : t'.lookupsSent ++
              lookups tree s ((seg :: p) :: seen) (lexStep p seg) segs =
              t.lookupsSent ++ lookups tree s seen p (seg :: segs) := by
            rw [hsent, hseg.lookups, hseg.step, hres]
            simp [hsome]
          simp only [hwalk, walkRight_cons_iff hlookups, if_pos hsome]
          rw [hseg.step]
          exact ih hwalked hvent
      · have hstray : ¬ s.ownerAt p = some cur := fun heq =>
          hm (Option.some.inj (howner.symm.trans heq))
        rw [decide_eq_false hstray, Bool.false_and]
        refine iff_of_false ?_ Bool.false_ne_true
        rintro ⟨n, hn⟩
        obtain ⟨w, hw, hright⟩ := hn n le_rfl
        exact hseg.strays hsalloc h hp hres hm hw hright

theorem MountTree.walksRight_iff (hsalloc : ∀ s : Vfs, salloc s ∉ s.live) (h : MountTree s)
    (hc : CacheOf tree s) (hm : s.mount s.vroot = some m) (segs : List Seg) :
    WalksRight salloc fs tree s segs ↔ keepsOwner tree s m [] [] segs = true := by
  have hroot : s.ventAt [] = some (s.mountRoot m) := congrArg some (through_of_some hm)
  rw [← (hc.walked h).walk_iff hfs hsalloc hc.nodes segs hroot]
  by_cases hsegs : segs = []
  · subst hsegs
    simp [WalksRight, tryWalkPath, hm, walkLoop]
  · simp only [WalksRight, tryWalkPath, hm, if_neg hsegs, map_eq_some_iff]
    refine exists_congr fun n => forall₂_congr fun depth _ => ?_
    constructor
    · rintro ⟨t, vent, remain, ⟨w, hw, heq⟩, hright⟩
      cases heq
      exact ⟨w, hw, hright⟩
    · rintro ⟨w, hw, hright⟩
      exact ⟨w.vfs, w.vent, w.remain, ⟨w, hw, rfl⟩, hright⟩

end

end Walk

end Vfs

/-- The walk of a path goes right exactly if the path keeps to the owners. -/
theorem path_walk_right_iff {salloc : Vfs → ℕ} (hsalloc : ∀ s : Vfs, salloc s ∉ s.live) {s : Vfs}
    (h : s.MountTree) {tree : FsTree} (hc : CacheOf tree s) {fs : FsAnswers}
    (hfs : ∀ log, fs.lookup log = tree) (path : List UInt8) :
    WalksRight salloc fs tree s (pathSegs path) ↔
      ∀ m ∈ s.mount s.vroot, keepsOwner tree s m [] [] (pathSegs path) = true := by
  obtain ⟨m, hm⟩ := isSome_iff_exists.mp h.mounted
  rw [h.walksRight_iff hfs hsalloc hc hm, hm]
  simp

def mountedTwice : Vfs :=
  (execute (vfsStep sallocAbove) anyStep noVfs.initVfs mountOnA).getD noVfs

theorem mountedTwice_reach : Reach (vfsStep sallocAbove) anyStep noVfs.initVfs mountedTwice := by
  have hsome : (execute (vfsStep sallocAbove) anyStep noVfs.initVfs mountOnA).isSome := by
    decide +kernel
  obtain ⟨s, hs⟩ := isSome_iff_exists.mp hsome
  rw [mountedTwice, hs]
  exact reach_of_execute hs

theorem mountedTwice_mountTree : mountedTwice.MountTree := by
  refine ⟨Vfs.CountInv.of_reach sallocAbove_fresh ⟨rfl, fun _ => rfl, rfl, rfl⟩ mountedTwice_reach,
    ?_, ?_⟩
  · decide +kernel
  · decide +kernel

def nestedTree : FsTree := fun _ id name => if name = [0x61] then some ⟨id + 1, NodeType.dir.code⟩
    else none

/-- The root and `/a` are cached. -/
theorem mountedTwice_ventAt : ∀ {p : List Seg} {v : ℕ}, mountedTwice.ventAt p = some v →
    p = [] ∧ v = 1 ∨ p = [[0x61]] ∧ v = 3 := by
  have hnames : ∀ {n e}, mountedTwice.cached 1 n = some e → n = [0x61] ∧ e = 2 := by
    intro n e he
    have hmem : e ∈ mountedTwice.children 1 := mem_of_find?_eq_some he
    have hchildren : mountedTwice.children 1 = [2] := by decide +kernel
    have hname : mountedTwice.name 2 = [0x61] := by decide +kernel
    rw [hchildren, mem_singleton] at hmem
    subst hmem
    have hsame : mountedTwice.name 2 = n := by simpa using find?_some he
    exact ⟨hsame.symm.trans hname, rfl⟩
  intro p
  induction p with
  | nil =>
    intro v hv
    cases hv
    exact .inl ⟨rfl, rfl⟩
  | cons n p ih =>
    intro v hv
    obtain ⟨u, e, hu, he, rfl⟩ := ventAt_cons_iff.mp hv
    rcases ih hu with ⟨rfl, rfl⟩ | ⟨rfl, rfl⟩
    · obtain ⟨rfl, rfl⟩ := hnames he
      exact .inr ⟨rfl, by decide +kernel⟩
    · have hleaf : mountedTwice.children 3 = [] := by decide +kernel
      cases he

theorem mountedTwice_cacheOf : CacheOf nestedTree mountedTwice := by
  refine ⟨fun p v hv => ?_, fun p v hv => ?_, fun m id n node hnode => ?_⟩
  · rcases mountedTwice_ventAt hv with ⟨rfl, rfl⟩ | ⟨rfl, rfl⟩
    · exact ⟨0, by decide +kernel, by decide +kernel⟩
    · exact ⟨1, by decide +kernel, by decide +kernel⟩
  · rcases mountedTwice_ventAt hv with ⟨rfl, rfl⟩ | ⟨rfl, rfl⟩
    · decide +kernel
    · decide +kernel
  · unfold nestedTree at hnode
    split_ifs at hnode
    cases hnode
    show (NodeType.dir.code : ℤ) ≠ NodeType.symlink.code
    decide

/-- `/a/a/../a` is looked up where it belongs. `/a/b/..` denotes `/a`, and its walk ends at `b`. -/
theorem path_walk_right_iff_of_mountedTwice :
    mountedTwice.MountTree ∧ CacheOf nestedTree mountedTwice ∧
      WalksRight sallocAbove nestedFs nestedTree mountedTwice
        (pathSegs [0x2f, 0x61, 0x2f, 0x61, 0x2f, 0x2e, 0x2e, 0x2f, 0x61]) ∧
      ¬ WalksRight sallocAbove nestedFs nestedTree mountedTwice
        (pathSegs [0x2f, 0x61, 0x2f, 0x62, 0x2f, 0x2e, 0x2e]) := by
  have hfs : ∀ log, nestedFs.lookup log = nestedTree := fun _ => rfl
  have hiff := path_walk_right_iff sallocAbove_fresh mountedTwice_mountTree mountedTwice_cacheOf hfs
  refine ⟨mountedTwice_mountTree, mountedTwice_cacheOf, (hiff _).mpr ?_, fun h => ?_⟩
  · decide +kernel
  · revert h
    rw [hiff]
    decide +kernel

/-- `/a/../b`: the name `b` of the root is looked up in the file system on `/a`. -/
theorem lookup_strays_after_dotdot :
    ¬ ∀ (salloc : Vfs → ℕ) (s : Vfs), (∀ s : Vfs, salloc s ∉ s.live) → s.MountTree →
      ∀ (tree : FsTree) (fs : FsAnswers) (path : List UInt8), CacheOf tree s →
      (∀ log, fs.lookup log = tree) → WalksRight salloc fs tree s (pathSegs path) := by
  intro hclaim
  have hright := hclaim sallocAbove mountedTwice sallocAbove_fresh mountedTwice_mountTree nestedTree
    nestedFs [0x2f, 0x61, 0x2f, 0x2e, 0x2e, 0x2f, 0x62] mountedTwice_cacheOf fun _ => rfl
  have hmount : mountedTwice.mount mountedTwice.vroot = some 0 := by decide +kernel
  rw [mountedTwice_mountTree.walksRight_iff (fun _ => rfl) sallocAbove_fresh mountedTwice_cacheOf
    hmount] at hright
  revert hright
  decide +kernel

end Toddler
