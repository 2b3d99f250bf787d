import Toddler.Spec.PathWalk
import Toddler.Proofs.VentryCounts

/-! Where a path leads in a tree of ventries, before anything is looked up: a walk finds what is
cached, and what is not it adds to the tree. The places of a path are given by the tree before the
walk. -/

namespace Toddler

open List Option

namespace Vfs

variable {s t : Vfs} {u v m cur prev : ℕ} {seg n : Seg} {node : FsNode}

theorem cacheNode_name :
    (s.cacheNode v m cur seg node).name u = if u = v then seg else s.name u := by
  simp only [cacheNode, attachVentry, refCountInc, newVentry, Function.update_apply]
  split_ifs <;> rfl

theorem cacheNode_isSymlink : (s.cacheNode v m cur seg node).isSymlink u =
    if u = v then decide (node.type = NodeType.symlink.code) else s.isSymlink u := by
  simp only [cacheNode, attachVentry, refCountInc, newVentry, Function.update_apply]
  split_ifs <;> rfl

theorem CountInv.cached_mem (h : CountInv s) (hu : u ∈ s.live) (hc : s.cached u seg = some v) :
    v ∈ s.live ∧ s.parent v = some u ∧ s.isRoot v = false :=
  h.child u hu v (mem_of_find?_eq_some hc)

/-- A new child is found by its name, and no other lookup changes. -/
theorem CountInv.cached_cacheNode (h : CountInv s) (hv : v ∉ s.live) (hcur : cur ∈ s.live)
    (hu : u ∈ s.live) (m : ℕ) (seg : Seg) (node : FsNode) (n : Seg) :
    (s.cacheNode v m cur seg node).cached u n =
      if u = cur ∧ n = seg then some v else s.cached u n := by
  have hne : v ≠ cur := (ne_of_mem_of_not_mem hcur hv).symm
  have hrest : (s.children u).find? (fun c => (s.cacheNode v m cur seg node).name c = n) =
      s.cached u n := by
    refine find?_congr fun c hc => ?_
    rw [cacheNode_name, if_neg (ne_of_mem_of_not_mem (h.child u hu c hc).1 hv)]
  rw [Vfs.cached, cacheNode_children hne]
  by_cases hucur : u = cur
  · subst hucur
    rw [if_pos rfl, find?_cons, cacheNode_name, if_pos rfl, hrest]
    grind
  · rw [if_neg hucur, if_neg (ne_of_mem_of_not_mem hu hv), if_neg fun hand => hucur hand.1]
    exact hrest

/-- `t` is the tree `s` and what a walk added to it. -/
structure Grown (s t : Vfs) : Prop where
  before : CountInv s
  now : CountInv t
  live : ∀ v ∈ s.live, v ∈ t.live
  vroot : t.vroot = s.vroot
  mountRoot : t.mountRoot = s.mountRoot
  parent : ∀ v ∈ s.live, t.parent v = s.parent v
  isRoot : ∀ v ∈ s.live, t.isRoot v = s.isRoot v
  mount : ∀ v ∈ s.live, t.mount v = s.mount v
  isSymlink : ∀ v ∈ s.live, t.isSymlink v = s.isSymlink v
  cached : ∀ u ∈ s.live, ∀ {n c}, s.cached u n = some c → t.cached u n = some c
  added : ∀ u ∈ s.live, ∀ {n c}, s.cached u n = none → t.cached u n = some c → c ∉ s.live
  bare : ∀ v ∈ t.live, v ∉ s.live → t.mount v = none

theorem Grown.refl (h : CountInv s) : Grown s s := by
  constructor <;> grind

theorem Grown.request (h : Grown s t) (r : FsRequest) : Grown s (t.request r) :=
  { h with now := h.now.request r }

theorem Grown.cacheNode (h : Grown s t) (hv : v ∉ t.live) (hcur : cur ∈ t.live)
    (hnone : t.cached cur seg = none) (m : ℕ) (node : FsNode) :
    Grown s (t.cacheNode v m cur seg node) := by
  have hlive : (t.cacheNode v m cur seg node).live = v :: t.live := rfl
  have hcached := fun u hu n => h.now.cached_cacheNode (u := u) hv hcur hu m seg node n
  obtain ⟨hs, ht, hold, hvroot, hmountRoot, hparent, hisRoot, hmount, hlink, hkept, hadded,
    hbare⟩ := h
  refine ⟨hs, ht.cacheNode hv hcur m seg node, ?_, hvroot, hmountRoot, ?_, ?_, ?_, ?_, ?_, ?_, ?_⟩
  · grind
  · grind [cacheNode_parent]
  · grind [cacheNode_isRoot]
  · grind [cacheNode_mount]
  · grind [cacheNode_isSymlink]
  · grind
  · grind
  · grind [cacheNode_mount]

/-- `..` is what it was before the walk. -/
theorem Grown.parentOf (h : Grown s t) (hu : Anchored s u) : t.parentOf u = s.parentOf u := by
  unfold Vfs.parentOf
  rw [h.parent u (hu.live h.before), h.isRoot u (hu.live h.before)]
  cases hp : s.parent u with
  | none => rfl
  | some p =>
    dsimp only
    split_ifs
    · rw [h.parent p ((hu.parent h.before hp).live h.before)]
    · rw [h.parent u (hu.live h.before)]

def Place.Misses (s : Vfs) (place : Place) (seg : Seg) : Prop :=
  place.below = [] → s.cached place.base seg = none

variable {place : Place}

theorem Place.Misses.child (h : place.Misses s seg) :
    place.child s seg = ⟨place.base, seg :: place.below⟩ := by
  unfold Place.child
  cases hbelow : place.below with
  | nil => rw [h hbelow]
  | cons n below => rfl

/-- The ventry of a place in the tree of the walk. -/
def Place.At (s t : Vfs) (base : ℕ) : List Seg → ℕ → Prop
  | [], v => v = base ∧ Anchored s base
  | n :: below, v => ∃ p, Place.At s t base below p ∧ t.cached p n = some v ∧ v ∉ s.live

theorem Place.At.here (h : Anchored s v) :
    Place.At s t (Place.mk v []).base (Place.mk v []).below v := ⟨rfl, h⟩

theorem Place.At.live (h : Grown s t) : ∀ {below : List Seg} {v : ℕ},
    Place.At s t u below v → v ∈ t.live := by
  intro below
  induction below with
  | nil =>
    rintro v ⟨rfl, ha⟩
    exact h.live v (ha.live h.before)
  | cons n below ih =>
    rintro v ⟨p, hp, hc, -⟩
    exact (h.now.cached_mem (ih hp) hc).1

theorem Place.At.request (r : FsRequest) : ∀ {below : List Seg} {v : ℕ},
    Place.At s t u below v → Place.At s (t.request r) u below v := by
  intro below
  induction below with
  | nil => exact fun h => h
  | cons n below ih =>
    rintro v ⟨p, hp, hc, hnew⟩
    exact ⟨p, ih hp, hc, hnew⟩

theorem Place.At.cacheNode (h : Grown s t) (hv : v ∉ t.live) (hcur : cur ∈ t.live)
    (hnone : t.cached cur seg = none) (m : ℕ) (node : FsNode) : ∀ {below : List Seg} {w : ℕ},
    Place.At s t u below w → Place.At s (t.cacheNode v m cur seg node) u below w := by
  intro below
  induction below with
  | nil => exact fun h => h
  | cons n below ih =>
    rintro w ⟨p, hp, hc, hnew⟩
    refine ⟨p, ih hp, ?_, hnew⟩
    rw [h.now.cached_cacheNode hv hcur (hp.live h), if_neg]
    · exact hc
    · rintro ⟨rfl, rfl⟩
      rw [hnone] at hc
      cases hc

/-- What is below a ventry that the walk added, the walk added. -/
theorem Grown.added_below (h : Grown s t) (hu : u ∈ t.live) (hnot : u ∉ s.live)
    (hc : t.cached u n = some v) : v ∉ s.live := by
  intro hv
  obtain ⟨-, hparent, hroot⟩ := h.now.cached_mem hu hc
  rw [h.isRoot v hv] at hroot
  obtain ⟨p, hp, hp', -⟩ := h.before.parent v hv hroot
  rw [h.parent v hv, hp'] at hparent
  cases hparent
  exact hnot hp

/-- The mount and the link of the ventry of a place are those of the place. -/
theorem Place.At.mount (h : Grown s t) (hat : Place.At s t place.base place.below v) :
    t.mount v = place.mount s := by
  have hlive := hat.live h
  unfold Place.mount
  cases hbelow : place.below with
  | nil =>
    rw [hbelow] at hat
    obtain ⟨rfl, ha⟩ := hat
    rw [if_pos rfl, h.mount _ (ha.live h.before)]
  | cons n below =>
    rw [hbelow] at hat
    obtain ⟨p, -, -, hnew⟩ := hat
    rw [if_neg (cons_ne_nil n below), h.bare v hlive hnew]

/-- A symlink of the tree is one in that of the walk. -/
theorem Place.At.isSymlink (h : Grown s t) (hat : Place.At s t place.base place.below v)
    (hlink : place.isSymlink s = true) : t.isSymlink v = true := by
  obtain ⟨hbelow, hbase⟩ := Bool.and_eq_true_iff.mp hlink
  rw [decide_eq_true_eq] at hbelow
  rw [hbelow] at hat
  obtain ⟨rfl, ha⟩ := hat
  rw [h.isSymlink _ (ha.live h.before)]
  exact hbase

/-- The root of a mount that a walk goes into. -/
theorem Place.At.root (h : Grown s t) (hat : Place.At s t place.base place.below v)
    (hm : t.mount v = some m) : Anchored s (s.mountRoot m) ∧ t.mountRoot m = s.mountRoot m := by
  rw [hat.mount h, Place.mount] at hm
  split_ifs at hm with hbelow
  rw [hbelow] at hat
  obtain ⟨-, ha⟩ := hat
  exact ⟨ha.root hm, congrFun h.mountRoot m⟩

theorem Grown.mounted (h : Grown s t) (hvroot : (s.mount s.vroot).isSome) :
    (t.mount t.vroot).isSome := by
  rw [h.vroot, h.mount s.vroot h.before.vroot.1]
  exact hvroot

inductive Climb (s : Vfs) : ℕ → ℕ → Prop
  | top {v : ℕ} : s.parent v = none → (s.mount v).isSome → Climb s 0 v
  | up {v p n : ℕ} : s.parent v = some p → Climb s n p → Climb s (n + 1) v

theorem Anchored.climb (h : CountInv s) (hroot : (s.mount s.vroot).isSome) (ha : Anchored s v) :
    ∃ n, Climb s n v := by
  induction ha with
  | vroot => exact ⟨0, .top h.vroot.2.2 hroot⟩
  | child ha hc ih =>
    obtain ⟨n, hn⟩ := ih
    exact ⟨n + 1, .up (h.child _ (ha.live h) _ hc).2.1 hn⟩
  | root ha hm ih =>
    obtain ⟨n, hn⟩ := ih
    exact ⟨n + 1, .up (h.mounted _ (ha.live h) _ hm).2 hn⟩

variable {k depth : ℕ}

theorem Climb.findMountPoint (h : Climb s k v) (hdepth : k < depth) :
    (s.findMountPoint depth v).isSome := by
  induction h generalizing depth with
  | top _ hm =>
    obtain ⟨depth, rfl⟩ := Nat.exists_eq_add_of_lt hdepth
    obtain ⟨m, hm⟩ := isSome_iff_exists.mp hm
    simp [Vfs.findMountPoint, hm]
  | @up v p n hp _ ih =>
    obtain ⟨depth, rfl⟩ : ∃ d, depth = d + 1 := ⟨depth - 1, by omega⟩
    rw [Vfs.findMountPoint]
    cases s.mount v with
    | some m => rfl
    | none =>
      rw [hp]
      exact ih (by omega)

theorem findMountPoint_congr (hp : t.parent = s.parent) (hm : t.mount = s.mount) :
    ∀ (depth v : ℕ), t.findMountPoint depth v = s.findMountPoint depth v := by
  intro depth
  induction depth with
  | zero => exact fun v => rfl
  | succ depth ih =>
    intro v
    rw [Vfs.findMountPoint, Vfs.findMountPoint, hp, hm, funext ih]

/-- A round of a trim finds the mount that it tells. -/
theorem Climb.trimOne {p : ℕ} (h : Climb s k v) (hdepth : k < depth) (hp : t.parent = s.parent)
    (hm : t.mount = s.mount) : ∃ t', t.trimOne depth p v = some t' ∧ t'.parent = s.parent ∧
    t'.mount = s.mount := by
  have hforget : ∀ t' : Vfs, t'.parent = s.parent → t'.mount = s.mount →
      (t'.forgetIpc depth v).isSome := by
    intro t' hp' hm'
    obtain ⟨m, hfind⟩ := isSome_iff_exists.mp (h.findMountPoint hdepth)
    rw [Vfs.forgetIpc, findMountPoint_congr hp' hm', hfind]
    rfl
  have hsome : (t.trimOne depth p v).isSome := by
    rw [Vfs.trimOne, isSome_map]
    exact hforget _ hp hm
  obtain ⟨t', ht'⟩ := isSome_iff_exists.mp hsome
  obtain ⟨told, -, rfl⟩ := trimOne_eq ht'
  exact ⟨_, ht', hp, hm⟩

/-- A trim stops at the root at the latest. -/
theorem Climb.trimLoop (h : Climb s k v) (hdepth : k < depth) : ∀ {fuel : ℕ} {t : Vfs}, k < fuel →
    t.parent = s.parent → t.mount = s.mount → (Vfs.trimLoop depth fuel t v).isSome := by
  induction h with
  | @top v hnone _ =>
    intro fuel t hfuel hp _
    obtain ⟨fuel, rfl⟩ : ∃ f, fuel = f + 1 := ⟨fuel - 1, by omega⟩
    rw [Vfs.trimLoop, hp, hnone]
    rfl
  | @up v p n hparent hclimb ih =>
    intro fuel t hfuel hp hm
    obtain ⟨fuel, rfl⟩ : ∃ f, fuel = f + 1 := ⟨fuel - 1, by omega⟩
    rw [Vfs.trimLoop, hp, hparent]
    dsimp only
    split_ifs
    · rfl
    · rfl
    · obtain ⟨t', ht', hp', hm'⟩ := (Climb.up hparent hclimb).trimOne hdepth hp hm
      rw [ht']
      exact ih (by omega) (by omega) hp' hm'

theorem Anchored.trimVentries (h : CountInv s) (hroot : (s.mount s.vroot).isSome)
    (ha : Anchored s v) : ∃ n, ∀ depth ≥ n, (s.trimVentries depth v).isSome := by
  obtain ⟨k, hk⟩ := ha.climb h hroot
  exact ⟨k + 1, fun depth hdepth => hk.trimLoop hdepth hdepth rfl rfl⟩

section Lookup

variable {fs : FsAnswers} {salloc : Vfs → ℕ}

/-- A lookup that finds a ventry finds that of the place. -/
theorem lookupVentry_place (hsalloc : ∀ s : Vfs, salloc s ∉ s.live) (h : Grown s t)
    (hat : Place.At s t place.base place.below prev) {t' : Vfs} {found : Option ℕ}
    (hlookup : t.lookupVentry fs salloc m prev seg = (t', found)) :
    Grown s t' ∧ ∀ v ∈ found, Place.At s t' (place.move s seg).base (place.move s seg).below v := by
  obtain ⟨base, below⟩ := place
  have hprev := hat.live h
  unfold Place.move
  cases lookupVentry_cases hlookup with
  | dot =>
    refine ⟨h, ?_⟩
    rintro v ⟨⟩
    exact hat
  | dotdot =>
    refine ⟨h, ?_⟩
    rintro v ⟨⟩
    cases below with
    | nil =>
      obtain ⟨rfl, ha⟩ := hat
      exact ⟨h.parentOf ha, ha.parentOf h.before⟩
    | cons n below =>
      obtain ⟨p, hp, hc, -⟩ := hat
      obtain ⟨-, hparent, hroot⟩ := h.now.cached_mem (hp.live h) hc
      have hup : t.parentOf prev = p := by
        unfold Vfs.parentOf
        rw [hparent, hroot]
        exact congrArg (Option.getD · prev) hparent
      rw [hup]
      exact hp
  | cached hname hcached =>
    refine ⟨h, ?_⟩
    rintro w ⟨⟩
    rw [if_neg hname.1, if_neg hname.2]
    by_cases hmiss : Place.Misses s ⟨base, below⟩ seg
    · rw [hmiss.child]
      refine ⟨prev, hat, hcached, ?_⟩
      cases below with
      | nil =>
        obtain ⟨rfl, ha⟩ := hat
        exact h.added _ (ha.live h.before) (hmiss rfl) hcached
      | cons n below => exact h.added_below hprev hat.choose_spec.2.2 hcached
    · -- the name is in the tree, and a child of the ventry that the place is
      obtain ⟨hnil, hsome⟩ := Classical.not_imp.mp hmiss
      cases hnil
      obtain ⟨c, hc⟩ := ne_none_iff_exists'.mp hsome
      obtain ⟨rfl, ha⟩ := hat
      simp only [Place.child, hc]
      cases (h.cached _ (ha.live h.before) hc).symm.trans hcached
      exact ⟨rfl, ha.child (mem_of_find?_eq_some hc)⟩
  | missing _ _ hasked => exact hasked ▸ ⟨h.request _, by rintro v ⟨⟩⟩
  | @new _ asked node hname hcached hasked _ =>
    have hmiss : Place.Misses s ⟨base, below⟩ seg := by
      rintro rfl
      obtain ⟨rfl, ha⟩ := hat
      by_contra hsome
      obtain ⟨c, hc⟩ := ne_none_iff_exists'.mp hsome
      cases hcached.symm.trans (h.cached _ (ha.live h.before) hc)
    have hgrown : Grown s asked := hasked ▸ h.request _
    have hat' : Place.At s asked base below prev := hasked ▸ hat.request _
    have hnone : asked.cached prev seg = none := hasked ▸ hcached
    have hfresh := hsalloc asked
    have hprev' := hat'.live hgrown
    refine ⟨hgrown.cacheNode hfresh hprev' hnone m node, ?_⟩
    rintro v ⟨⟩
    rw [if_neg hname.1, if_neg hname.2, hmiss.child]
    refine ⟨prev, hat'.cacheNode hgrown hfresh hprev' hnone m node, ?_, ?_⟩
    · rw [hgrown.now.cached_cacheNode hfresh hprev' hprev', if_pos ⟨rfl, rfl⟩]
    · exact fun hlive => hfresh (hgrown.live _ hlive)

end Lookup

end Vfs

end Toddler
