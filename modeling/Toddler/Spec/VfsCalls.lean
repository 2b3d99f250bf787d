import Toddler.Lib.Run
import Toddler.Spec.Ventry

/-! The calls of the VFS server, executed one at a time, and what is to hold of its ventries between
them: the counts, the buffers that a call writes to, and the ventries that can be reached from the
root. -/

namespace Toddler

/-- What `trim_ventries` frees is not used. -/
structure FreedVentry.Unused (f : FreedVentry) : Prop where
  children : f.children = []
  acquired : f.acquired = 0
  vnode : ∀ node ∈ f.vnode, node.openCount = 0
  isRoot : f.isRoot = false

namespace Vfs

/-- What refers to a ventry: its children, its acquisitions that are not released, and the tree
itself if it is a root. A root is a ventry with `is_root`, as `trim_ventries` tests it: the root of
a mount, or `vroot`. -/
def refs (s : Vfs) (v : ℕ) : ℕ := (s.children v).length + s.acquired v + if s.isRoot v then 1 else 0

def FewRefs (s : Vfs) : Prop := ∀ v ∈ s.live, s.refs v < word

def FewRequests (s : Vfs) : Prop := s.log.length < word

instance FewRefs.decidable : DecidablePred FewRefs :=
  fun s => inferInstanceAs (Decidable (∀ v ∈ s.live, s.refs v < word))

instance FewRequests.decidable : DecidablePred FewRequests :=
  fun s => inferInstanceAs (Decidable (s.log.length < word))

/-- The counts are exact up to a wrap, and the tree is one: a child is live and knows its parent, a
ventry that is no root is a child, and the root of a mount knows the ventry that the mount is on. -/
structure CountInv (s : Vfs) : Prop where
  vroot : s.vroot ∈ s.live ∧ s.isRoot s.vroot = true ∧ s.parent s.vroot = none
  ref : ∀ v ∈ s.live, s.refCount v = s.refs v % word
  vnode : ∀ v ∈ s.live, ∀ node ∈ s.vnode v, node.openCount = s.acquired v % word
  noVnode : ∀ v ∈ s.live, s.vnode v = none → s.acquired v = 0
  dead : ∀ v, v ∉ s.live → s.acquired v = 0
  child : ∀ v ∈ s.live, ∀ c ∈ s.children v, c ∈ s.live ∧ s.parent c = some v ∧ s.isRoot c = false
  nodup : ∀ v ∈ s.live, (s.children v).Nodup
  parent : ∀ v ∈ s.live, s.isRoot v = false → ∃ p ∈ s.live, s.parent v = some p ∧ v ∈ s.children p
  root : ∀ m < s.numMounts, s.mountRoot m ∈ s.live ∧ s.isRoot (s.mountRoot m) = true
  mounted : ∀ v ∈ s.live, ∀ m ∈ s.mount v, m < s.numMounts ∧ s.parent (s.mountRoot m) = some v
  freed : ∀ f ∈ s.freed, f.Unused

/-- A ventry that can be reached from the root: from there a walk does not get to one that is
freed. -/
inductive Anchored (s : Vfs) : ℕ → Prop
  | vroot : Anchored s s.vroot
  | child {p c : ℕ} : Anchored s p → c ∈ s.children p → Anchored s c
  | root {v m : ℕ} : Anchored s v → s.mount v = some m → Anchored s (s.mountRoot m)

end Vfs

/-- The calls of the VFS server; what the file systems answer is part of the call. -/
inductive VfsCall
  | acquire (depth : ℕ) (fs : FsAnswers) (path : List UInt8)
  | release (depth : ℕ) (v : ℕ)
  | mount (fs : FsAnswers) (vent : Option ℕ) (pid opcode ignore : ℕ)

section

variable (salloc : Vfs → ℕ)

/-- A release is one of a ventry that is acquired, and a mount is on one that is not freed. -/
def vfsCall (s : Vfs) : VfsCall → Option Vfs
  | .acquire depth fs path => (s.vfsAcquire depth fs salloc path).map Prod.fst
  | .release depth v => if s.acquired v = 0 then none else s.vfsRelease depth v
  | .mount fs vent pid opcode ignore =>
    if vent.all (· ∈ s.live) then some (s.vfsMountOn fs salloc vent pid opcode ignore).1 else none

/-- A call after which no count has wrapped. -/
def vfsStep (s : Vfs) (call : VfsCall) : Option Vfs :=
  (vfsCall salloc s call).filter fun t => decide (t.FewRefs ∧ t.FewRequests)

/-- The strings that the call puts into the buffers for paths, each of them with the byte that ends
it, fit. -/
def InBuffers (s : Vfs) : VfsCall → Prop
  | .acquire depth fs path =>
    ∀ buf ∈ (s.walkPath depth fs salloc s.vroot (Vfs.skipSlashes path)).1, buf.length < Vfs.pathBufSize
  | _ => True

instance InBuffers.decidable (s : Vfs) : ∀ call, Decidable (InBuffers salloc s call)
  | .acquire depth fs path => inferInstanceAs (Decidable (∀ buf ∈
      (s.walkPath depth fs salloc s.vroot (Vfs.skipSlashes path)).1, buf.length < Vfs.pathBufSize))
  | .release _ _ => isTrue trivial
  | .mount _ _ _ _ _ => isTrue trivial

end

structure NoVfs (s : Vfs) : Prop where
  live : s.live = []
  acquired : ∀ v, s.acquired v = 0
  numMounts : s.numMounts = 0
  freed : s.freed = []

end Toddler
