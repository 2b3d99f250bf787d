import Mathlib.Logic.Function.Basic
import Toddler.Lib.Word
import Toddler.Spec.VfsServer

/-! The tree of ventries of the VFS server (`system/vfs/vfs.c`): walks, acquisitions, releases and
mounts, one call at a time. The fields of `struct ventry` are functions of its address. The children
of a ventry, from `child` along `sibling.next`, are a list. A `struct vnode` belongs to one ventry
and is kept with it, and the mounts, which are never freed, are numbered; the number of a mount
stands for where its requests go. A walk takes a path as the list of its segments. The loops that
climb the tree have a bound `depth` on the parents that they pass, and an `ulong` has 64 bits. An
access through a null pointer or outside of a buffer is `none`, and so is a call that does not
return. -/

namespace Toddler

open Function

abbrev Seg := List UInt8

def dot : Seg := [0x2e]

def dotdot : Seg := [0x2e, 0x2e]

def pathSegs (path : List UInt8) : List Seg := (path.splitOn 0x2f).filter (· ≠ [])

inductive FsRequest
  | lookup (mount id : ℕ) (name : Seg)
  | forget (mount id : ℕ)
  | acquire (mount id : ℕ)
  | release (mount id : ℕ)
  | symlinkRead (mount id : ℕ)
  | mount (pid opcode : ℕ)
  deriving DecidableEq

/-- What is read of the response to a lookup or an acquisition. -/
structure FsNode where
  id : ℕ
  type : ℤ
  deriving DecidableEq

/-- What the file systems answer, given the requests before; `none` is an error. For a link it is
the string that the buffer holds after all reads of it, and `none` if these do not come to an
end. -/
structure FsAnswers where
  lookup : List FsRequest → ℕ → ℕ → Seg → Option FsNode
  acquire : List FsRequest → ℕ → ℕ → Option FsNode
  symlinkRead : List FsRequest → ℕ → ℕ → Option (List UInt8)
  mount : List FsRequest → ℕ → ℕ → Option ℕ

structure VentVnode where
  fsId : ℕ
  type : ℤ
  mount : ℕ
  openCount : ℕ
  deriving DecidableEq

structure FreedVentry where
  vent : ℕ
  children : List ℕ
  acquired : ℕ
  vnode : Option VentVnode
  isRoot : Bool
  deriving DecidableEq

/-- The state of the VFS server. `log`, `acquired` (the acquisitions of a ventry that are not
released) and `freed` are not part of the program. -/
structure Vfs where
  vroot : ℕ
  live : List ℕ
  parent : ℕ → Option ℕ
  children : ℕ → List ℕ
  isRoot : ℕ → Bool
  isSymlink : ℕ → Bool
  name : ℕ → Seg
  fsId : ℕ → ℕ
  fromMount : ℕ → Option ℕ
  mount : ℕ → Option ℕ
  vnode : ℕ → Option VentVnode
  refCount : ℕ → ℕ
  numMounts : ℕ
  mountRoot : ℕ → ℕ
  mountRootFsId : ℕ → ℕ
  opsIgnoreMap : ℕ → ℕ
  log : List FsRequest
  acquired : ℕ → ℕ
  freed : List FreedVentry

namespace Vfs

def newVentry (s : Vfs) (v : ℕ) : Vfs :=
  { s with
    live := v :: s.live
    parent := update s.parent v none
    children := update s.children v []
    isRoot := update s.isRoot v false
    isSymlink := update s.isSymlink v false
    name := update s.name v []
    fsId := update s.fsId v 0
    fromMount := update s.fromMount v none
    mount := update s.mount v none
    vnode := update s.vnode v none
    refCount := update s.refCount v 0 }

def request (s : Vfs) (r : FsRequest) : Vfs := { s with log := s.log ++ [r] }

def refCountInc (s : Vfs) (v : ℕ) : Vfs :=
  { s with refCount := update s.refCount v (add64 (s.refCount v) 1) }

def refCountDec (s : Vfs) (v : ℕ) : Vfs :=
  { s with refCount := update s.refCount v (sub64 (s.refCount v) 1) }

def findMountPoint (s : Vfs) : ℕ → ℕ → Option ℕ
  | 0, _ => none
  | depth + 1, v =>
    match s.mount v with
    | some m => some m
    | none => (s.parent v).bind (findMountPoint s depth)

def attachVentry (s : Vfs) (parent v : ℕ) : Vfs :=
  let s := s.refCountInc parent
  { s with
    parent := update s.parent v (some parent)
    children := update (update s.children v []) parent (v :: s.children parent) }

/-- `detach_ventry` of a ventry with the parent. -/
def detachVentry (s : Vfs) (parent v : ℕ) : Vfs :=
  let s := { s with children := update s.children parent ((s.children parent).erase v) }
  s.refCountDec parent

def opForget : ℕ := 4

def opRelease : ℕ := 6

def opSymlinkRead : ℕ := 21

def forgetIpc (depth : ℕ) (s : Vfs) (v : ℕ) : Option Vfs := do
  let m ← s.findMountPoint depth v
  some (if (s.opsIgnoreMap m).testBit opForget then s else s.request (.forget m (s.fsId v)))

def sfreeVentry (s : Vfs) (v : ℕ) : Vfs := { s with live := s.live.filter (· ≠ v) }

/-- What the loop of `trim_ventries` finds in use keeps it from freeing the ventry. -/
def vnodeInUse (s : Vfs) (v : ℕ) : Bool := (s.vnode v).any fun node => node.openCount ≠ 0

def trimOne (depth : ℕ) (s : Vfs) (parent v : ℕ) : Option Vfs :=
  let s := { s with freed := ⟨v, s.children v, s.acquired v, s.vnode v, s.isRoot v⟩ :: s.freed }
  let s := { s with vnode := update s.vnode v none }
  let s := s.detachVentry parent v
  (s.forgetIpc depth v).map fun s => s.sfreeVentry v

def trimLoop (depth : ℕ) : ℕ → Vfs → ℕ → Option Vfs
  | 0, _, _ => none
  | fuel + 1, s, v =>
    match s.parent v with
    | none => some s
    | some parent =>
      if s.isRoot v ∨ s.refCount v ≠ 0 then some s
      else if s.vnodeInUse v then some s
      else do
        let s ← s.trimOne depth parent v
        trimLoop depth fuel s parent

def trimVentries (depth : ℕ) (s : Vfs) (v : ℕ) : Option Vfs := trimLoop depth depth s v

section Walk

variable (depth : ℕ) (fs : FsAnswers) (salloc : Vfs → ℕ)

def cacheNode (s : Vfs) (v mount cur : ℕ) (seg : Seg) (node : FsNode) : Vfs :=
  let s := s.newVentry v
  let s :=
    { s with
      fsId := update s.fsId v node.id
      isSymlink := update s.isSymlink v (node.type = NodeType.symlink.code)
      name := update s.name v seg
      fromMount := update s.fromMount v (some mount) }
  s.attachVentry cur v

def lookupId (s : Vfs) (mount cur : ℕ) : ℕ :=
  if s.mount cur = some mount then s.mountRootFsId mount else s.fsId cur

def lookupIpc (s : Vfs) (mount cur : ℕ) (seg : Seg) : Vfs × Option ℕ :=
  let id := s.lookupId mount cur
  let sent := s.request (.lookup mount id seg)
  match fs.lookup s.log mount id seg with
  | none => (sent, none)
  | some node => (sent.cacheNode (salloc sent) mount cur seg node, some (salloc sent))

def parentOf (s : Vfs) (cur : ℕ) : ℕ :=
  match s.parent cur with
  | none => cur
  | some parent =>
    let cur := if s.isRoot cur then parent else cur
    (s.parent cur).getD cur

/-- The child that a name finds in the cache. -/
def cached (s : Vfs) (cur : ℕ) (seg : Seg) : Option ℕ :=
  (s.children cur).find? fun v => s.name v = seg

def lookupVentry (s : Vfs) (mount cur : ℕ) (seg : Seg) : Vfs × Option ℕ :=
  if seg = dot then (s, some cur)
  else if seg = dotdot then (s, some (s.parentOf cur))
  else
    match s.cached cur seg with
    | some v => (s, some v)
    | none => s.lookupIpc fs salloc mount cur seg

inductive Lock
  | mount (m : ℕ)
  | vent (v : ℕ)
  deriving DecidableEq

inductive LockOp
  | wlock (l : Lock)
  | wunlock (l : Lock)
  deriving DecidableEq

/-- Where a walk stands: the state, `cur_mount`, `cur_vent` and the segments that are left. -/
structure WalkEnd where
  vfs : Vfs
  mount : ℕ
  vent : Option ℕ
  remain : List Seg

/-- The loop of `_try_walk_path`, with `cur_mount` and `prev_vent`: what it does to locks, and where
it ends. A thread that asks for a lock it holds waits for ever. -/
def walkLoop : List Seg → Vfs → (mount prev : ℕ) → List LockOp × Option WalkEnd
  | [], s, mount, prev => ([], some ⟨s, mount, some prev, []⟩)
  | seg :: segs, s, mount, prev =>
    let (s, cur) := s.lookupVentry fs salloc mount prev seg
    match cur with
    | none => ([], (s.trimVentries depth prev).map fun s => ⟨s, mount, none, []⟩)
    | some cur =>
      match s.mount cur with
      | some m =>
        if m = mount then ([.wlock (.mount m)], none)
        else
          let (ops, walkEnd) :=
            if s.isSymlink (s.mountRoot m) then ([], some ⟨s, m, some (s.mountRoot m), segs⟩)
            else walkLoop segs s m (s.mountRoot m)
          (.wlock (.mount m) :: .wunlock (.mount mount) :: ops, walkEnd)
      | none =>
        if s.isSymlink cur then ([], some ⟨s, mount, some cur, segs⟩) else walkLoop segs s mount cur

/-- What `_try_walk_path` does to locks when the loop is done. -/
def walkDone (w : WalkEnd) : List LockOp :=
  (w.vent.map fun v => LockOp.wlock (.vent v)).toList ++ [.wunlock (.mount w.mount)]

/-- `_try_walk_path`: what it does to locks, the state, the ventry returned and `*remain_path`. -/
def tryWalkPath (s : Vfs) (root : ℕ) (segs : List Seg) :
    List LockOp × Option (Vfs × Option ℕ × List Seg) :=
  match s.mount root with
  | none => ([], some (s, none, []))
  | some mount =>
    if segs = [] then ([.wlock (.vent (s.mountRoot mount))], some (s, some (s.mountRoot mount), []))
    else
      let (ops, walkEnd) := walkLoop depth fs salloc segs s mount (s.mountRoot mount)
      (.wlock (.mount mount) :: ops ++ (walkEnd.map walkDone).getD [],
        walkEnd.map fun w => (w.vfs, w.vent, w.remain))

/-- The bytes of a path from its first one that is no slash. -/
def skipSlashes (path : List UInt8) : List UInt8 := path.dropWhile (· = 0x2f)

/-- What is left of a path after `n` segments; it is `NULL` if the last one of them ends the
path. -/
def remainPath : ℕ → List UInt8 → Option (List UInt8)
  | 0, path => some path
  | n + 1, path =>
    match path.dropWhile (· ≠ 0x2f) with
    | [] => none
    | next => remainPath n (skipSlashes next)

def symlinkReadToBuf (s : Vfs) (v : ℕ) : Option (Vfs × List UInt8) := do
  let m ← s.fromMount v
  if (s.opsIgnoreMap m).testBit opSymlinkRead then some (s, [])
  else (fs.symlinkRead s.log m (s.fsId v)).map (s.request (.symlinkRead m (s.fsId v)), ·)

def pathBufSize : ℕ := 512

/-- The string in `path_buf`: the link, and what remains of the path behind it. -/
def pathBuf (link : List UInt8) (remain : Option (List UInt8)) : List UInt8 :=
  link ++ (remain.map (0x2f :: ·)).getD []

/-- The loop of `walk_path` that follows symlinks, with the path that was walked and the segments
that are left of it: the strings that it puts into its buffers, and the ventry returned. -/
def followLoop : ℕ → Vfs → ℕ → Option ℕ → List UInt8 → List Seg →
    List (List UInt8) × Option (Vfs × Option ℕ)
  | _, s, _, none, _, _ => ([], some (s, none))
  | levels, s, root, some v, path, left =>
    if s.isSymlink v then
      match s.symlinkReadToBuf fs v with
      | none => ([], none)
      | some (s, link) =>
        let buf := pathBuf link (remainPath ((pathSegs path).length - left.length) path)
        if pathBufSize ≤ buf.length then ([buf], none)
        else
          match s.trimVentries depth v, levels with
          | none, _ => ([buf], none)
          | some s, 0 => ([buf], some (s, none))
          | some s, levels + 1 =>
            match (s.tryWalkPath depth fs salloc root (pathSegs (skipSlashes buf))).2 with
            | none => ([buf], none)
            | some (s, vent, left) =>
              let (bufs, walkEnd) := followLoop levels s root vent (skipSlashes buf) left
              (buf :: bufs, walkEnd)
    else ([], some (s, some v))

def walkPath (s : Vfs) (root : ℕ) (path : List UInt8) :
    List (List UInt8) × Option (Vfs × Option ℕ) :=
  match (s.tryWalkPath depth fs salloc root (pathSegs path)).2 with
  | none => ([], none)
  | some (s, vent, left) => followLoop depth fs salloc 9 s root vent path left

def acquireIpc (s : Vfs) (v : ℕ) : Option Vfs := do
  let m ← s.findMountPoint depth v
  let sent := s.request (.acquire m (s.fsId v))
  match fs.acquire s.log m (s.fsId v) with
  | none => some sent
  | some node => some { sent with vnode := update sent.vnode v (some ⟨node.id, node.type, m, 0⟩) }

/-- The vnode of a ventry that a walk returned, as `vfs_acquire` asks for it. -/
def needVnode (s : Vfs) (v : ℕ) : Option Vfs := if (s.vnode v).isSome then some s
    else s.acquireIpc depth fs v

def countAcquire (s : Vfs) (v : ℕ) (node : VentVnode) : Vfs :=
  let s := s.refCountInc v
  { s with
    vnode := update s.vnode v (some { node with openCount := add64 node.openCount 1 })
    acquired := update s.acquired v (s.acquired v + 1) }

def vfsAcquire (s : Vfs) (path : List UInt8) : Option (Vfs × Option ℕ) := do
  let (s, vent) ← (s.walkPath depth fs salloc s.vroot (skipSlashes path)).2
  match vent with
  | none => some (s, none)
  | some v => do
    let s ← s.needVnode depth fs v
    match s.vnode v with
    | none => (s.trimVentries depth v).map fun s => (s, none)
    | some node => some (s.countAcquire v node, some v)

def countRelease (s : Vfs) (v : ℕ) (node : VentVnode) : Vfs :=
  let s :=
    { s with
      vnode := update s.vnode v (some { node with openCount := sub64 node.openCount 1 })
      acquired := update s.acquired v (s.acquired v - 1) }
  s.refCountDec v

def releaseIpc (s : Vfs) (v : ℕ) (node : VentVnode) : Vfs :=
  if (s.opsIgnoreMap node.mount).testBit opRelease then s
    else s.request (.release node.mount (s.fsId v))

/-- `vfs_release` of a ventry that is not `NULL`; it returns 0. -/
def vfsRelease (s : Vfs) (v : ℕ) : Option Vfs := do
  let node ← s.vnode v
  let s := (s.countRelease v node).releaseIpc v node
  if node.openCount = 1 then s.trimVentries depth v else some s

def addMount (s : Vfs) (vent root ignore rootFsId : ℕ) : Vfs :=
  let m := s.numMounts
  let s :=
    { s with
      numMounts := m + 1
      mount := update s.mount vent (some m)
      mountRootFsId := update s.mountRootFsId m rootFsId
      opsIgnoreMap := update s.opsIgnoreMap m (ignore % 2 ^ 32)
      mountRoot := update s.mountRoot m root }
  let s := s.newVentry root
  { s with
    fsId := update s.fsId root rootFsId
    name := update s.name root [0x2f]
    parent := update s.parent root (some vent)
    isRoot := update s.isRoot root true
    fromMount := update s.fromMount root (some m)
    refCount := update s.refCount root 1 }

/-- `vfs_mount`; the code returned is 0 if the mount is made. -/
def vfsMountOn (s : Vfs) (vent : Option ℕ) (pid opcode ignore : ℕ) : Vfs × Bool :=
  let vent := vent.getD s.vroot
  if (s.mount vent).isSome then (s, false)
  else if s.children vent ≠ [] then (s, false)
  else
    let sent := s.request (.mount pid opcode)
    match fs.mount s.log pid opcode with
    | none => (sent, false)
    | some rootFsId => (sent.addMount vent (salloc sent) ignore rootFsId, true)

end Walk

def initVfs (s : Vfs) : Vfs :=
  { (s.newVentry s.vroot) with
    name := update (s.newVentry s.vroot).name s.vroot [0x2f]
    isRoot := update (s.newVentry s.vroot).isRoot s.vroot true
    refCount := update (s.newVentry s.vroot).refCount s.vroot 1 }

end Vfs

end Toddler
