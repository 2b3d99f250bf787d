import Mathlib.Data.List.Chain
import Toddler.Spec.VfsCalls

/-! What a walk of `_try_walk_path` is to do: with the locks of mounts and ventries, with the
lookups that it sends, and with the ventry that it returns. -/

namespace Toddler

namespace Vfs

def LockOp.apply (held : List Lock) : LockOp → List Lock
  | .wlock l => l :: held
  | .wunlock l => held.erase l

def heldAfter (ops : List LockOp) : List Lock := ops.foldl LockOp.apply []

def Lock.isMount : Lock → Bool
  | .mount _ => true
  | .vent _ => false

def mountsHeld (ops : List LockOp) : List Lock := (heldAfter ops).filter Lock.isMount

/-- Between `pre` and `post` the lock of a mount has just been taken, and the one held before is
released next. -/
def HandOver (pre post : List LockOp) : Prop :=
  ∃ m m' pre' post', pre = pre' ++ [.wlock (.mount m')] ∧ post = .wunlock (.mount m) :: post' ∧
    mountsHeld pre' = [.mount m]

/-- The locks of a walk that returns `vent`. -/
structure LockDiscipline (ops : List LockOp) (vent : Option ℕ) : Prop where
  fresh : ∀ pre m post, ops = pre ++ .wlock (.mount m) :: post → Lock.mount m ∉ heldAfter pre
  one : ∀ pre post, ops = pre ++ post → (∃ m, .wlock (.mount m) ∈ pre) →
    (∃ m, .wunlock (.mount m) ∈ post) → (∃ m, mountsHeld pre = [.mount m]) ∨ HandOver pre post
  last : heldAfter ops = (vent.map Lock.vent).toList

def Disciplined (walk : List LockOp × Option (Vfs × Option ℕ × List Seg)) : Prop :=
  ∃ t vent remain, walk.2 = some (t, vent, remain) ∧ LockDiscipline walk.1 vent

/-- A ventry of the tree before the walk, and names below it that are not in the tree, the last one
first. -/
structure Place where
  base : ℕ
  below : List Seg
  deriving DecidableEq

def Place.child (s : Vfs) (place : Place) (seg : Seg) : Place :=
  match place.below, s.cached place.base seg with
  | [], some c => ⟨c, []⟩
  | below, _ => ⟨place.base, seg :: below⟩

def Place.move (s : Vfs) (place : Place) (seg : Seg) : Place :=
  if seg = dot then place
  else if seg = dotdot then
    match place.below with
    | [] => ⟨s.parentOf place.base, []⟩
    | _ :: below => ⟨place.base, below⟩
  else place.child s seg

def Place.mount (s : Vfs) (place : Place) : Option ℕ :=
  if place.below = [] then s.mount place.base else none

def Place.isSymlink (s : Vfs) (place : Place) : Bool :=
  decide (place.below = []) && s.isSymlink place.base

/-- The mounts that a path lands on from a place, if the names that are not in the tree exist. -/
def landings (s : Vfs) : Place → List Seg → List ℕ
  | _, [] => []
  | place, seg :: segs =>
    match (place.move s seg).mount s with
    | some m =>
      m :: if s.isSymlink (s.mountRoot m) then [] else landings s ⟨s.mountRoot m, []⟩ segs
    | none =>
      if (place.move s seg).isSymlink s then [] else landings s (place.move s seg) segs

def through (s : Vfs) (e : ℕ) : ℕ := ((s.mount e).map s.mountRoot).getD e

/-- The cached ventry of the names, the last one first, under the mount on it if there is one. -/
def entryAt (s : Vfs) : List Seg → Option ℕ
  | [] => some s.vroot
  | n :: p => (entryAt s p).bind fun e => s.cached (s.through e) n

def ventAt (s : Vfs) (p : List Seg) : Option ℕ := (s.entryAt p).map s.through

def mountAt (s : Vfs) (p : List Seg) : Option ℕ := (s.entryAt p).bind s.mount

/-- A tree of ventries with a mount on its root and none on the roots of mounts. -/
structure MountTree (s : Vfs) : Prop where
  inv : CountInv s
  mounted : (s.mount s.vroot).isSome
  roots : ∀ v ∈ s.live, s.isRoot v = true → v ≠ s.vroot → s.mount v = none

/-- The names that are left after a segment, without `.` and `name/..`; `..` at the root stays
there. -/
def lexStep (p : List Seg) (seg : Seg) : List Seg :=
  if seg = dot then p else if seg = dotdot then p.tail else seg :: p

abbrev FsTree := ℕ → ℕ → Seg → Option FsNode

/-- The mount that owns what the names denote, and its id there. -/
def resolve (tree : FsTree) (s : Vfs) : List Seg → Option (ℕ × ℕ)
  | [] => (s.mount s.vroot).map fun m => (m, s.mountRootFsId m)
  | n :: p => do
    let (m, id) ← resolve tree s p
    let node ← tree m id n
    match s.mountAt (n :: p) with
    | some m' => some (m', s.mountRootFsId m')
    | none => some (m, node.id)

def ownerAt (s : Vfs) : List Seg → Option ℕ
  | [] => s.mount s.vroot
  | n :: p => (s.mountAt (n :: p)).or (ownerAt s p)

/-- What is cached is what the file systems have, and no symlinks. -/
structure CacheOf (tree : FsTree) (s : Vfs) : Prop where
  found : ∀ p v, s.ventAt p = some v →
    ∃ m, resolve tree s p = some (m, s.fsId v) ∧ s.fromMount v = some m
  plain : ∀ p v, s.ventAt p = some v → s.isSymlink v = false
  nodes : ∀ m id n node, tree m id n = some node → node.type ≠ NodeType.symlink.code

/-- The lookups of a walk as they should be, from the names `p` on: a name that is not cached and
has not been looked up by this walk is looked up in the directory that `p` denotes. -/
def lookups (tree : FsTree) (s : Vfs) : List (List Seg) → List Seg → List Seg → List FsRequest
  | _, _, [] => []
  | seen, p, seg :: segs =>
    if seg = dot then lookups tree s seen p segs
    else if seg = dotdot then lookups tree s seen p.tail segs
    else if (s.entryAt (seg :: p)).isSome ∨ seg :: p ∈ seen then
      lookups tree s seen (seg :: p) segs
    else
      match resolve tree s p with
      | none => []
      | some (m, id) =>
        .lookup m id seg ::
          if (resolve tree s (seg :: p)).isSome then
            lookups tree s ((seg :: p) :: seen) (seg :: p) segs
          else []

def isLookup : FsRequest → Bool
  | .lookup _ _ _ => true
  | _ => false

def lookupsSent (s : Vfs) : List FsRequest := s.log.filter isLookup

/-- How a walk that goes on from `t`, the names `p` and those looked up in `seen` is to end; `s` is
the state before it. -/
structure WalkRight (tree : FsTree) (s t : Vfs) (seen : List (List Seg)) (p segs : List Seg)
    (walked : Vfs) (vent : Option ℕ) : Prop where
  sent : walked.lookupsSent = t.lookupsSent ++ lookups tree s seen p segs
  found : ∀ v ∈ vent, walked.ventAt (segs.foldl lexStep p) = some v ∧
    ∃ m, resolve tree s (segs.foldl lexStep p) = some (m, walked.fsId v) ∧
      walked.fromMount v = some m
  missing : vent = none → resolve tree s (segs.foldl lexStep p) = none

/-- The walk of a path from the root. -/
def WalksRight (salloc : Vfs → ℕ) (fs : FsAnswers) (tree : FsTree) (s : Vfs) (segs : List Seg) :
    Prop :=
  ∃ n, ∀ depth ≥ n, ∃ t vent remain,
    (s.tryWalkPath depth fs salloc s.vroot segs).2 = some (t, vent, remain) ∧
    WalkRight tree s s [] [] segs t vent

/-- Whether a path keeps to the owners, from the names `p` on, where `cur` is the mount that it
landed on last: it does not land on that one again, and a name that has to be looked up is one in a
directory of it. A walk ends at a name that does not exist; then the path is to denote nothing. -/
def keepsOwner (tree : FsTree) (s : Vfs) : ℕ → List (List Seg) → List Seg → List Seg → Bool
  | _, _, _, [] => true
  | cur, seen, p, seg :: segs =>
    if seg = dot then keepsOwner tree s cur seen p segs
    else if seg = dotdot then
      if p = [] then
        s.mountAt [] ≠ some cur && keepsOwner tree s ((s.mountAt []).getD cur) seen [] segs
      else keepsOwner tree s cur seen p.tail segs
    else
      match s.mountAt (seg :: p) with
      | some m => m ≠ cur && keepsOwner tree s m seen (seg :: p) segs
      | none =>
        if (s.entryAt (seg :: p)).isSome ∨ seg :: p ∈ seen then
          keepsOwner tree s cur seen (seg :: p) segs
        else
          s.ownerAt p = some cur &&
            if (resolve tree s (seg :: p)).isSome then
              keepsOwner tree s cur ((seg :: p) :: seen) (seg :: p) segs
            else (resolve tree s (segs.foldl lexStep (seg :: p))).isNone

end Vfs

end Toddler
