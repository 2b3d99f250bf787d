import Mathlib.Data.List.Sort

/-! The sorted operations of `kernel/struct/list.c` on sequences. `le a b` stands for
`cmp(b, a) >= 0`. A merger returns its first argument with the second one merged in, or `none`. -/

namespace Toddler

variable {α : Type*}

/-- `list_insert_sorted` puts `n` right before the first node that is not below it. -/
def listInsertSorted (le : α → α → Bool) (n : α) (l : List α) : List α :=
  l.takeWhile (fun a => !le n a) ++ n :: l.dropWhile fun a => !le n a

/-- The second half of `list_merge`: `n` with the node after it. The nodes to free come second. -/
def listMergeNext (merger : α → α → Option α) (n : α) : List α → List α × List α
  | [] => ([n], [])
  | next :: rest =>
    match merger n next with
    | some m => (m :: rest, [next])
    | none => (n :: next :: rest, [])

def listMerge (merger : α → α → Option α) (pre : List α) (n : α) (post : List α) :
    List α × List α :=
  match pre.getLast?.bind fun prev => merger prev n with
  | some m =>
    let r := listMergeNext merger m post
    (pre.dropLast ++ r.1, n :: r.2)
  | none =>
    let r := listMergeNext merger n post
    (pre ++ r.1, r.2)

def listInsertMergeSorted (le : α → α → Bool) (merger : α → α → Option α) (n : α) (l : List α) :
    List α × List α :=
  listMerge merger (l.takeWhile fun a => !le n a) n (l.dropWhile fun a => !le n a)

theorem listInsertSorted_perm (le : α → α → Bool) (n : α) (l : List α) :
    (listInsertSorted le n l).Perm (n :: l) := by
  unfold listInsertSorted
  refine List.perm_middle.trans ?_
  rw [List.takeWhile_append_dropWhile]

end Toddler
