import Mathlib.Data.List.Basic
import Mathlib.Tactic

/-! Indexing, updating and inserting at the position where a list is cut in two. -/

namespace Toddler

variable {α : Type*}

@[simp] theorem getElem?_cut (pre : List α) (a : α) (l : List α) :
    (pre ++ a :: l)[pre.length]? = some a := by
  simp

theorem insertIdx_cut (pre l : List α) (a : α) :
    (pre ++ l).insertIdx pre.length a = pre ++ a :: l := by
  induction pre with
  | nil => simp
  | cons b pre ih => simpa using ih

theorem modify_cut (pre : List α) (a : α) (l : List α) (f : α → α) :
    (pre ++ a :: l).modify pre.length f = pre ++ f a :: l := by
  induction pre with
  | nil => simp
  | cons b pre ih => simpa using ih

theorem getElem?_cut_succ (pre : List α) (a b : α) (l : List α) :
    (pre ++ a :: b :: l)[pre.length + 1]? = some b := by
  simp

theorem insertIdx_cut_succ (pre l : List α) (a b : α) :
    (pre ++ a :: l).insertIdx (pre.length + 1) b = pre ++ a :: b :: l := by
  simpa using insertIdx_cut (pre ++ [a]) l b

theorem modify_cut_succ (pre : List α) (a b : α) (l : List α) (f : α → α) :
    (pre ++ a :: b :: l).modify (pre.length + 1) f = pre ++ a :: f b :: l := by
  simpa using modify_cut (pre ++ [a]) b l f

theorem getD_cut (pre l : List α) (d : α) : (pre ++ l).getD pre.length d = l.headD d := by
  cases l <;> simp [List.getD]

theorem getD_cut_succ (pre l : List α) (a d : α) :
    (pre ++ a :: l).getD (pre.length + 1) d = l.headD d := by
  simpa using getD_cut (pre ++ [a]) l d

end Toddler
