import Mathlib.Data.List.Nodup
import Mathlib.Tactic

/-! Singly linked lists in an array of links. `Chain link h l` says that following `link` from the
link `h` visits exactly the cells of `l` and then ends. -/

namespace Toddler

open Function

variable {α : Type*}

/-- The cells reached from `h`, in order. -/
def Chain (link : α → Option α) : Option α → List α → Prop
  | h, [] => h = none
  | h, a :: l => h = some a ∧ Chain link (link a) l

def walk (link : α → Option α) : ℕ → Option α → List α
  | 0, _ => []
  | _ + 1, none => []
  | fuel + 1, some a => a :: walk link fuel (link a)

variable {link : α → Option α} {l : List α}

theorem walk_of_chain : ∀ {h : Option α} {fuel : ℕ}, Chain link h l → l.length ≤ fuel →
    walk link fuel h = l := by
  induction l with
  | nil =>
    intro h fuel hc _
    cases hc
    cases fuel <;> rfl
  | cons a l ih =>
    rintro h (_ | fuel) ⟨rfl, hc⟩ hlen
    · simp at hlen
    · rw [walk, ih hc (by simpa using hlen)]

variable {h : Option α}

theorem Chain.eq_nil_iff (hc : Chain link h l) : l = [] ↔ h = none := by
  cases l with
  | nil => exact ⟨fun _ => hc, fun _ => rfl⟩
  | cons a l => simp [hc.1]

theorem Chain.congr {link' : α → Option α} (hc : Chain link h l)
    (heq : ∀ a ∈ l, link' a = link a) : Chain link' h l := by
  induction l generalizing h with
  | nil => exact hc
  | cons a l ih =>
    refine ⟨hc.1, ?_⟩
    rw [heq a (List.mem_cons_self ..)]
    exact ih hc.2 fun b hb => heq b (List.mem_cons_of_mem a hb)

variable [DecidableEq α] {a : α}

theorem Chain.update {v : Option α} (ha : a ∉ l) :
    ∀ {h : Option α}, Chain link h l → Chain (update link a v) h l := by
  induction l with
  | nil => exact fun hc => hc
  | cons b l ih =>
    rintro h ⟨rfl, hc⟩
    simp only [List.mem_cons, not_or] at ha
    refine ⟨rfl, ?_⟩
    rw [update_of_ne (Ne.symm ha.1)]
    exact ih ha.2 hc

theorem Chain.push (ha : a ∉ l) (hc : Chain link h l) :
    Chain (Function.update link a h) (some a) (a :: l) := by
  refine ⟨rfl, ?_⟩
  rw [Function.update_self]
  exact hc.update ha

/-- Bypassing the cell after `a`. -/
theorem Chain.unlink {pre post : List α} {b : α} : ∀ {h : Option α}, (pre ++ a :: b :: post).Nodup →
    Chain link h (pre ++ a :: b :: post) →
    Chain (Function.update link a (link b)) h (pre ++ a :: post) := by
  induction pre with
  | nil =>
    rintro h hd ⟨rfl, -, hc⟩
    have ha : a ∉ post := fun hp => by simp [hp] at hd
    refine ⟨rfl, ?_⟩
    rw [Function.update_self]
    exact hc.update ha
  | cons c pre ih =>
    rintro h hd ⟨rfl, hc⟩
    have hca : c ≠ a := fun hca => by simp [hca] at hd
    refine ⟨rfl, ?_⟩
    rw [Function.update_of_ne hca]
    exact ih (List.nodup_cons.mp hd).2 hc

end Toddler
