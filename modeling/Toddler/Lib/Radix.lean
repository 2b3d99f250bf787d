import Mathlib.Logic.Function.Basic
import Mathlib.Tactic

/-! Multi-level tables in a memory of frames. A path gives the index at every depth. An entry leads
to a table of the next depth, or the walk ends there. Tables are separate when a frame holds one
table only, at one depth and for one prefix of a path; a write then concerns only the paths through
the entry written. -/

namespace Toddler

open Function Option

variable {ι E : Type*}

/-- `next k e` is the table that an entry `e` at depth `k` leads to. -/
structure Radix (ι E : Type*) where
  next : ℕ → E → Option ℕ
  root : ℕ
  mem : ℕ → ι → E

namespace Radix

/-- The paths `p` and `q` agree above depth `k`. -/
def SamePath (k : ℕ) (p q : ℕ → ι) : Prop := ∀ j < k, p j = q j

def tableAt (r : Radix ι E) (p : ℕ → ι) : ℕ → Option ℕ
  | 0 => some r.root
  | k + 1 => (r.tableAt p k).bind fun t => r.next k (r.mem t (p k))

def entryAt (r : Radix ι E) (p : ℕ → ι) (k : ℕ) : Option E := (r.tableAt p k).map fun t =>
    r.mem t (p k)

/-- An entry at depth `k` on the path `p` that ends the walk, as `leaf` says. -/
def HasLeaf (leaf : ℕ → E → Prop) (r : Radix ι E) (p : ℕ → ι) (k : ℕ) (e : E) : Prop :=
  r.entryAt p k = some e ∧ leaf k e

def Separate (r : Radix ι E) : Prop :=
  ∀ p q j k f, r.tableAt p j = some f → r.tableAt q k = some f → j = k ∧ SamePath j p q

variable {r r' : Radix ι E} {p q : ℕ → ι} {j k t f : ℕ} {e x z : E}

theorem SamePath.refl (k : ℕ) (p : ℕ → ι) : SamePath k p p := fun _ _ => rfl

theorem SamePath.symm (h : SamePath k p q) : SamePath k q p := fun j hj => (h j hj).symm

theorem SamePath.trans {q' : ℕ → ι} (h : SamePath k p q) (h' : SamePath k q q') : SamePath k p q' :=
  fun j hj => (h j hj).trans (h' j hj)

theorem SamePath.mono (h : SamePath k p q) (hjk : j ≤ k) : SamePath j p q :=
  fun i hi => h i (hi.trans_le hjk)

theorem samePath_succ : SamePath (k + 1) p q ↔ SamePath k p q ∧ p k = q k := by
  constructor
  · intro h
    exact ⟨h.mono (Nat.le_succ k), h k (Nat.lt_succ_self k)⟩
  · rintro ⟨h, hk⟩ j hj
    rcases Nat.lt_succ_iff_lt_or_eq.mp hj with hlt | rfl
    · exact h j hlt
    · exact hk

theorem tableAt_congr (h : SamePath k p q) : r.tableAt p k = r.tableAt q k := by
  induction k with
  | zero => rfl
  | succ k ih =>
    obtain ⟨hk, hi⟩ := samePath_succ.mp h
    rw [tableAt, tableAt, ih hk, hi]

theorem entryAt_congr (h : SamePath (k + 1) p q) : r.entryAt p k = r.entryAt q k := by
  obtain ⟨hk, hi⟩ := samePath_succ.mp h
  rw [entryAt, entryAt, tableAt_congr hk, hi]

theorem tableAt_none_of_le (h : r.tableAt p k = none) (hkj : k ≤ j) : r.tableAt p j = none := by
  induction hkj with
  | refl => exact h
  | step _ ih => rw [tableAt, ih, bind_none]

theorem entryAt_of_tableAt (h : r.tableAt p k = some t) : r.entryAt p k = some (r.mem t (p k)) := by
  rw [entryAt, h, map_some]

theorem tableAt_succ (r : Radix ι E) (p : ℕ → ι) (k : ℕ) :
    r.tableAt p (k + 1) = (r.entryAt p k).bind (r.next k) := by
  rw [entryAt, bind_map]
  rfl

theorem entryAt_deeper (h : r.entryAt p k = some e) (he : r.next k e = none) (hkj : k < j) :
    r.entryAt p j = none := by
  have hnone : r.tableAt p (k + 1) = none := by rw [tableAt_succ, h, bind_some, he]
  rw [entryAt, tableAt_none_of_le hnone hkj, map_none]

/-- Above a table every entry leads on. -/
theorem next_of_tableAt (h : r.tableAt p k = some t) (hjk : j < k) (hx : r.entryAt p j = some x) :
    r.next j x ≠ none := by
  intro hnone
  have : r.tableAt p (j + 1) = none := by rw [tableAt_succ, hx, bind_some, hnone]
  rw [tableAt_none_of_le this hjk] at h
  cases h

theorem Separate.root_depth (hs : r.Separate) (h : r.tableAt p k = some r.root) : k = 0 :=
  ((hs p p 0 k r.root rfl h).1).symm

/-- Tables that were there before stay separate. -/
theorem Separate.of_subset (hs : r.Separate)
    (h : ∀ q j f, r'.tableAt q j = some f → r.tableAt q j = some f) :
    r'.Separate := fun p q j k f hp hq => hs p q j k f (h p j f hp) (h q k f hq)

theorem Separate.of_fresh (hs : r.Separate) (hfresh : ∀ q j, r.tableAt q j ≠ some f)
    (h : ∀ q j g, r'.tableAt q j = some g → r.tableAt q j = some g ∨
    (g = f ∧ j = k ∧ SamePath k p q)) : r'.Separate := by
  intro q₁ q₂ j₁ j₂ g h₁ h₂
  rcases h q₁ j₁ g h₁ with h₁ | ⟨rfl, rfl, hp₁⟩ <;> rcases h q₂ j₂ g h₂ with h₂ | ⟨hg, rfl, hp₂⟩
  · exact hs q₁ q₂ j₁ j₂ g h₁ h₂
  · exact absurd (hg ▸ h₁) (hfresh q₁ j₁)
  · exact absurd h₂ (hfresh q₂ j₂)
  · exact ⟨rfl, hp₁.symm.trans hp₂⟩

/-- Where the walk has an end at depth `k` that is no leaf, there is no leaf. -/
theorem no_leaf_of_end {leaf : ℕ → E → Prop} (hleaf : ∀ {k e}, leaf k e → r.next k e = none)
    (ht : r.tableAt p k = some t) (hold : r.next k (r.mem t (p k)) = none)
    (hno : ¬ leaf k (r.mem t (p k))) (hq : SamePath (k + 1) p q) : ¬ HasLeaf leaf r q j x := by
  rintro ⟨hx, hl⟩
  obtain ⟨hpath, hi⟩ := samePath_succ.mp hq
  have htq : r.tableAt q k = some t := by rw [← tableAt_congr hpath, ht]
  have hk := entryAt_of_tableAt htq
  rw [← hi] at hk
  rcases Nat.lt_trichotomy j k with hlt | rfl | hgt
  · exact next_of_tableAt htq hlt hx (hleaf hl)
  · rw [hk, Option.some.injEq] at hx
    exact hno (hx ▸ hl)
  · rw [entryAt_deeper hk hold hgt] at hx
    cases hx

def clear (r : Radix ι E) (f : ℕ) (z : E) : Radix ι E := { r with mem := update r.mem f fun _ => z }

theorem clear_mem_self (r : Radix ι E) (f : ℕ) (z : E) (i : ι) : (r.clear f z).mem f i = z := by
  simp [clear]

theorem clear_mem_of_ne (r : Radix ι E) (h : t ≠ f) (z : E) (i : ι) :
    (r.clear f z).mem t i = r.mem t i := by
  simp [clear, h]

theorem tableAt_clear (hfresh : ∀ q j, r.tableAt q j ≠ some f) :
    (r.clear f z).tableAt q j = r.tableAt q j := by
  induction j with
  | zero => rfl
  | succ j ih =>
    rw [tableAt, tableAt, ih]
    cases hg : r.tableAt q j with
    | none => rfl
    | some g =>
      have hne : g ≠ f := fun h => hfresh q j (h ▸ hg)
      rw [bind_some, clear_mem_of_ne r hne]
      rfl

theorem entryAt_clear (hfresh : ∀ q j, r.tableAt q j ≠ some f) :
    (r.clear f z).entryAt q j = r.entryAt q j := by
  rw [entryAt, entryAt, tableAt_clear hfresh]
  cases hg : r.tableAt q j with
  | none => rfl
  | some g =>
    have hne : g ≠ f := fun h => hfresh q j (h ▸ hg)
    rw [map_some, map_some, clear_mem_of_ne r hne]

theorem Separate.clear (hs : r.Separate) (hfresh : ∀ q j, r.tableAt q j ≠ some f) :
    (r.clear f z).Separate :=
  hs.of_subset fun q j g h => by rwa [tableAt_clear hfresh] at h

variable [DecidableEq ι]

def set (r : Radix ι E) (t : ℕ) (i : ι) (e : E) : Radix ι E :=
  { r with mem := update r.mem t (update (r.mem t) i e) }

theorem set_mem_of_ne (r : Radix ι E) {i i' : ι} (h : f ≠ t ∨ i' ≠ i) (e : E) :
    (r.set t i e).mem f i' = r.mem f i' := by
  by_cases hf : f = t
  · subst hf
    simp [set, h.resolve_left (not_not.mpr rfl)]
  · simp [set, hf]

theorem set_mem_self (r : Radix ι E) (t : ℕ) (i : ι) (e : E) : (r.set t i e).mem t i = e := by
  simp [set]

variable {g : ℕ}

section Set

variable (hs : r.Separate) (ht : r.tableAt p k = some t)

include hs ht

/-- A path that does not go through the entry does not read it. -/
theorem set_mem_off (hg : r.tableAt q j = some g) (hj : j < k ∨ ¬ SamePath (k + 1) p q) :
    (r.set t (p k) e).mem g (q j) = r.mem g (q j) := by
  apply set_mem_of_ne
  by_contra hsame
  rw [not_or, not_not, not_not] at hsame
  obtain ⟨rfl, hi⟩ := hsame
  obtain ⟨rfl, hpath⟩ := hs p q k j g ht hg
  apply hj.elim (Nat.lt_irrefl k)
  intro hoff
  exact hoff (samePath_succ.mpr ⟨hpath, hi.symm⟩)

/-- The tables of a path are those of before down to the one that is written, and all of them when
the path does not go through the entry. -/
theorem tableAt_set (hj : j ≤ k ∨ ¬ SamePath (k + 1) p q) :
    (r.set t (p k) e).tableAt q j = r.tableAt q j := by
  induction j with
  | zero => rfl
  | succ j ih =>
    have hprev : j ≤ k ∨ ¬ SamePath (k + 1) p q := hj.imp (fun h => (Nat.le_succ j).trans h) id
    rw [tableAt, tableAt, ih hprev]
    cases hg : r.tableAt q j with
    | none => rfl
    | some g =>
      rw [bind_some, set_mem_off hs ht hg hj]
      rfl

theorem entryAt_set_off (hj : j < k ∨ ¬ SamePath (k + 1) p q) :
    (r.set t (p k) e).entryAt q j = r.entryAt q j := by
  have hj' : j ≤ k ∨ ¬ SamePath (k + 1) p q := hj.imp (fun h => h.le) id
  rw [entryAt, entryAt, tableAt_set hs ht hj']
  cases hg : r.tableAt q j with
  | none => rfl
  | some g =>
    rw [map_some, map_some, set_mem_off hs ht hg hj]

theorem entryAt_set_on (hq : SamePath (k + 1) p q) : (r.set t (p k) e).entryAt q k = some e := by
  obtain ⟨hpath, hi⟩ := samePath_succ.mp hq
  have htable : (r.set t (p k) e).tableAt q k = some t := by
    rw [tableAt_set hs ht (.inl le_rfl), ← tableAt_congr hpath, ht]
  rw [entryAt_of_tableAt htable, ← hi, set_mem_self]

/-- Below an entry that ends the walk there are no tables. -/
theorem tableAt_set_end (hq : SamePath (k + 1) p q) (he : r.next k e = none) (hkj : k < j) :
    (r.set t (p k) e).tableAt q j = none := by
  refine tableAt_none_of_le ?_ hkj
  rw [tableAt_succ, entryAt_set_on hs ht hq]
  exact he

theorem tableAt_set_subset (he : r.next k e = none) (h : (r.set t (p k) e).tableAt q j = some g) :
    r.tableAt q j = some g := by
  by_cases hoff : j ≤ k ∨ ¬ SamePath (k + 1) p q
  · rwa [tableAt_set hs ht hoff] at h
  · rw [not_or, not_not, not_le] at hoff
    rw [tableAt_set_end hs ht hoff.2 he hoff.1] at h
    cases h

end Set

/-- The fresh frame `f`, filled with `z`, becomes the table behind an entry `e`. -/
def link (r : Radix ι E) (t : ℕ) (i : ι) (e : E) (f : ℕ) (z : E) : Radix ι E :=
  (r.clear f z).set t i e

section Link

variable (hs : r.Separate) (ht : r.tableAt p k = some t) (hfresh : ∀ q j, r.tableAt q j ≠ some f)

include ht hfresh

theorem link_mem_fresh (i : ι) : (r.link t (p k) e f z).mem f i = z := by
  have hne : f ≠ t := fun h => hfresh p k (h ▸ ht)
  rw [link, set_mem_of_ne _ (.inl hne), clear_mem_self]

include hs

theorem tableAt_link_off (hj : j ≤ k ∨ ¬ SamePath (k + 1) p q) :
    (r.link t (p k) e f z).tableAt q j = r.tableAt q j := by
  rw [link, tableAt_set (hs.clear hfresh) ((tableAt_clear hfresh).trans ht) hj,
    tableAt_clear hfresh]

section

variable (he : r.next k e = some f)
include he

theorem tableAt_link_on (hq : SamePath (k + 1) p q) :
    (r.link t (p k) e f z).tableAt q (k + 1) = some f := by
  rw [tableAt_succ, link, entryAt_set_on (hs.clear hfresh) ((tableAt_clear hfresh).trans ht) hq]
  exact he

theorem entryAt_link_fresh (hq : SamePath (k + 1) p q) :
    (r.link t (p k) e f z).entryAt q (k + 1) = some z := by
  rw [entryAt_of_tableAt (tableAt_link_on hs ht hfresh he hq), link_mem_fresh ht hfresh]

theorem tableAt_link (hz : r.next (k + 1) z = none)
    (h : (r.link t (p k) e f z).tableAt q j = some g) :
    r.tableAt q j = some g ∨ (g = f ∧ j = k + 1 ∧ SamePath (k + 1) p q) := by
  by_cases hoff : j ≤ k ∨ ¬ SamePath (k + 1) p q
  · rw [tableAt_link_off hs ht hfresh hoff] at h
    exact .inl h
  rw [not_or, not_not, not_le] at hoff
  obtain ⟨hkj, hq⟩ := hoff
  rcases Nat.eq_or_lt_of_le hkj with rfl | hlt
  · rw [tableAt_link_on hs ht hfresh he hq, Option.some.injEq] at h
    exact .inr ⟨h.symm, rfl, hq⟩
  · have hend : (r.link t (p k) e f z).tableAt q (k + 2) = none := by
      rw [tableAt_succ, entryAt_link_fresh hs ht hfresh he hq]
      exact hz
    rw [tableAt_none_of_le hend hlt] at h
    cases h

theorem link_separate (hz : r.next (k + 1) z = none) : (r.link t (p k) e f z).Separate :=
  hs.of_fresh hfresh fun _ _ _ h => tableAt_link hs ht hfresh he hz h

end

end Link

section Leaf

variable {leaf : ℕ → E → Prop} (hleaf : ∀ {k e}, leaf k e → r.next k e = none)

include hleaf

theorem hasLeaf_set (hs : r.Separate) (ht : r.tableAt p k = some t) (he : r.next k e = none) :
    HasLeaf leaf (r.set t (p k) e) q j x ↔
      (SamePath (k + 1) p q ∧ j = k ∧ x = e ∧ leaf k e) ∨
      (¬ SamePath (k + 1) p q ∧ HasLeaf leaf r q j x) := by
  by_cases hq : SamePath (k + 1) p q
  · have hk := entryAt_set_on (e := e) hs ht hq
    simp only [hq, true_and, not_true_eq_false, false_and, or_false]
    constructor
    · rintro ⟨hx, hl⟩
      rcases Nat.lt_trichotomy j k with hlt | rfl | hgt
      · rw [entryAt_set_off hs ht (.inl hlt)] at hx
        have htq : r.tableAt q k = some t := by rw [← tableAt_congr (hq.mono (Nat.le_succ k)), ht]
        exact absurd (hleaf hl) (next_of_tableAt htq hlt hx)
      · rw [hk, Option.some.injEq] at hx
        exact ⟨rfl, hx.symm, hx ▸ hl⟩
      · rw [entryAt_deeper hk he hgt] at hx
        cases hx
    · rintro ⟨rfl, rfl, hl⟩
      exact ⟨hk, hl⟩
  · simp only [hq, false_and, not_false_eq_true, true_and, false_or]
    rw [HasLeaf, HasLeaf, entryAt_set_off hs ht (.inr hq)]

/-- Linking a table without leaves in the place of an entry that was none. -/
theorem hasLeaf_link (hs : r.Separate) (ht : r.tableAt p k = some t)
    (hfresh : ∀ q j, r.tableAt q j ≠ some f)
    (hold : r.next k (r.mem t (p k)) = none) (hno : ¬ leaf k (r.mem t (p k))) (he : r.next k e =
    some f)
    (hz : r.next (k + 1) z = none) (hnoz : ¬ leaf (k + 1) z) :
    HasLeaf leaf (r.link t (p k) e f z) q j x ↔ HasLeaf leaf r q j x := by
  by_cases hq : SamePath (k + 1) p q
  · refine ⟨fun h => ?_, fun h => absurd h (no_leaf_of_end hleaf ht hold hno hq)⟩
    have hon := tableAt_link_on (z := z) hs ht hfresh he hq
    have hmem : (r.link t (p k) e f z).mem f (q (k + 1)) = z := link_mem_fresh ht hfresh _
    refine absurd h (no_leaf_of_end hleaf hon ?_ ?_ (SamePath.refl _ q))
    · rw [hmem]
      exact hz
    · rwa [hmem]
  · rw [HasLeaf, HasLeaf, link, entryAt_set_off (hs.clear hfresh) ((tableAt_clear hfresh).trans ht)
      (.inr hq), entryAt_clear hfresh]

end Leaf

theorem digits_eq_iff {b : ℕ} (x y n : ℕ) : (∀ i < n, x / b ^ i % b = y / b ^ i % b) ↔
    x % b ^ n = y % b ^ n := by
  induction n with
  | zero => simp [Nat.mod_one]
  | succ n ih =>
    have hdigit : ∀ z : ℕ, z % b ^ (n + 1) / b ^ n = z / b ^ n % b := by
      intro z
      rw [pow_succ, Nat.mod_mul_right_div_self]
    have hrest : ∀ z : ℕ, z % b ^ (n + 1) % b ^ n = z % b ^ n := fun z =>
      Nat.mod_mod_of_dvd z (pow_dvd_pow b n.le_succ)
    constructor
    · intro h
      have hlow := ih.mp fun i hi => h i (by omega)
      rw [Nat.mod_pow_succ, Nat.mod_pow_succ, hlow, h n (Nat.lt_succ_self n)]
    · intro h i hi
      rcases Nat.lt_succ_iff_lt_or_eq.mp hi with hlt | rfl
      · refine ih.mpr ?_ i hlt
        rw [← hrest x, ← hrest y, h]
      · rw [← hdigit x, ← hdigit y, h]

end Radix

end Toddler
