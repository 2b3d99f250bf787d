import Toddler.Lib.Run
import Mathlib.Logic.Function.Basic

/-! Threads over shared memory. `next m l a` is what a thread with local state `l` makes of the
memory `m` and of its local state by action `a`. A proof outline has an assertion `A m l` for the
local states and a relation `C` between the local states of two threads, and shows that no step of a
thread interferes with those of the others. -/

namespace Toddler

structure Shared (ι M L : Type*) where
  mem : M
  thread : ι → L

variable {ι M L α : Type*} [DecidableEq ι] {next : M → L → α → Option (M × L)}

def Shared.step (next : M → L → α → Option (M × L)) (s : Shared ι M L) (a : ι × α) :
    Option (Shared ι M L) :=
  (next s.mem (s.thread a.1) a.2).map fun r => ⟨r.1, Function.update s.thread a.1 r.2⟩

structure Outline (next : M → L → α → Option (M × L)) (A : M → L → Prop) (C : L → L → Prop) :
    Prop where
  symm : ∀ {l k}, C l k → C k l
  own : ∀ {m l a m' l'}, A m l → next m l a = some (m', l') → A m' l'
  other : ∀ {m l a m' l' k}, A m l → A m k → C l k → next m l a = some (m', l') → A m' k ∧ C l' k

structure Shared.Annotated (A : M → L → Prop) (C : L → L → Prop) (s : Shared ι M L) : Prop where
  here : ∀ i, A s.mem (s.thread i)
  pair : ∀ i j, i ≠ j → C (s.thread i) (s.thread j)

variable {A : M → L → Prop} {C : L → L → Prop} {s t : Shared ι M L}

theorem Outline.step (h : Outline next A C) {a : ι × α} (hs : s.Annotated A C)
    (hstep : s.step next a = some t) : t.Annotated A C := by
  obtain ⟨⟨m, l⟩, hnext, rfl⟩ := Option.map_eq_some_iff.mp hstep
  have hother : ∀ j, j ≠ a.1 → A m (s.thread j) ∧ C l (s.thread j) := fun j hj =>
    h.other (hs.here a.1) (hs.here j) (hs.pair _ _ hj.symm) hnext
  refine ⟨fun i => ?_, fun i j hij => ?_⟩
  · rcases eq_or_ne i a.1 with rfl | hi
    · simpa using h.own (hs.here a.1) hnext
    · simpa [hi] using (hother i hi).1
  · rcases eq_or_ne i a.1 with rfl | hi
    · simpa [hij.symm] using (hother j hij.symm).2
    · rcases eq_or_ne j a.1 with rfl | hj
      · simpa [hi] using h.symm (hother i hi).2
      · simpa [hi, hj] using hs.pair i j hij

/-- What the outline says holds in every state of a run. -/
theorem Outline.reach (h : Outline next A C) (hs : s.Annotated A C)
    (hreach : Reach (Shared.step next) anyStep s t) : t.Annotated A C :=
  hreach.invariant hs fun _ _ _ hu _ hstep => h.step hu hstep

section Owed

variable {k k' : Bool} {R R' : Prop} {P : L → Prop} {w l : L} {f : ι → L} {i : ι}

/-- What a sleeper may rely on. While the flag `k` is set, `R` holds or a thread is in `P`; while it
is clear, a thread is at `w`. -/
def Owed (k : Bool) (R : Prop) (P : L → Prop) (w : L) (f : ι → L) : Prop :=
  (k = true ∧ R) ∨ (k = true ∧ ∃ i, P (f i)) ∨ (k = false ∧ ∃ i, f i = w)

/-- A thread moves that is not relied upon. -/
theorem Owed.other (h : Owed k R P w f) (hk : k = true → k' = true) (hR : k = true → R → R')
    (hset : k = false → k' = true → R') (hP : ¬ P (f i)) (hw : k = false → f i ≠ w) :
    Owed k' R' P w (Function.update f i l) := by
  rcases h with ⟨h, hr⟩ | ⟨h, j, hj⟩ | ⟨h, j, hj⟩
  · exact .inl ⟨hk h, hR h hr⟩
  · have hji : j ≠ i := fun e => hP (e ▸ hj)
    exact .inr (.inl ⟨hk h, j, by rwa [Function.update_of_ne hji]⟩)
  · have hji : j ≠ i := fun e => hw h (e ▸ hj)
    cases hk' : k' with
    | true => exact .inl ⟨rfl, hset h hk'⟩
    | false => exact .inr (.inr ⟨rfl, j, by rwa [Function.update_of_ne hji]⟩)

/-- A thread moves that is not at `w`, and is relied upon afterwards unless `R` holds. -/
theorem Owed.takeOver (h : Owed k R P w f) (hw : f i ≠ w) (hl : k = true → R ∨ P l) :
    Owed k R P w (Function.update f i l) := by
  rcases h with ⟨h, -⟩ | ⟨h, -⟩ | ⟨h, j, hj⟩
  case inr.inr =>
    have hji : j ≠ i := fun e => hw (e ▸ hj)
    exact .inr (.inr ⟨h, j, by rwa [Function.update_of_ne hji]⟩)
  all_goals
    rcases hl h with hr | hl
    · exact .inl ⟨h, hr⟩
    · exact .inr (.inl ⟨h, i, by rwa [Function.update_self]⟩)

end Owed

end Toddler
