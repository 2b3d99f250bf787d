import Mathlib.Logic.Relation
import Mathlib.Data.List.Basic

/-! Runs of a step function. `step s a` is the state after action `a`, or `none` when
the action is disabled or panics. `ok` restricts a run to the steps taken in a state
that meets it; the unrestricted system is `ok := anyStep`. -/

namespace Toddler

variable {σ α : Type*}

def Next (step : σ → α → Option σ) (ok : σ → α → Prop) (s t : σ) : Prop :=
  ∃ a, ok s a ∧ step s a = some t

/-- `t` is reached from `s` by steps that all meet `ok`. -/
def Reach (step : σ → α → Option σ) (ok : σ → α → Prop) : σ → σ → Prop :=
  Relation.ReflTransGen (Next step ok)

def anyStep : σ → α → Prop := fun _ _ => True

variable {step : σ → α → Option σ} {ok : σ → α → Prop}

theorem Reach.refl (s : σ) : Reach step ok s s := Relation.ReflTransGen.refl

variable {s t : σ}

theorem Reach.mono {ok' : σ → α → Prop} (hok : ∀ s a, ok s a → ok' s a)
    (h : Reach step ok s t) : Reach step ok' s t := by
  induction h with
  | refl => exact Reach.refl s
  | tail _ hn ih =>
    obtain ⟨a, ha, hs⟩ := hn
    exact ih.tail ⟨a, hok _ _ ha, hs⟩

/-- What one admitted step keeps, a whole run keeps. -/
theorem Reach.invariant {I : σ → Prop} (h : Reach step ok s t) (h0 : I s)
    (hstep : ∀ u a v, I u → ok u a → step u a = some v → I v) : I t := by
  induction h with
  | refl => exact h0
  | tail _ hn ih =>
    obtain ⟨a, hok, hs⟩ := hn
    exact hstep _ a _ ih hok hs

/-- Executes a list of actions, stopping at the first that is disabled or not admitted. -/
def execute (step : σ → α → Option σ) (ok : σ → α → Prop) [∀ s a, Decidable (ok s a)] :
    σ → List α → Option σ
  | s, [] => some s
  | s, a :: as => if ok s a then (step s a).bind fun t => execute step ok t as else none

theorem reach_of_execute [∀ s a, Decidable (ok s a)] {as : List α}
    (h : execute step ok s as = some t) : Reach step ok s t := by
  induction as generalizing s with
  | nil =>
    simp only [execute, Option.some.injEq] at h
    exact h ▸ Reach.refl s
  | cons a as ih =>
    simp only [execute] at h
    split_ifs at h with hok
    obtain ⟨u, hu, ht⟩ := Option.bind_eq_some_iff.mp h
    exact Relation.ReflTransGen.head ⟨a, hok, hu⟩ (ih ht)

/-- `P` holds of every state that the actions lead to, and `Q` of every action where it is taken. -/
def Along (step : σ → α → Option σ) (P : σ → Prop) (Q : σ → α → Prop) : σ → List α → Prop
  | s, [] => P s
  | s, a :: as => P s ∧ Q s a ∧ ∀ t ∈ step s a, Along step P Q t as

instance Along.decidable {P : σ → Prop} {Q : σ → α → Prop} [DecidablePred P]
    [∀ s a, Decidable (Q s a)] : ∀ (s : σ) (as : List α), Decidable (Along step P Q s as)
  | s, [] => inferInstanceAs (Decidable (P s))
  | s, a :: as =>
    have : DecidablePred fun t => Along step P Q t as := fun t => Along.decidable t as
    inferInstanceAs (Decidable (P s ∧ Q s a ∧ ∀ t ∈ step s a, Along step P Q t as))

theorem Along.head {P : σ → Prop} {Q : σ → α → Prop} {as : List α}
    (h : Along step P Q s as) : P s := by
  cases as with
  | nil => exact h
  | cons a as => exact h.1

instance anyStep.decidable (s : σ) (a : α) : Decidable (anyStep s a) := isTrue trivial

section

variable {P Q : σ → Prop} [DecidablePred P] [∀ s a, Decidable (ok s a)] {as : List α}

/-- A run that ends in a state of which `P` holds, with what is known of every state that is
reached. -/
theorem exists_execute (h : (execute step ok s as).any (fun t => P t) = true)
    (hQ : ∀ t, Reach step ok s t → P t → Q t) : ∃ t, execute step ok s as = some t ∧ Q t := by
  obtain ⟨t, ht, hP⟩ : ∃ t, execute step ok s as = some t ∧ P t := by
    simpa [Option.any_eq_true] using h
  exact ⟨t, ht, hQ t (reach_of_execute ht) hP⟩

theorem exists_reach_of (as : List α) (h : (execute step ok s as).any (fun t => P t) = true)
    (hQ : ∀ t, Reach step ok s t → P t → Q t) : ∃ t, Reach step ok s t ∧ Q t := by
  obtain ⟨t, ht, hQt⟩ := exists_execute h hQ
  exact ⟨t, reach_of_execute ht, hQt⟩

theorem exists_reach (as : List α) (h : (execute step ok s as).any (fun t => P t) = true) :
    ∃ t, Reach step ok s t ∧ P t :=
  exists_reach_of as h fun _ _ hP => hP

end

end Toddler
