import Toddler.Spec.Spinlock
import Mathlib.Tactic

/-! Exclusion in the spinlock: while a CPU has the lock the word says so, no CAS of another CPU
succeeds, and the holder finds the word as it left it. Interrupts: the word of a lock holds what
they were before it was taken. -/

namespace Toddler.Spinlock

open Option

/-- What a CPU knows of the word. -/
def Sound (lock : Word) : Pc → Prop
  | .lockCas _ oldVal | .tryCas _ oldVal => oldVal.locked = false
  | .saveCas _ oldVal => lock.locked = true ∧ oldVal = lock
  | .saveLoad _ | .holding | .unlockInt | .unlockCheck | .unlockStore => lock.locked = true
  | _ => True

def Apart (pc pc' : Pc) : Prop := ¬ (pc.Holds ∧ pc'.Holds)

variable {lock lock' : Word} {pc pc' : Pc} {a : Action}

theorem Sound.locked (h : Sound lock pc) (hpc : pc.Holds) : lock.locked = true := by
  cases pc with
  | saveCas => exact h.1
  | saveLoad | holding | unlockInt | unlockCheck | unlockStore => exact h
  | _ => exact hpc.elim

theorem Sound.of_not_holds (h : Sound lock pc) (hpc : ¬ pc.Holds) : Sound lock' pc := by
  cases pc with
  | saveCas | saveLoad | holding | unlockInt | unlockCheck | unlockStore => exact absurd trivial hpc
  | _ => exact h

theorem sound_acquired (int : Option Bool) (h : lock.locked = true) :
    Sound lock (acquired int) := by
  cases int <;> exact h

theorem Sound.step (h : Sound lock pc) (hnext : next lock pc a = some (lock', pc')) :
    Sound lock' pc' := by
  cases pc <;> cases a <;> grind [next, Sound, sound_acquired]

/-- While another CPU has the lock, a CPU does not change the word and does not get the lock. -/
theorem Sound.step_outside (h : Sound lock pc) (hlocked : lock.locked = true) (hpc : ¬ pc.Holds)
    (hnext : next lock pc a = some (lock', pc')) : lock' = lock ∧ ¬ pc'.Holds := by
  cases pc <;> cases a <;> grind [next, Sound, Pc.Holds]

theorem Sound.asserts (h : Sound lock pc) (hpc : pc.Calling) : (next lock pc .step).isSome := by
  cases pc <;> grind [next, Sound, Pc.Calling]

theorem outline : Outline next Sound Apart where
  symm h := fun ⟨hk, hl⟩ => h ⟨hl, hk⟩
  own := Sound.step
  other {lock pc a lock' pc' k} hpc hk hapart hnext := by
    by_cases hholds : k.Holds
    · obtain ⟨rfl, hout⟩ := hpc.step_outside (hk.locked hholds) (fun hin => hapart ⟨hin, hholds⟩) hnext
      exact ⟨hk, fun hboth => hout hboth.1⟩
    · exact ⟨hk.of_not_holds hholds, fun hboth => hholds hboth.2⟩

/-- No two CPUs have the lock, and no assertion fails. -/
theorem spinlock_exclusive {ι : Type} [DecidableEq ι] {s : Shared ι Word Pc}
    (hreach : Reach (Shared.step next) anyStep ⟨⟨false, false⟩, fun _ => .idle⟩ s) :
    Exclusive s := by
  have h0 : Shared.Annotated Sound Apart (⟨⟨false, false⟩, fun _ => .idle⟩ : Shared ι Word Pc) :=
    ⟨fun _ => trivial, fun _ _ _ => by simp [Apart, Pc.Holds]⟩
  have h := outline.reach h0 hreach
  refine ⟨fun i j hi hj => ?_, fun i hi => (h.here i).asserts hi⟩
  by_contra hij
  exact h.pair i j hij ⟨hi, hj⟩

/-- CPU `i` has the lock by `spinlock_lock_int`, and CPU `j` tries in vain. -/
def contendedRun {ι : Type} (i j : ι) : List (ι × Action) :=
  [(i, .lock (some true)), (i, .step), (j, .trylock none), (i, .step), (j, .step), (i, .step),
    (i, .step)]

theorem spinlock_exclusive_contended : ∃ s : Shared Bool Word Pc,
    Reach (Shared.step next) anyStep ⟨⟨false, false⟩, fun _ => .idle⟩ s ∧ s.mem = ⟨true, true⟩ ∧
      s.thread true = .holding ∧ Exclusive s := by
  refine exists_reach_of (P := fun s => s.mem = ⟨true, true⟩ ∧
    s.thread true = .holding) (contendedRun true false) (by decide +kernel) fun s hs h => ?_
  exact ⟨h.1, h.2, spinlock_exclusive hs⟩

section Interrupts

variable {Λ : Type} {int : Bool} {s : Cpu Λ} {lock : Λ → Word} {held : List Λ}

/-- Interrupts are as before the locks were taken, the last one first. -/
def Nested (lock : Λ → Word) (int : Bool) : List Λ → Bool → Prop
  | [], now => now = int
  | l :: held, now => now = false ∧ (lock l).locked = true ∧ Nested lock int held (lock l).intEnabled

variable {now : Bool}

theorem Nested.congr {lock' : Λ → Word} (h : Nested lock int held now)
    (heq : ∀ l ∈ held, lock' l = lock l) : Nested lock' int held now := by
  induction held generalizing now with
  | nil => exact h
  | cons l held ih =>
    obtain ⟨hnow, hlocked, hrest⟩ := h
    rw [Nested, heq l List.mem_cons_self]
    exact ⟨hnow, hlocked, ih hrest fun k hk => heq k (List.mem_cons_of_mem l hk)⟩

variable {l : Λ}

theorem Nested.locked (h : Nested lock int held now) (hl : l ∈ held) : (lock l).locked = true := by
  induction held generalizing now with
  | nil => cases hl
  | cons k held ih =>
    rcases List.mem_cons.mp hl with rfl | hl
    · exact h.2.1
    · exact ih h.2.2 hl

theorem Nested.disabled (h : Nested lock int held now) (hne : held ≠ []) : now = false := by
  cases held with
  | nil => exact absurd rfl hne
  | cons => exact h.1

structure CpuInv (int : Bool) (s : Cpu Λ) : Prop where
  nodup : s.held.Nodup
  nested : Nested s.lock int s.held s.int

variable {t : Cpu Λ}

theorem CpuInv.int_eq (hs : CpuInv int s) (ht : CpuInv int t) (hheld : t.held = s.held) :
    t.int = s.int := by
  have hs := hs.nested
  have ht := ht.nested
  rw [hheld] at ht
  revert hs ht
  cases s.held with
  | nil => exact fun hs ht => ht.trans hs.symm
  | cons => exact fun hs ht => ht.1.trans hs.1.symm

/-- `f` gives up the locks that it takes. -/
def Balanced (int : Bool) (f : Cpu Λ → Option (Cpu Λ)) : Prop :=
  ∀ s t, CpuInv int s → f s = some t → CpuInv int t ∧ t.held = s.held

theorem balanced_some : Balanced int (some : Cpu Λ → Option (Cpu Λ)) := by
  rintro s t h ⟨⟩
  exact ⟨h, rfl⟩

variable [DecidableEq Λ]

theorem CpuInv.acquire (h : CpuInv int s) (hfree : (s.lock l).locked = false) :
    CpuInv int (acquire s l) := by
  have hl : l ∉ s.held := by
    intro hl
    rw [h.nested.locked hl] at hfree
    cases hfree
  refine ⟨List.nodup_cons.mpr ⟨hl, h.nodup⟩, rfl, by simp [Spinlock.acquire], ?_⟩
  simp only [Spinlock.acquire, Function.update_self]
  exact h.nested.congr fun k hk => Function.update_of_ne (ne_of_mem_of_not_mem hk hl) _ _

theorem CpuInv.unlock (h : CpuInv int s) (hs : call s (.unlockInt l) = some t) : CpuInv int t := by
  simp only [call] at hs
  split_ifs at hs with hcond
  obtain rfl := some.inj hs
  obtain ⟨int', lock, held⟩ := s
  obtain ⟨rest, rfl⟩ : ∃ rest, held = l :: rest := by
    cases held with
    | nil => cases hcond.1
    | cons k rest => exact ⟨rest, by rw [some.inj hcond.1]⟩
  obtain ⟨hl, hnodup⟩ := List.nodup_cons.mp h.nodup
  exact ⟨hnodup, h.nested.2.2.congr fun k hk =>
    Function.update_of_ne (ne_of_mem_of_not_mem hk hl) _ _⟩

theorem CpuInv.step {c : Call Λ} (h : CpuInv int s) (hok : FailsDisabled s c)
    (hs : call s c = some t) : CpuInv int t := by
  cases c with
  | lockInt l =>
    simp only [call] at hs
    split_ifs at hs with hlocked
    obtain rfl := some.inj hs
    exact h.acquire (by simpa using hlocked)
  | trylockInt l cas =>
    obtain rfl := some.inj hs
    split_ifs with hfails
    · exact ⟨h.nodup, hok hfails ▸ h.nested⟩
    · exact h.acquire (by simp_all [trylockFails])
  | unlockInt l => exact h.unlock hs
  | others lock =>
    simp only [call] at hs
    split_ifs at hs with hsame
    obtain rfl := some.inj hs
    exact ⟨h.nodup, h.nested.congr hsame⟩

theorem held_lock (hs : call s (.lockInt l) = some t) : t.held = l :: s.held := by
  simp only [call] at hs
  split_ifs at hs
  obtain rfl := some.inj hs
  rfl

theorem held_unlock (hs : call s (.unlockInt l) = some t) : t.held = s.held.tail := by
  simp only [call] at hs
  split_ifs at hs
  obtain rfl := some.inj hs
  rfl

theorem held_others {lock : Λ → Word} (hs : call s (.others lock) = some t) : t.held = s.held := by
  simp only [call] at hs
  split_ifs at hs
  obtain rfl := some.inj hs
  rfl

theorem Balanced.exclusiveInt {body : Cpu Λ → Option (Cpu Λ)} (hbody : Balanced int body)
    (l : Taken Λ) : Balanced int (exclusiveInt l body) := by
  intro s t h ht
  obtain ⟨s₁, hs₁, ht⟩ := bind_eq_some_iff.mp ht
  obtain ⟨s₂, hs₂, ht⟩ := bind_eq_some_iff.mp ht
  obtain ⟨s₃, hs₃, ht⟩ := bind_eq_some_iff.mp ht
  have h₂ : CpuInv int s₂ := (h.step (c := .others l.others) trivial hs₁).step
    (c := .lockInt l.lock) trivial hs₂
  obtain ⟨h₃, hheld⟩ := hbody s₂ s₃ h₂ hs₃
  refine ⟨h₃.unlock ht, ?_⟩
  rw [held_unlock ht, hheld, held_lock hs₂, held_others hs₁]
  rfl

theorem balanced_exclusiveEach (ls : List (Taken Λ)) : Balanced int (exclusiveEach ls) := by
  induction ls with
  | nil => exact balanced_some
  | cons l ls ih =>
    intro s t h ht
    obtain ⟨u, hu, ht⟩ := bind_eq_some_iff.mp ht
    obtain ⟨hinv, hheld⟩ := balanced_some.exclusiveInt l s u h hu
    obtain ⟨htinv, htheld⟩ := ih u t hinv ht
    exact ⟨htinv, htheld.trans hheld⟩

theorem balanced_dictRehash (need : Bool) (l : RehashLocks Λ) :
    Balanced int (dictRehash need l) := by
  cases need with
  | false => exact balanced_some
  | true => exact (balanced_exclusiveEach _).exclusiveInt l.seqNodes

theorem CpuInv.rehash {need need' cas : Bool} {l : RehashLocks Λ} (h : CpuInv int s)
    (hok : FailsDisabled s (.trylockInt l.rehashLock cas))
    (ht : dictRehashExclusive need need' cas l s = some t) : t.int = s.int := by
  simp only [dictRehashExclusive] at ht
  split_ifs at ht with hneed hfails
  · rw [some.inj ht]
  · simp only [call, hfails, if_true, some.injEq] at ht
    rw [← ht, hok hfails]
  · obtain ⟨s₁, hs₁, ht⟩ := bind_eq_some_iff.mp ht
    obtain ⟨s₂, hs₂, ht⟩ := bind_eq_some_iff.mp ht
    obtain ⟨s₃, hs₃, ht⟩ := bind_eq_some_iff.mp ht
    obtain ⟨s₄, hs₄, ht⟩ := bind_eq_some_iff.mp ht
    obtain ⟨h₂, hheld₂⟩ := balanced_exclusiveEach _ s₁ s₂ (h.step hok hs₁) hs₂
    obtain ⟨h₃, hheld₃⟩ := (balanced_dictRehash need' l).exclusiveInt l.lock s₂ s₃ h₂ hs₃
    obtain ⟨htinv, hheld⟩ := balanced_exclusiveEach _ s₄ t (h₃.unlock hs₄) ht
    simp only [call, if_neg hfails, some.injEq] at hs₁
    refine h.int_eq htinv ?_
    rw [hheld, held_unlock hs₄, hheld₃, hheld₂, ← hs₁]
    rfl

/-- Interrupts come back as they were if a `spinlock_trylock_int` that fails is made with interrupts
disabled. -/
theorem interrupts_kept {lock : Λ → Word}
    (hreach : Reach call FailsDisabled (⟨int, lock, []⟩ : Cpu Λ) s) :
    IntKept int FailsDisabled s := by
  have h : CpuInv int s := hreach.invariant ⟨List.nodup_nil, rfl⟩
    fun _ _ _ hu hok hs => hu.step hok hs
  refine ⟨fun hnil => ?_, fun hne => h.nested.disabled hne, fun _ _ _ _ _ hok ht => h.rehash hok ht⟩
  have := h.nested
  rwa [hnil] at this

end Interrupts

instance FailsDisabled.decidable {Λ : Type} (s : Cpu Λ) :
    (c : Call Λ) → Decidable (FailsDisabled s c)
  | .trylockInt l cas => inferInstanceAs (Decidable (trylockFails s l cas = true → s.int = false))
  | .lockInt _ | .unlockInt _ | .others _ => isTrue trivial

/-- Two locks are taken, the inner one by a `spinlock_trylock_int` after one that failed, and
released. -/
theorem interrupts_kept_nested : ∃ s : Cpu Bool,
    Reach call FailsDisabled ⟨true, fun _ => ⟨false, false⟩, []⟩ s ∧ s.held = [] ∧
    IntKept true FailsDisabled s := by
  refine exists_reach_of (P := fun s => s.held = []) [.lockInt true, .trylockInt false false,
    .trylockInt false true,
    .unlockInt false, .unlockInt true] (by decide +kernel) fun s hs hheld => ?_
  exact ⟨hheld, interrupts_kept hs⟩

/-- Another CPU has the lock: the call fails, and interrupts stay disabled. -/
theorem failed_trylock_disables : ∃ s : Cpu Bool,
    Reach call anyStep ⟨true, fun _ => ⟨true, false⟩, []⟩ s ∧ ¬ IntKept true anyStep s := by
  refine exists_reach_of (P := fun s => s.held = [] ∧
    s.int = false) [.trylockInt true true] (by decide +kernel) fun s _ hP h => ?_
  have := h.released hP.1
  rw [hP.2] at this
  cases this

end Toddler.Spinlock
