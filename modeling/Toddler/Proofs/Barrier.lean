import Toddler.Lib.Tally
import Toddler.Spec.Barrier
import Mathlib.Tactic

/-! The rounds of a barrier. A round is led by the participant whose CAS publishes its record; the
others hold a pointer to that record until they have left the round. `Pointers` says who holds a
pointer to which record and what stands in it, `Rounds` how far the participants' calls can be
apart: nobody has returned from the call that a participant is still gathering in. -/

namespace Toddler.Barrier

open Function State Option

variable {ι : Type}

/-- The record whose `count` includes the participant. -/
def Pc.counted : Pc ι → Option ι
  | .waitCount f | .unpublish f | .setRelease f | .drain f | .waitRelease f | .dec f => some f
  | .outside | .start | .clearRelease | .clearCount | .cas | .inc _ _ => none

def Pc.myLocal : Pc ι → Option ι
  | .inc f _ => some f
  | pc => pc.counted

/-- Places of the participant that came first. -/
def Pc.Leads : Pc ι → Prop
  | .inc _ true | .waitCount _ | .unpublish _ | .setRelease _ | .drain _ => True
  | _ => False

def Pc.Gathers : Pc ι → Prop
  | .inc _ true | .waitCount _ | .unpublish _ => True
  | _ => False

/-- Places of the first participant after it has seen all others. -/
def Pc.Full : Pc ι → Prop
  | .unpublish _ | .setRelease _ | .drain _ => True
  | _ => False

/-- Places at which the participant's round cannot be complete. -/
def Pc.Pending : Pc ι → Prop
  | .start | .clearRelease | .clearCount | .cas | .inc _ _ | .waitCount _ => True
  | _ => False

variable {pc : Pc ι}

theorem Pc.Gathers.leads (h : pc.Gathers) : pc.Leads := by
  cases pc with
  | inc f first => cases first <;> simp_all [Pc.Gathers, Pc.Leads]
  | _ => simp_all [Pc.Gathers, Pc.Leads]

theorem Pc.Full.leads (h : pc.Full) : pc.Leads := by
  cases pc <;> simp_all [Pc.Full, Pc.Leads]

variable {f : ι}

theorem Pc.Gathers.pending_or_unpublish (h : pc.Gathers) (hf : pc.myLocal = some f) :
    pc.Pending ∨ pc = .unpublish f := by
  cases pc <;> simp_all [Pc.Gathers, Pc.Pending, Pc.myLocal, Pc.counted]

theorem Pc.myLocal_of_counted (h : pc.counted = some f) : pc.myLocal = some f := by
  cases pc <;> simp_all [Pc.counted, Pc.myLocal]

attribute [grind] Pc.counted Pc.myLocal Pc.Leads Pc.Gathers Pc.Full Pc.Pending
attribute [grind →] Pc.Gathers.leads Pc.Full.leads Pc.myLocal_of_counted

variable [Fintype ι] [DecidableEq ι]

def weight (f : ι) (pc : Pc ι) : ℕ := if pc.counted = some f then 1 else 0

structure Pointers (s : State ι) : Prop where
  own : ∀ i, (s.pc i).Leads → (s.pc i).myLocal = some i
  pointed : ∀ i f, (s.pc i).myLocal = some f → (s.pc f).Leads
  published : ∀ f, s.published = some f ↔ (s.pc f).Gathers
  cleared : ∀ i, s.pc i = .cas → s.record i = ⟨0, false⟩
  clearing : ∀ i, s.pc i = .clearCount → (s.record i).release = false
  count : ∀ f, (s.pc f).Leads → (s.record f).count = tally (weight f) s.pc
  release : ∀ f, (s.pc f).Leads → ((s.record f).release = true ↔ s.pc f = .drain f)
  leaving : ∀ i f, s.pc i = .dec f → s.pc f = .drain f
  gathered : ∀ f, s.pc f = .unpublish f ∨ s.pc f = .setRelease f → ∀ j, j ≠ f →
    s.pc j = .waitRelease f
  closed : ∀ f, (s.pc f).Full → ∀ j first, s.pc j ≠ .inc f first

variable {s : State ι}

theorem tally_of_uncounted (i : ι) (pc : Pc ι) (hi : (s.pc i).counted = none)
    (hpc : pc.counted = none) (f : ι) :
    tally (weight f) (update s.pc i pc) = tally (weight f) s.pc :=
  tally_update_same (by simp [weight, hi, hpc])

theorem tally_of_counted {g : ι} (i : ι) (pc : Pc ι) (hi : (s.pc i).counted = some g)
    (hpc : pc.counted = some g) (f : ι) :
    tally (weight f) (update s.pc i pc) = tally (weight f) s.pc :=
  tally_update_same (by simp [weight, hi, hpc])

variable {i : ι}

section

variable (h : Pointers s)
include h

/-- A participant without a pointer moves on and may write its own record. -/
theorem Pointers.unjoined {r : LocalBarrier}
    (hi : (s.pc i).myLocal = none) (hpc : pc.myLocal = none) (hlead : ¬ pc.Leads)
    (hcas : pc = .cas → r = ⟨0, false⟩) (hclear : pc = .clearCount →
      r.release = false) (hdec : ∀ f, pc ≠ .dec f) :
    Pointers ((s.setRecord i r).setPc i pc) := by
  have hnone : ∀ {pc : Pc ι}, pc.myLocal = none → pc.counted = none := by
    intro pc h0
    cases pc <;> simp_all [Pc.myLocal]
  have ht := tally_of_uncounted i pc (hnone hi) (hnone hpc)
  cases h
  constructor <;> simp only [setPc, setRecord] <;> grind

theorem Pointers.publish (hpc : s.pc i = .cas) (hp : s.published = none) :
    Pointers ({ s with published := some i }.setPc i (.inc i true)) := by
  have ht := tally_of_uncounted i (.inc i true) (by rw [hpc]; rfl) rfl
  -- nobody points to a record that is not published yet
  have hzero : tally (weight i) s.pc = 0 := by
    refine tally_eq_zero.mpr fun j => if_neg fun hj => ?_
    have := h.pointed j i (Pc.myLocal_of_counted hj)
    simp [hpc, Pc.Leads] at this
  cases h
  constructor <;> simp only [setPc] <;> grind

/-- The CAS of a later participant finds a round that is not complete. -/
theorem Pointers.pending_of_published (hpc : s.pc i = .cas) (hp : s.published = some f) :
    (s.pc f).Pending := by
  have hf := (h.published f).mp hp
  rcases hf.pending_or_unpublish (h.own f hf.leads) with hpend | hu
  · exact hpend
  · have hne : i ≠ f := by
      rintro rfl
      simp [hpc] at hu
    have := h.gathered f (Or.inl hu) i hne
    simp [hpc] at this

theorem Pointers.join (hpc : s.pc i = .cas) (hp : s.published = some f) :
    Pointers (s.setPc i (.inc f false)) := by
  have ht := tally_of_uncounted i (.inc f false) (by rw [hpc]; rfl) rfl
  have hpend := h.pending_of_published hpc hp
  have hopen : ¬ (s.pc f).Full := by
    intro hfull
    cases hf : s.pc f <;> simp_all [Pc.Full, Pc.Pending]
  cases h
  constructor <;> simp only [setPc] <;> grind

theorem Pointers.inc {first : Bool} (hpc : s.pc i = .inc f first) :
    Pointers ((s.setRecord f { s.record f with count := (s.record f).count + 1 }).setPc i
      (if first then .waitCount f else .waitRelease f)) := by
  have ht : ∀ g, tally (weight g) (update s.pc i (if first then .waitCount f else .waitRelease f)) =
      tally (weight g) s.pc + if g = f then 1 else 0 := by
    intro g
    have := tally_update (weight g) s.pc i (if first then .waitCount f else .waitRelease f)
    grind [weight]
  cases h
  constructor <;> simp only [setPc, setRecord] <;> grind

/-- A count of all participants is reached only when all of them wait in the round. -/
theorem Pointers.all_wait (hpc : s.pc f = .waitCount f)
    (hc : (s.record f).count = Fintype.card ι) : ∀ j, j ≠ f → s.pc j = .waitRelease f := by
  intro j hj
  have hcounted : (s.pc j).counted = some f := by
    have hcard : tally (weight f) s.pc = Fintype.card ι := by rw [← h.count f (by rw [hpc]; trivial), hc]
    have hfilter := tally_indicator (fun pc : Pc ι => pc.counted = some f) s.pc
    rw [show tally (fun pc : Pc ι => if pc.counted = some f then 1 else 0) s.pc =
      Fintype.card ι from hcard] at hfilter
    have hmem : j ∈ Finset.univ.filter fun i => (s.pc i).counted = some f := by
      rw [Finset.eq_univ_of_card _ hfilter.symm]
      exact Finset.mem_univ j
    exact (Finset.mem_filter.mp hmem).2
  have hown := h.own j
  have hdec := h.leaving j f
  cases hpcj : s.pc j <;> simp_all [Pc.counted, Pc.myLocal, Pc.Leads]

theorem Pointers.complete (hpc : s.pc f = .waitCount f)
    (hc : (s.record f).count = Fintype.card ι) : Pointers (s.setPc f (.unpublish f)) := by
  have ht := tally_of_counted f (.unpublish f) (by rw [hpc]; rfl) rfl
  have hall := h.all_wait hpc hc
  cases h
  constructor <;> simp only [setPc] <;> grind

theorem Pointers.unpublish (hpc : s.pc f = .unpublish f) :
    Pointers ({ s with published := none }.setPc f (.setRelease f)) := by
  have ht := tally_of_counted f (.setRelease f) (by rw [hpc]; rfl) rfl
  cases h
  constructor <;> simp only [setPc] <;> grind

theorem Pointers.setRelease (hpc : s.pc f = .setRelease f) :
    Pointers ((s.setRecord f { s.record f with release := true }).setPc f (.drain f)) := by
  have ht := tally_of_counted f (.drain f) (by rw [hpc]; rfl) rfl
  cases h
  constructor <;> simp only [setPc, setRecord] <;> grind

theorem Pointers.released (hpc : s.pc i = .waitRelease f)
    (hr : (s.record f).release = true) : Pointers (s.setPc i (.dec f)) := by
  have ht := tally_of_counted i (.dec f) (by rw [hpc]; rfl) rfl
  cases h
  constructor <;> simp only [setPc] <;> grind

theorem Pointers.dec (hpc : s.pc i = .dec f) :
    Pointers ((s.setRecord f { s.record f with count := (s.record f).count - 1 }).leave i) := by
  have ht : ∀ g, tally (weight g) (update s.pc i .outside) + (if g = f then 1 else 0) =
      tally (weight g) s.pc := by
    intro g
    have := tally_update (weight g) s.pc i .outside
    grind [weight]
  cases h
  constructor <;> simp only [setPc, setRecord, leave] <;> grind

/-- When the count is down to one, the leader is the only participant that points to its record. -/
theorem Pointers.last (hpc : s.pc f = .drain f)
    (hc : (s.record f).count = 1) : ∀ j, j ≠ f → (s.pc j).myLocal ≠ some f := by
  intro j hj hjf
  have hsum := tally_update (weight f) s.pc f .outside
  have hle := le_tally (weight f) (update s.pc f .outside) j
  have hcount := h.count f (by rw [hpc]; trivial)
  have hself : weight f (s.pc f) = 1 := by simp [weight, hpc, Pc.counted]
  have hout : weight f .outside = 0 := rfl
  have hclosed := h.closed f (by rw [hpc]; trivial) j
  cases hpcj : s.pc j <;> simp_all [Pc.myLocal, weight]

theorem Pointers.drained (hpc : s.pc f = .drain f) (hc : (s.record f).count = 1) :
    Pointers (s.leave f) := by
  have hlast := h.last hpc hc
  have ht : ∀ g, g ≠ f → tally (weight g) (update s.pc f .outside) = tally (weight g) s.pc := by
    intro g hg
    exact tally_update_same (by simp [weight, hpc, Pc.counted, hg.symm])
  cases h
  constructor <;> simp only [setPc, leave] <;> grind

theorem Pointers.call (hpc : s.pc i = .outside) :
    Pointers { s.setPc i .start with entered := update s.entered i (s.entered i + 1) } := by
  have ht := tally_of_uncounted i .start (by rw [hpc]; rfl) rfl
  cases h
  constructor <;> simp only [setPc] <;> grind

end

structure Rounds (s : State ι) : Prop where
  sameRound : ∀ i f, (s.pc i).myLocal = some f → s.entered f = s.entered i
  full : ∀ f, (s.pc f).Full → ∀ j, s.entered f ≤ s.entered j
  fullPending : ∀ f, (s.pc f).Full → ∀ j, (s.pc j).Pending → s.entered f < s.entered j
  pending : ∀ j, (s.pc j).Pending → ∀ i, s.returned i < s.entered j
  together : ∀ i j, s.returned i ≤ s.entered j
  inside : ∀ i, s.pc i ≠ .outside → s.entered i = s.returned i + 1
  outside : ∀ i, s.pc i = .outside → s.entered i = s.returned i

variable {s' : State ι}

omit [Fintype ι] in
section

variable (h : Rounds s) (hpc : s.pc i ≠ .outside) (hs : s'.pc = update s.pc i pc)
  (he : s'.entered = s.entered) (hr : s'.returned = s.returned) (hout : pc ≠ .outside)
include h hpc hs he hr hout

theorem Rounds.move (hlocal : ∀ f, pc.myLocal = some f → s.entered f = s.entered i)
    (hpend : pc.Pending → (s.pc i).Pending)
    (hfull : pc.Full → ∀ j, s.entered i ≤ s.entered j ∧
      (j ≠ i → (s.pc j).Pending → s.entered i < s.entered j)) :
    Rounds s' := by
  have hback : ∀ j, (s'.pc j).Pending → (s.pc j).Pending := by
    intro j hj
    by_cases hji : j = i
    · subst hji
      exact hpend (by simpa [hs] using hj)
    · simpa [hs, hji] using hj
  constructor
  · intro j f hj
    rw [he]
    by_cases hji : j = i
    · subst hji
      exact hlocal f (by simpa [hs] using hj)
    · exact h.sameRound j f (by simpa [hs, hji] using hj)
  · intro f hf j
    rw [he]
    by_cases hfi : f = i
    · subst hfi
      exact (hfull (by simpa [hs] using hf) j).1
    · exact h.full f (by simpa [hs, hfi] using hf) j
  · intro f hf j hj
    rw [he]
    by_cases hfi : f = i
    · subst hfi
      have hfull' : pc.Full := by simpa [hs] using hf
      refine (hfull hfull' j).2 ?_ (hback j hj)
      rintro rfl
      cases pc <;> simp_all [Pc.Full, Pc.Pending]
    · exact h.fullPending f (by simpa [hs, hfi] using hf) j (hback j hj)
  · intro j hj k
    rw [he, hr]
    exact h.pending j (hback j hj) k
  · intro j k
    rw [he, hr]
    exact h.together j k
  · intro j hj
    rw [he, hr]
    by_cases hji : j = i
    · subst hji
      exact h.inside j hpc
    · exact h.inside j (by simpa [hs, hji] using hj)
  · intro j hj
    rw [he, hr]
    by_cases hji : j = i
    · subst hji
      exact absurd (by simpa [hs] using hj) hout
    · exact h.outside j (by simpa [hs, hji] using hj)

omit [Fintype ι] in
theorem Rounds.stay (hlocal : ∀ f, pc.myLocal = some f → (s.pc i).myLocal = some f)
    (hpend : pc.Pending → (s.pc i).Pending) (hfull : pc.Full → (s.pc i).Full) : Rounds s' :=
  h.move hpc hs he hr hout (fun f hf => h.sameRound i f (hlocal f hf)) hpend fun hf j =>
    ⟨h.full i (hfull hf) j, fun _ hj => h.fullPending i (hfull hf) j hj⟩

end

omit [Fintype ι] in
theorem Rounds.leave (h : Rounds s) (hpc : s.pc i ≠ .outside)
    (hs : s'.pc = update s.pc i .outside) (he : s'.entered = s.entered)
    (hr : s'.returned = update s.returned i (s.returned i + 1))
    (hf : (s.pc f).Full) (hround : s.entered f = s.entered i) : Rounds s' := by
  have hin := h.inside i hpc
  have hpcs : ∀ j, s'.pc j ≠ .outside → j ≠ i ∧ s'.pc j = s.pc j := by
    intro j hj
    by_cases hji : j = i
    · subst hji
      simp [hs] at hj
    · exact ⟨hji, by simp [hs, hji]⟩
  have hpend : ∀ j, (s'.pc j).Pending → j ≠ i ∧ s'.pc j = s.pc j := by
    intro j hj
    apply hpcs
    rintro h0
    simp [h0, Pc.Pending] at hj
  have hfull : ∀ j, (s'.pc j).Full → j ≠ i ∧ s'.pc j = s.pc j := by
    intro j hj
    apply hpcs
    rintro h0
    simp [h0, Pc.Full] at hj
  constructor
  · intro j g hj
    have := (hpcs j fun h0 => by simp [h0, Pc.myLocal, Pc.counted] at hj).2
    rw [he]
    exact h.sameRound j g (this ▸ hj)
  · intro g hg j
    rw [he]
    exact h.full g ((hfull g hg).2 ▸ hg) j
  · intro g hg j hj
    rw [he]
    exact h.fullPending g ((hfull g hg).2 ▸ hg) j ((hpend j hj).2 ▸ hj)
  · intro j hj k
    have hj' := (hpend j hj).2 ▸ hj
    have h1 := h.fullPending f hf j hj'
    have h2 := h.pending j hj' k
    rw [he, hr]
    by_cases hki : k = i
    · subst hki
      rw [update_self]
      omega
    · rwa [update_of_ne hki]
  · intro k j
    have h1 := h.full f hf j
    rw [he, hr]
    by_cases hki : k = i
    · subst hki
      rw [update_self]
      omega
    · rw [update_of_ne hki]
      exact h.together k j
  · intro j hj
    obtain ⟨hji, hpcj⟩ := hpcs j hj
    rw [he, hr, update_of_ne hji]
    exact h.inside j (hpcj ▸ hj)
  · intro j hj
    rw [he, hr]
    by_cases hji : j = i
    · subst hji
      rwa [update_self]
    · rw [update_of_ne hji]
      exact h.outside j (by simpa [hs, hji] using hj)

theorem Rounds.call (hp : Pointers s) (h : Rounds s) (hpc : s.pc i = .outside) :
    Rounds { s.setPc i .start with entered := update s.entered i (s.entered i + 1) } := by
  have hout := h.outside i hpc
  have hle : ∀ j, s.entered j ≤ update s.entered i (s.entered i + 1) j := by
    intro j
    by_cases hji : j = i
    · subst hji; simp
    · simp [hji]
  have hpcs : ∀ j, j ≠ i → (update s.pc i .start) j = s.pc j := fun j hj => update_of_ne hj _ _
  constructor <;> simp only [setPc]
  · intro j f hj
    by_cases hji : j = i
    · subst hji; simp [Pc.myLocal, Pc.counted] at hj
    · rw [hpcs j hji] at hj
      have hfi : f ≠ i := by
        rintro rfl
        have := hp.pointed j f hj
        simp [hpc, Pc.Leads] at this
      rw [update_of_ne hji, update_of_ne hfi]
      exact h.sameRound j f hj
  · intro f hf j
    by_cases hfi : f = i
    · subst hfi; simp [Pc.Full] at hf
    · rw [hpcs f hfi] at hf
      rw [update_of_ne hfi]
      exact (h.full f hf j).trans (hle j)
  · intro f hf j hj
    by_cases hfi : f = i
    · subst hfi; simp [Pc.Full] at hf
    · rw [hpcs f hfi] at hf
      rw [update_of_ne hfi]
      by_cases hji : j = i
      · subst hji
        have := h.full f hf j
        simp only [update_self]
        omega
      · rw [hpcs j hji] at hj
        exact (h.fullPending f hf j hj).trans_le (hle j)
  · intro j hj k
    by_cases hji : j = i
    · subst hji
      have := h.together k j
      simp only [update_self]
      omega
    · rw [hpcs j hji] at hj
      exact (h.pending j hj k).trans_le (hle j)
  · intro k j
    exact (h.together k j).trans (hle j)
  · intro j hj
    by_cases hji : j = i
    · subst hji
      simp [hout]
    · rw [hpcs j hji] at hj
      rw [update_of_ne hji]
      exact h.inside j hj
  · intro j hj
    by_cases hji : j = i
    · subst hji; simp at hj
    · rw [hpcs j hji] at hj
      rw [update_of_ne hji]
      exact h.outside j hj

structure Inv (s : State ι) : Prop where
  pointers : Pointers s
  rounds : Rounds s

theorem inv_init (record : ι → LocalBarrier) : Inv (init record) := by
  constructor
  · constructor <;> simp [init, Pc.Leads, Pc.Gathers, Pc.myLocal, Pc.counted]
  · constructor <;> simp [init, Pc.Pending]

/-- The CAS of a later participant finds a record of its own round. -/
theorem Inv.published_round (h : Inv s) (hpc : s.pc i = .cas)
    (hp : s.published = some f) : s.entered f = s.entered i := by
  have hpend := h.pointers.pending_of_published hpc hp
  have h1 := h.rounds.pending f hpend i
  have h2 := h.rounds.pending i (by rw [hpc]; trivial) f
  have h3 := h.rounds.inside i (by simp [hpc])
  have h4 := h.rounds.inside f (by intro h0; simp [h0, Pc.Pending] at hpend)
  omega

/-- The leader has counted all participants, and each of them waits for it in this round. -/
theorem Inv.complete (h : Inv s) (hpc : s.pc f = .waitCount f)
    (hc : (s.record f).count = Fintype.card ι) : Inv (s.setPc f (.unpublish f)) := by
  have hall := h.pointers.all_wait hpc hc
  refine ⟨h.pointers.complete hpc hc, h.rounds.move (by simp [hpc]) rfl rfl rfl (by simp) ?_ ?_ ?_⟩
  · intro g hg
    exact h.rounds.sameRound f g (by rw [hpc]; exact hg)
  · intro hpend
    cases hpend
  · intro _ j
    by_cases hj : j = f
    · subst hj
      exact ⟨le_rfl, fun h0 => absurd rfl h0⟩
    · have hround := h.rounds.sameRound j f (by rw [hall j hj]; rfl)
      exact ⟨hround.le, fun _ hpend => by simp [hall j hj, Pc.Pending] at hpend⟩

theorem inv_barrierWait {s u : State ι} (hcard : 2 ≤ Fintype.card ι) (h : Inv s)
    (hs : barrierWait (Fintype.card ι) s i (s.pc i) = some u) : Inv u := by
  obtain ⟨hp, hr⟩ := id h
  -- a place of the first participant carries a pointer to its own record
  have hfirst := hp.own i
  cases hpc : s.pc i with
  | outside => simp [barrierWait, hpc] at hs
  | start =>
    simp only [barrierWait, hpc, if_neg (show ¬ Fintype.card ι ≤ 1 by omega), some.injEq] at hs
    subst hs
    have hpu : Pointers ((s.setRecord i (s.record i)).setPc i .clearRelease) :=
      hp.unjoined (by rw [hpc]; rfl) rfl id (by simp) (by simp) (by simp)
    rw [setRecord, update_eq_self] at hpu
    exact ⟨hpu, hr.stay (by simp [hpc]) rfl rfl rfl (by simp) nofun (by simp [hpc, Pc.Pending]) nofun⟩
  | clearRelease =>
    simp only [barrierWait, hpc, some.injEq] at hs
    subst hs
    exact ⟨hp.unjoined (by rw [hpc]; rfl) rfl id (by simp) (by simp) (by simp),
      hr.stay (by simp [hpc]) rfl rfl rfl (by simp) nofun (by simp [hpc, Pc.Pending]) nofun⟩
  | clearCount =>
    simp only [barrierWait, hpc, some.injEq] at hs
    subst hs
    refine ⟨hp.unjoined (by rw [hpc]; rfl) rfl id (fun _ => ?_) (by simp) (by simp),
      hr.stay (by simp [hpc]) rfl rfl rfl (by simp) nofun (by simp [hpc, Pc.Pending]) nofun⟩
    rw [hp.clearing i hpc]
  | cas =>
    simp only [barrierWait, hpc] at hs
    split at hs
    case h_1 hpub =>
      cases hs
      exact ⟨hp.publish hpc hpub, hr.move (by simp [hpc]) rfl rfl rfl (by simp)
        (fun f hf => by cases hf; rfl) (by simp [hpc, Pc.Pending]) nofun⟩
    case h_2 f hpub =>
      cases hs
      exact ⟨hp.join hpc hpub, hr.move (by simp [hpc]) rfl rfl rfl (by simp)
        (fun g hg => by cases hg; exact h.published_round hpc hpub) (by simp [hpc, Pc.Pending]) nofun⟩
  | inc f first =>
    simp only [barrierWait, hpc, some.injEq] at hs
    subst hs
    refine ⟨hp.inc hpc, hr.stay (by simp [hpc]) rfl rfl rfl ?_ ?_ (by simp [hpc, Pc.Pending]) ?_⟩
    · cases first <;> simp
    · cases first <;> simp [hpc, Pc.myLocal, Pc.counted]
    · cases first <;> simp [Pc.Full]
  | waitCount f =>
    obtain rfl : f = i := by simpa [hpc, Pc.Leads, Pc.myLocal, Pc.counted] using hfirst
    simp only [barrierWait, hpc, some.injEq] at hs
    split_ifs at hs with hc
    · exact hs ▸ h
    · exact hs ▸ h.complete hpc (not_not.mp hc)
  | unpublish f =>
    obtain rfl : f = i := by simpa [hpc, Pc.Leads, Pc.myLocal, Pc.counted] using hfirst
    simp only [barrierWait, hpc, some.injEq] at hs
    subst hs
    exact ⟨hp.unpublish hpc, hr.stay (by simp [hpc]) rfl rfl rfl (by simp)
      (by simp [hpc, Pc.myLocal, Pc.counted]) nofun (by simp [hpc, Pc.Full])⟩
  | setRelease f =>
    obtain rfl : f = i := by simpa [hpc, Pc.Leads, Pc.myLocal, Pc.counted] using hfirst
    simp only [barrierWait, hpc, some.injEq] at hs
    subst hs
    exact ⟨hp.setRelease hpc, hr.stay (by simp [hpc]) rfl rfl rfl (by simp)
      (by simp [hpc, Pc.myLocal, Pc.counted]) nofun (by simp [hpc, Pc.Full])⟩
  | drain f =>
    obtain rfl : f = i := by simpa [hpc, Pc.Leads, Pc.myLocal, Pc.counted] using hfirst
    simp only [barrierWait, hpc, some.injEq] at hs
    split_ifs at hs with hc
    · exact hs ▸ h
    · subst hs
      exact ⟨hp.drained hpc (not_not.mp hc),
        hr.leave (by simp [hpc]) rfl rfl rfl (by simp [hpc, Pc.Full]) rfl⟩
  | waitRelease f =>
    simp only [barrierWait, hpc, some.injEq] at hs
    split_ifs at hs with hrel
    · subst hs
      exact ⟨hp.released hpc hrel, hr.stay (by simp [hpc]) rfl rfl rfl (by simp)
        (by simp [hpc, Pc.myLocal, Pc.counted]) nofun nofun⟩
    · exact hs ▸ h
  | dec f =>
    simp only [barrierWait, hpc, some.injEq] at hs
    subst hs
    exact ⟨hp.dec hpc, hr.leave (by simp [hpc]) rfl rfl rfl
      (by simp [hp.leaving i f hpc, Pc.Full]) (hr.sameRound i f (by rw [hpc]; rfl))⟩

theorem inv_step {s u : State ι} {a : Action ι} (hcard : 2 ≤ Fintype.card ι) (h : Inv s)
    (hs : step (Fintype.card ι) s a = some u) : Inv u := by
  cases a with
  | call i =>
    simp only [step] at hs
    split_ifs at hs with hpc
    cases hs
    exact ⟨h.pointers.call hpc, Rounds.call h.pointers h.rounds hpc⟩
  | step i => exact inv_barrierWait hcard h hs

theorem Inv.separate (h : Inv s) : RoundsSeparate s where
  together := h.rounds.together
  alive i f hf := by
    have hpointer : (s.pc i).myLocal = some f → s.pc f ≠ .outside ∧ s.entered f = s.entered i := by
      intro hl
      refine ⟨fun h0 => ?_, h.rounds.sameRound i f hl⟩
      have := h.pointers.pointed i f hl
      simp [h0, Pc.Leads] at this
    cases hpc : s.pc i with
    | clearRelease | clearCount =>
      rw [hpc] at hf
      cases hf
      simp [hpc]
    | _ => exact hpointer (by rw [hpc] at hf ⊢; first | exact hf | cases hf)

/-- Whatever the interleaving and the contents of the stacks, the rounds of the barrier are
separate. -/
theorem barrier_rounds (hcard : 2 ≤ Fintype.card ι) (record : ι → LocalBarrier) (s : State ι)
    (hrun : Reach (step (Fintype.card ι)) anyStep (init record) s) : RoundsSeparate s :=
  (hrun.invariant (inv_init record) fun _ _ _ hu _ hs => inv_step hcard hu hs).separate

/-- Participant `i` leads the first round; participant `j` is in its second call, as the leader of
it, while `i` has not left its first. -/
def overlappingRun (i j : ι) : List (Action ι) :=
  [.call i, .step i, .step i, .step i, .step i, .call j, .step j, .step j, .step j, .step j,
    .step j, .step i,
    .step i, .step i, .step i, .step j, .step j, .call j, .step j, .step j, .step j, .step j,
    .step j]

theorem barrier_rounds_overlapping :
    ∃ s, Reach (step 2) anyStep (init fun _ : Fin 2 => ⟨7, true⟩) s ∧ s.pc 0 = .drain 0 ∧
      s.pc 1 = .waitCount 1 ∧ RoundsSeparate s := by
  refine exists_reach_of (P := fun s => s.pc 0 = .drain 0 ∧
    s.pc 1 = .waitCount 1) (overlappingRun 0 1) (by decide +kernel) fun s hs h => ?_
  exact ⟨h.1, h.2, barrier_rounds (by simp) _ s hs⟩

end Toddler.Barrier
