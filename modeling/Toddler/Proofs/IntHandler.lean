import Mathlib.Data.Fintype.Basic
import Toddler.Spec.IntHandler

/-! The table of user interrupt handlers over whole runs. An entry is valid from its allocation on,
while its fields are stored later and outside the lock, so the invariant follows each registration
from point to point and an invocation is admitted only on an entry that no registration is still
filling. -/

namespace Toddler

open Function List Option

variable {ι P : Type}

def IntPc.pending : IntPc P → Option ℕ
  | .callHal seq _ _ _ => some seq
  | .free seq _ => some seq
  | .setHalDev r => some r.seq
  | .setProc r => some r.seq
  | .setEntry r => some r.seq
  | .countRef r => some r.seq
  | _ => none

def IntPc.actsOn : IntPc P → Option ℕ
  | .invokeProc seq => some seq
  | .invokeEntry seq _ => some seq
  | .eoiProc seq => some seq
  | .eoiHalDev seq _ => some seq
  | _ => none

def Registration.handler (r : Registration P) : IntHandler P :=
  ⟨true, r.seq, some r.halDev, some r.proc, r.entry⟩

namespace IntTable

/-- An entry that is read is one of a completed registration, and so is what was read; the numbers
of registrations that are complete or in progress differ; a registration that fails puts its entry
back. -/
structure Safe (s : IntTable ι P) : Prop where
  acts : ∀ t seq, (s.pc t).actsOn = some seq → ∃ r ∈ s.completed,
    r.seq = seq ∧ s.handlers seq = r.handler
  invoked : ∀ t seq proc entry, s.pc t = .invoked seq proc entry →
    ∃ r ∈ s.completed, r.seq = seq ∧ proc = some r.proc ∧ entry = r.entry
  ended : ∀ t seq proc halDev, s.pc t = .ended seq proc halDev →
    ∃ r ∈ s.completed, r.seq = seq ∧ proc = some r.proc ∧ halDev = some r.halDev
  apart : s.completed.Pairwise fun r r' => r.seq ≠ r'.seq
  fresh : ∀ t seq, (s.pc t).pending = some seq → ∀ r ∈ s.completed, r.seq ≠ seq
  owner : ∀ t u seq, (s.pc t).pending = some seq → (s.pc u).pending = some seq → t = u
  restored : ∀ t before after, s.pc t = .failed before after → after = before

/-- An invocation or an end of interrupt finds no registration that is still filling its entry, and
the number of an end of interrupt is one of the table. -/
def NotInProgress (s : IntTable ι P) : IntAction ι P → Prop
  | .invoke _ seq => ∀ u, (s.pc u).pending ≠ some seq
  | .eoi _ seq => seq < maxNumIntHandlers ∧ ∀ u, (s.pc u).pending ≠ some seq
  | _ => True

instance [Fintype ι] (s : IntTable ι P) (a : IntAction ι P) : Decidable (s.NotInProgress a) := by
  cases a <;> unfold NotInProgress <;> infer_instance

/-- What a thread at a point knows of its entry and of what it has read. -/
def Sound (handlers : ℕ → IntHandler P) (completed : List (Registration P)) : IntPc P → Prop
  | .idle => True
  | .callHal seq _ _ before => before = {} ∧ handlers seq = { valid := true, seq := seq }
  | .free seq before => before = {} ∧ handlers seq = { valid := true, seq := seq }
  | .failed before after => after = before
  | .setHalDev r => handlers r.seq = { valid := true, seq := r.seq }
  | .setProc r => handlers r.seq = { valid := true, seq := r.seq, halDev := some r.halDev }
  | .setEntry r => handlers r.seq =
      { valid := true, seq := r.seq, halDev := some r.halDev, proc := some r.proc }
  | .countRef r => handlers r.seq = r.handler
  | .invokeProc seq => ∃ r ∈ completed, r.seq = seq
  | .invokeEntry seq proc => ∃ r ∈ completed, r.seq = seq ∧ proc = some r.proc
  | .invoked seq proc entry => ∃ r ∈ completed, r.seq = seq ∧ proc = some r.proc ∧ entry = r.entry
  | .eoiProc seq => ∃ r ∈ completed, r.seq = seq
  | .eoiHalDev seq proc => ∃ r ∈ completed, r.seq = seq ∧ proc = some r.proc
  | .ended seq proc halDev => ∃ r ∈ completed, r.seq = seq ∧ proc = some r.proc ∧ halDev = some r.halDev

structure Inv (s : IntTable ι P) : Prop where
  stored : ∀ r ∈ s.completed, s.handlers r.seq = r.handler
  apart : s.completed.Pairwise fun r r' => r.seq ≠ r'.seq
  sound : ∀ t, Sound s.handlers s.completed (s.pc t)
  fresh : ∀ t seq, (s.pc t).pending = some seq → ∀ r ∈ s.completed, r.seq ≠ seq
  owner : ∀ t u seq, (s.pc t).pending = some seq → (s.pc u).pending = some seq → t = u
  zero : ∀ seq < maxNumIntHandlers, (∀ t, (s.pc t).pending ≠ some seq) →
    (∀ r ∈ s.completed, r.seq ≠ seq) → s.handlers seq = {}

theorem inv_init (beyond : ℕ → IntHandler P) : Inv (init beyond : IntTable ι P) where
  stored := by simp [init]
  apart := by simp [init]
  sound := fun _ => trivial
  fresh := by simp [init]
  owner := by simp [init, IntPc.pending]
  zero := fun seq hseq _ _ => by simp [init, hseq]

/-- A point stays sound as long as its own entry is kept and no registration is forgotten. -/
theorem Sound.mono {h h' : ℕ → IntHandler P} {c c' : List (Registration P)} {pc : IntPc P}
    (hs : Sound h c pc) (hh : ∀ seq, pc.pending = some seq → h' seq = h seq) (hc : ∀ r ∈ c,
    r ∈ c') : Sound h' c' pc := by
  cases pc with
  | callHal seq proc entry before => exact ⟨hs.1, (hh seq rfl).trans hs.2⟩
  | free seq before => exact ⟨hs.1, (hh seq rfl).trans hs.2⟩
  | setHalDev r => exact (hh r.seq rfl).trans hs
  | setProc r => exact (hh r.seq rfl).trans hs
  | setEntry r => exact (hh r.seq rfl).trans hs
  | countRef r => exact (hh r.seq rfl).trans hs
  | idle | failed => exact hs
  | invokeProc | invokeEntry | invoked | eoiProc | eoiHalDev | ended =>
    obtain ⟨r, hr, hrest⟩ := hs
    exact ⟨r, hc r hr, hrest⟩

variable {s : IntTable ι P}

theorem Inv.safe (h : Inv s) : Safe s where
  acts := by
    intro t seq ht
    have hsound := h.sound t
    cases hpc : s.pc t <;> rw [hpc] at ht hsound <;> simp only [IntPc.actsOn, some.injEq,
      reduceCtorEq] at ht
    all_goals
      obtain ⟨r, hr, hrest⟩ := hsound
      exact ⟨r, hr, by grind, by rw [← h.stored r hr]; grind⟩
  invoked := fun t seq proc entry ht => (congrArg (Sound _ _) ht).mp (h.sound t)
  ended := fun t seq proc halDev ht => (congrArg (Sound _ _) ht).mp (h.sound t)
  apart := h.apart
  fresh := h.fresh
  owner := h.owner
  restored := fun t before after ht => (congrArg (Sound _ _) ht).mp (h.sound t)

variable {t : ι} {pc : IntPc P} {seq : ℕ}

theorem Sound.valid_of_pending {h : ℕ → IntHandler P} {c : List (Registration P)}
    (hs : Sound h c pc) (hp : pc.pending = some seq) : (h seq).valid = true := by
  cases pc with
  | callHal | free =>
    cases hp
    rw [hs.2]
  | setHalDev | setProc | setEntry =>
    cases hp
    rw [hs]
  | countRef =>
    cases hp
    rw [hs]
    rfl
  | idle | failed | invokeProc | invokeEntry | invoked | eoiProc | eoiHalDev | ended => cases hp

/-- A free entry is nobody's and zero. -/
theorem Inv.findFree (h : Inv s) (hfind : (findFree fun i => (s.handlers i).valid) = some seq) :
    (∀ u, (s.pc u).pending ≠ some seq) ∧ (∀ r ∈ s.completed, r.seq ≠ seq) ∧
    s.handlers seq = {} := by
  have hinvalid : (s.handlers seq).valid = false := by simpa using find?_some hfind
  have hlt : seq < maxNumIntHandlers := by
    have := mem_range'_1.mp (mem_of_find?_eq_some hfind)
    unfold maxNumIntHandlers at *
    omega
  have hnone : ∀ u, (s.pc u).pending ≠ some seq := by
    intro u hu
    rw [(h.sound u).valid_of_pending hu] at hinvalid
    cases hinvalid
  have hdone : ∀ r ∈ s.completed, r.seq ≠ seq := by
    rintro r hr rfl
    rw [h.stored r hr] at hinvalid
    cases hinvalid
  exact ⟨hnone, hdone, h.zero seq hlt hnone hdone⟩

/-- A valid entry that no registration is filling is that of a completed one. -/
theorem Inv.completed_of_valid (h : Inv s) (hlt : seq < maxNumIntHandlers)
    (hnone : ∀ u, (s.pc u).pending ≠ some seq) (hvalid : (s.handlers seq).valid = true) :
    ∃ r ∈ s.completed, r.seq = seq := by
  by_contra hdone
  push Not at hdone
  rw [h.zero seq hlt hnone hdone] at hvalid
  cases hvalid

variable [DecidableEq ι]

theorem pc_goto_self (s : IntTable ι P) : (s.goto t pc).pc t = pc := update_self ..

theorem pc_goto_of_ne {u : ι} (s : IntTable ι P) (hu : u ≠ t) : (s.goto t pc).pc u = s.pc u :=
  update_of_ne hu ..

section

variable (h : Inv s)
include h

/-- A step that leaves the table alone and neither starts nor ends a registration. -/
theorem Inv.read (lock : Option ι) (hpending : pc.pending = (s.pc t).pending)
    (hsound : Sound s.handlers s.completed pc) : Inv ({ s with lock := lock }.goto t pc) := by
  have hsame : ∀ u, (({ s with lock := lock }.goto t pc).pc u).pending = (s.pc u).pending := by
    intro u
    rcases eq_or_ne u t with rfl | hu
    · rw [pc_goto_self, hpending]
    · rw [pc_goto_of_ne _ hu]
  refine ⟨h.stored, h.apart, fun u => ?_, fun u seq hu => ?_, fun u v seq hu hv => ?_,
    fun seq hlt hnone => ?_⟩
  · rcases eq_or_ne u t with rfl | hu
    · rw [pc_goto_self]
      exact hsound
    · rw [pc_goto_of_ne _ hu]
      exact h.sound u
  · exact h.fresh u seq ((hsame u).symm.trans hu)
  · exact h.owner u v seq ((hsame u).symm.trans hu) ((hsame v).symm.trans hv)
  · exact h.zero seq hlt fun u hu => hnone u ((hsame u).trans hu)

/-- A step of a registration that writes its entry. At the end of a failed one the entry is zero
again. -/
theorem Inv.write {e : IntHandler P} (hmine : ∀ u, u ≠ t → (s.pc u).pending ≠ some seq)
    (hfresh : ∀ r ∈ s.completed, r.seq ≠ seq) (hbefore : ∀ n, (s.pc t).pending = some n → n = seq)
    (hafter : pc.pending = some seq ∨ pc.pending = none ∧ e = {})
    (hsound : Sound (update s.handlers seq e) s.completed pc) :
    Inv ((s.setHandler seq e).goto t pc) := by
  have hpc : ∀ u, u ≠ t → ((s.setHandler seq e).goto t pc).pc u = s.pc u :=
    fun u hu => pc_goto_of_ne _ hu
  have hself : ((s.setHandler seq e).goto t pc).pc t = pc := pc_goto_self _
  refine ⟨fun r hr => ?_, h.apart, fun u => ?_, fun u n hu => ?_, fun u v n hu hv => ?_,
    fun n hlt hnone hdone => ?_⟩
  · exact (update_of_ne (hfresh r hr) ..).trans (h.stored r hr)
  · rcases eq_or_ne u t with rfl | hu
    · rw [hself]
      exact hsound
    · rw [hpc u hu]
      refine (h.sound u).mono (fun n hn => update_of_ne ?_ ..) fun r hr => hr
      rintro rfl
      exact hmine u hu hn
  · rcases eq_or_ne u t with rfl | hne
    · rw [hself] at hu
      obtain hp | ⟨hp, -⟩ := hafter <;> rw [hp] at hu <;> cases hu
      exact hfresh
    · exact h.fresh u n (hpc u hne ▸ hu)
  · have hcases : ∀ w, (((s.setHandler seq e).goto t pc).pc w).pending = some n →
        w = t ∧ n = seq ∨ w ≠ t ∧ n ≠ seq ∧ (s.pc w).pending = some n := by
      intro w hw
      rcases eq_or_ne w t with rfl | hne
      · rw [hself] at hw
        obtain hp | ⟨hp, -⟩ := hafter <;> rw [hp] at hw <;> cases hw
        exact .inl ⟨rfl, rfl⟩
      · rw [hpc w hne] at hw
        exact .inr ⟨hne, fun hn => hmine w hne (hn ▸ hw), hw⟩
    obtain ⟨rfl, rfl⟩ | ⟨-, hne, hu'⟩ := hcases u hu
    · obtain ⟨rfl, -⟩ | ⟨-, hne, -⟩ := hcases v hv
      · rfl
      · exact absurd rfl hne
    · obtain ⟨-, rfl⟩ | ⟨-, -, hv'⟩ := hcases v hv
      · exact absurd rfl hne
      · exact h.owner u v n hu' hv'
  · rcases eq_or_ne n seq with rfl | hne
    · obtain hp | ⟨-, rfl⟩ := hafter
      · exact absurd ((congrArg IntPc.pending hself).trans hp) (hnone t)
      · exact update_self ..
    · refine (update_of_ne hne ..).trans (h.zero n hlt (fun u hu => ?_) hdone)
      rcases eq_or_ne u t with rfl | hut
      · exact hne (hbefore n hu)
      · exact hnone u ((congrArg IntPc.pending (hpc u hut)).trans hu)

/-- The last step of a registration. -/
theorem Inv.complete {r : Registration P} (hpc : s.pc t = .countRef r) :
    Inv ({ s with completed := r :: s.completed }.goto t .idle) := by
  have hpending : (s.pc t).pending = some r.seq := by rw [hpc]; rfl
  have hstored : Sound s.handlers s.completed (.countRef r) := hpc ▸ h.sound t
  have hsame : ∀ u n, (({ s with completed := r :: s.completed }.goto t .idle).pc u).pending =
    some n →
      u ≠ t ∧ (s.pc u).pending = some n := by
    intro u n hu
    rcases eq_or_ne u t with rfl | hne
    · rw [pc_goto_self] at hu
      cases hu
    · exact ⟨hne, pc_goto_of_ne _ hne ▸ hu⟩
  refine ⟨fun r' hr' => ?_, ?_, fun u => ?_, fun u n hu r' hr' => ?_, fun u v n hu hv => ?_,
    fun n hlt hnone hdone => ?_⟩
  · obtain rfl | hr' := mem_cons.mp hr'
    · exact hstored
    · exact h.stored r' hr'
  · exact pairwise_cons.mpr ⟨fun r' hr' => (h.fresh t r.seq hpending r' hr').symm, h.apart⟩
  · rcases eq_or_ne u t with rfl | hne
    · rw [pc_goto_self]
      trivial
    · rw [pc_goto_of_ne _ hne]
      exact (h.sound u).mono (fun _ _ => rfl) fun r' hr' => mem_cons_of_mem _ hr'
  · obtain ⟨hne, hu'⟩ := hsame u n hu
    obtain rfl | hr' := mem_cons.mp hr'
    · intro hn
      exact hne (h.owner u t n hu' (hn ▸ hpending))
    · exact h.fresh u n hu' r' hr'
  · exact h.owner u v n (hsame u n hu).2 (hsame v n hv).2
  · refine h.zero n hlt (fun u hu => ?_) fun r' hr' => hdone r' (mem_cons_of_mem _ hr')
    rcases eq_or_ne u t with rfl | hne
    · exact hdone r mem_cons_self (some.inj (hpending.symm.trans hu))
    · exact hnone u ((congrArg IntPc.pending (pc_goto_of_ne _ hne)).trans hu)

theorem inv_register (hpc : s.pc t = .idle) (proc : P) (entry : ℕ) :
    Inv (s.register t proc entry) := by
  unfold register
  split
  · exact h
  next seq hfind =>
    obtain ⟨hnone, hdone, hzero⟩ := h.findFree hfind
    refine h.write (fun u _ => hnone u) hdone (fun n hn => ?_) (.inl rfl) ⟨hzero, ?_⟩
    · rw [hpc] at hn
      cases hn
    · rw [update_self, hzero]

theorem inv_lookup (hpc : s.pc t = .idle) (hlt : seq < maxNumIntHandlers)
    (hnone : ∀ u, (s.pc u).pending ≠ some seq) (hpending : pc.pending = none)
    (hsound : (∃ r ∈ s.completed, r.seq = seq) → Sound s.handlers s.completed pc) :
      Inv (s.lookup t seq pc) := by
  unfold lookup
  split_ifs with hvalid
  · exact h.read (some t) (by rw [hpending, hpc]; rfl) (hsound (h.completed_of_valid hlt hnone hvalid))
  · exact h

theorem Inv.fill {e : IntHandler P} (hpending : (s.pc t).pending = some seq)
    (hafter : pc.pending = some seq) (hsound : Sound (update s.handlers seq e) s.completed pc) :
    Inv ((s.setHandler seq e).goto t pc) := by
  refine h.write (fun u hu hp => hu (h.owner u t seq hp hpending)) (h.fresh t seq hpending)
    (fun n hn => ?_) (.inl hafter) hsound
  exact some.inj (hn.symm.trans hpending)

theorem inv_advance {s' : IntTable ι P} (hs : s.advance t = some s') : Inv s' := by
  have hsound := h.sound t
  unfold advance at hs
  cases hpc : s.pc t <;> rw [hpc] at hs hsound
  case idle | callHal => cases hs
  case free seq before =>
    simp only [ite_none_right_eq_some, some.injEq] at hs
    obtain ⟨-, rfl⟩ := hs
    have hpending : (s.pc t).pending = some seq := by rw [hpc]; rfl
    exact h.write (fun u hu hp => hu (h.owner u t seq hp hpending)) (h.fresh t seq hpending)
      (fun n hn => some.inj (hn.symm.trans hpending)) (.inr ⟨rfl, rfl⟩) hsound.1.symm
  case setHalDev r | setProc r | setEntry r =>
    cases hs
    refine h.fill (by rw [hpc]; rfl) rfl ?_
    simp only [Sound] at hsound
    simp only [Sound, update_self, hsound, Registration.handler]
  case countRef r =>
    cases hs
    exact h.complete hpc
  case failed | invoked | ended =>
    cases hs
    exact h.read s.lock (by rw [hpc]; rfl) trivial
  case invokeProc seq | eoiProc seq =>
    cases hs
    obtain ⟨r, hr, rfl⟩ := hsound
    exact h.read s.lock (by rw [hpc]; rfl) ⟨r, hr, rfl, by rw [h.stored r hr]; rfl⟩
  case invokeEntry seq proc | eoiHalDev seq proc =>
    cases hs
    obtain ⟨r, hr, rfl, hproc⟩ := hsound
    exact h.read none (by rw [hpc]; rfl) ⟨r, hr, rfl, hproc, by rw [h.stored r hr]; rfl⟩

theorem inv_step {s' : IntTable ι P} {a : IntAction ι P} (hok : s.NotInProgress a)
    (hs : s.step a = some s') : Inv s' := by
  cases a with
  | register t proc entry =>
    simp only [step] at hs
    split at hs
    next hpc =>
      simp only [ite_none_right_eq_some, some.injEq] at hs
      exact hs.2 ▸ inv_register h hpc proc entry
    next => cases hs
  | answer t halDev =>
    have hsound := h.sound t
    simp only [step] at hs
    split at hs
    next seq proc entry before dev hpc =>
      cases hs
      rw [hpc] at hsound
      exact h.read s.lock (by rw [hpc]; rfl) hsound.2
    next seq proc entry before hpc =>
      cases hs
      rw [hpc] at hsound
      exact h.read s.lock (by rw [hpc]; rfl) hsound
    next => cases hs
  | invoke t seq =>
    simp only [step] at hs
    split at hs
    next hpc =>
      simp only [ite_none_right_eq_some, some.injEq] at hs
      exact hs.2 ▸ inv_lookup h hpc hs.1.1 hok rfl id
    next => cases hs
  | eoi t seq =>
    simp only [step] at hs
    split at hs
    next hpc =>
      simp only [ite_none_right_eq_some, some.injEq] at hs
      exact hs.2 ▸ inv_lookup h hpc hok.1 hok.2 rfl id
    next => cases hs
  | step t => exact inv_advance h hs

end

/-- In every run that admits invocations and ends of interrupt only where no registration is filling
the entry, the table is safe in every state. -/
theorem int_handler_table_safe {s : IntTable ι P} (beyond : ℕ → IntHandler P)
    (hrun : Reach step NotInProgress (init beyond) s) : s.Safe :=
  (hrun.invariant (inv_init beyond) fun _ _ _ h hok hs => inv_step h hok hs).safe

def registerRun (t : ι) : List (IntAction ι ℕ) := [.register t 7 0x400, .answer t (some 0x90)]

def fillRun (t : ι) : List (IntAction ι ℕ) := [.step t, .step t, .step t, .step t]

theorem int_handler_table_safe_of_two_threads :
    ∃ s : IntTable (Fin 2) ℕ, s.pc 1 = .invoked 1 (some 7) 0x400 ∧
    s.completed = [⟨1, 0x90, 7, 0x400⟩] ∧ s.Safe := by
  obtain ⟨s, hs, hpc, hcompleted⟩ : ∃ s, Reach step NotInProgress (init fun _ => {}) s ∧
      s.pc 1 = .invoked 1 (some 7) 0x400 ∧ s.completed = [⟨1, 0x90, 7, 0x400⟩] :=
    exists_reach (registerRun (0 : Fin 2) ++ fillRun 0 ++ [.invoke 1 1, .step 1,
      .step 1]) (by decide +kernel)
  exact ⟨s, hpc, hcompleted, int_handler_table_safe _ hs⟩

/-- The device raises its interrupt as soon as the HAL has enabled it: the other thread finds a
valid entry whose process is null. -/
theorem invoke_before_fill :
    ¬ ∀ (beyond : ℕ → IntHandler ℕ) (s : IntTable (Fin 2) ℕ), Reach step anyStep (init beyond) s →
    s.Safe := by
  intro hall
  obtain ⟨s, hs, hpc, hcompleted⟩ : ∃ s, Reach step anyStep (init fun _ => {}) s ∧
    s.pc 1 = .invoked 1 none 0 ∧
      s.completed = [] :=
    exists_reach (registerRun (0 : Fin 2) ++ [.invoke 1 1, .step 1, .step 1]) (by decide +kernel)
  obtain ⟨r, hr, -⟩ := (hall _ s hs).invoked 1 1 none 0 hpc
  rw [hcompleted] at hr
  cases hr

end IntTable

end Toddler
