import Toddler.Spec.FdTable
import Mathlib.Tactic

/-! The descriptor tables are isolated finite maps as long as no descriptor is negative and the
standard streams are not freed. -/

namespace Toddler

open Function

variable {tasks tasks₀ : ℕ → Option TaskStruct} {t : TaskStruct} {fd : ℤ} {i pid : ℕ}

theorem fdMap_eq_none_iff (hi : i < maxNumFiles) :
    t.fdMap i = none ↔ (t.files i).inuse = false := by
  have hlt : i < maxNumFiles := by exact_mod_cast hi
  simp [TaskStruct.fdMap, hlt]

theorem fdMap_update (hi : i < maxNumFiles) (f : TaskFile ℕ) :
    TaskStruct.fdMap { t with files := update t.files i f } =
      update t.fdMap i (if f.inuse then some f.vent else none) := by
  have hlt : i < maxNumFiles := by exact_mod_cast hi
  funext x
  by_cases hx : x = i
  · simp [hx, TaskStruct.fdMap, hlt]
  · rw [update_of_ne hx]
    unfold TaskStruct.fdMap
    by_cases h0 : 0 ≤ x
    · simp [update_of_ne (show x.toNat ≠ i by omega)]
    · simp [h0]

/-- A descriptor that is not negative is looked for in the table. -/
theorem onFd_lawful (hfd : 0 ≤ fd) (f : TaskFile ℕ → TaskFile ℕ) :
    ∃ t' r, onFd (some t) fd f = some (some t', r) ∧ t'.workDir = t.workDir ∧
      (∀ i : ℕ, fd ≠ i → t'.files i = t.files i) ∧
      if t.fdMap fd = none then t'.fdMap = t.fdMap ∧ r = -1
      else t'.fdMap = update t.fdMap fd (if (f (t.files fd.toNat)).inuse
        then some (f (t.files fd.toNat)).vent else none) ∧ r = 0 := by
  obtain ⟨i, rfl⟩ := Int.eq_ofNat_of_zero_le hfd
  by_cases hi : i < maxNumFiles
  · have hin : ¬ (maxNumFiles : ℤ) ≤ i := by omega
    simp only [onFd, if_neg hin, Int.toNat_natCast, fdMap_eq_none_iff hi]
    cases hu : (t.files i).inuse with
    | true =>
      refine ⟨{ t with files := update t.files i (f (t.files i)) }, 0, by simp, rfl, fun j hj => ?_, ?_⟩
      · exact update_of_ne (fun h => hj (congrArg _ h.symm)) _ _
      · simp [fdMap_update hi]
    | false => exact ⟨t, -1, by simp, rfl, fun _ _ => rfl, by simp⟩
  · have hout : maxNumFiles ≤ i := by omega
    have hnone : t.fdMap i = none := if_neg (by omega)
    exact ⟨t, -1, by simp [onFd, hout], rfl, fun _ _ => rfl, by simp [hnone]⟩

theorem taskAllocFd_lawful (hres : ∀ i < numReserved, (t.files i).inuse) (vent : Option ℕ) :
    ∃ t' r, taskAllocFd (some t) vent = (some t', r) ∧ FdLawful t t' (.code r) (.alloc vent) := by
  -- the reserved slots are in use, so that a free slot lies above them
  have hfree : ∀ i, i < maxNumFiles → (t.files i).inuse = false → AllocatableFd t.fdMap i := by
    intro i hi hu
    refine ⟨?_, by exact_mod_cast hi, (fdMap_eq_none_iff hi).mpr hu⟩
    by_contra hlt
    simp [hres i (by omega)] at hu
  have hslot : ∀ x, AllocatableFd t.fdMap x → ∃ i : ℕ, x = i ∧ i < maxNumFiles ∧ (t.files i).inuse =
      false := by
    rintro x ⟨hlo, hhi, hx⟩
    obtain ⟨i, rfl⟩ := Int.eq_ofNat_of_zero_le (show 0 ≤ x by omega)
    exact ⟨i, rfl, by omega, (fdMap_eq_none_iff (by omega)).mp hx⟩
  cases hfind : (List.range maxNumFiles).find? fun i => !(t.files i).inuse with
  | none =>
    refine ⟨t, -1, by simp [taskAllocFd, hfind], Or.inr ⟨fun x hx => ?_, rfl, rfl⟩, rfl, fun _ _ => rfl⟩
    obtain ⟨i, -, hi, hu⟩ := hslot x hx
    simpa [hu] using List.find?_eq_none.mp hfind i (List.mem_range.mpr hi)
  | some i =>
    obtain ⟨hu, hi, hleast⟩ := List.find?_range_eq_some.mp hfind
    have hi := List.mem_range.mp hi
    refine ⟨{ t with files := update t.files i ⟨true, vent⟩ }, i, by simp [taskAllocFd, hfind],
      Or.inl ⟨i, hfree i hi (by simpa using hu), fun x hx => ?_, ?_, rfl⟩, rfl, fun j hj => ?_⟩
    · obtain ⟨j, rfl, -, hj⟩ := hslot x hx
      by_contra hlt
      simpa [hj] using hleast j (by omega)
    · rw [fdMap_update hi, if_pos rfl]
    · exact update_of_ne (fun h => hj (by rw [h]; rfl)) _ _

variable {c : FdCall}

theorem fdCall_lawful (hres : ∀ i < numReserved, (t.files i).inuse)
    (hok : FdInTable tasks (pid, c)) :
    ∃ t' r, fdCall (some t) c = some (some t', r) ∧ FdLawful t t' r c := by
  cases c with
  | alloc vent =>
    obtain ⟨t', r, hcall, hlaw⟩ := taskAllocFd_lawful hres vent
    exact ⟨t', .code r, by simp [fdCall, hcall], hlaw⟩
  | free fd =>
    have hfd : numReserved ≤ fd := hok
    obtain ⟨t', r, hcall, hdir, hslots, hlaw⟩ := onFd_lawful (show 0 ≤ fd by omega) fun _ => ⟨false, none⟩
    refine ⟨t', .code r, by simp [fdCall, taskFreeFd, hcall], ?_, hdir,
      fun i hi => hslots i (by simpa [FdCall.slot] using hi)⟩
    simpa [FdLaw] using hlaw
  | set fd vent =>
    obtain ⟨t', r, hcall, hdir, hslots, hlaw⟩ := onFd_lawful hok fun f => { f with vent := vent }
    refine ⟨t', .code r, by simp [fdCall, taskSetFd, hcall], ?_, hdir,
      fun i hi => hslots i (by simpa [FdCall.slot] using hi)⟩
    by_cases hnone : t.fdMap fd = none
    · simpa [FdLaw, hnone] using hlaw
    · have hu : (t.files fd.toNat).inuse := by
        by_contra hu
        exact hnone (if_neg fun h => hu h.2.2)
      simpa [FdLaw, hu] using hlaw
  | lookup fd =>
    have hfd : 0 ≤ fd := hok
    refine ⟨t, .vent (t.fdMap fd).join, ?_, ⟨rfl, rfl⟩, rfl, fun _ _ => rfl⟩
    by_cases hlt : fd < maxNumFiles
    · by_cases hu : (t.files fd.toNat).inuse <;>
        simp [fdCall, taskLookupFd, TaskStruct.fdMap, hfd, hlt, not_lt.mpr hfd, hu]
    · simp [fdCall, taskLookupFd, TaskStruct.fdMap, hlt]

theorem FdLaw.reserved {m m' : ℤ → Option (Option ℕ)} {r : FdResult} (h : FdLaw m m' r c)
    (hok : FdInTable tasks (pid, c)) (hm : m i ≠ none) (hi : i < numReserved) : m' i ≠ none := by
  cases c with
  | lookup fd => rwa [h.1]
  | alloc vent =>
    rcases h with ⟨fd, ⟨hlo, -⟩, -, rfl, -⟩ | ⟨-, rfl, -⟩
    · rwa [update_of_ne (by omega)]
    · exact hm
  | free fd =>
    have hlo : numReserved ≤ fd := hok
    simp only [FdLaw] at h
    split_ifs at h
    · rwa [h.1]
    · rwa [h.1, update_of_ne (by omega)]
  | set fd vent =>
    simp only [FdLaw] at h
    split_ifs at h
    · rwa [h.1]
    · rw [h.1, update_apply]
      split_ifs
      · simp
      · exact hm

theorem fdStep_isolated (hres : ReservedInUse tasks) (hok : FdInTable tasks (pid, c)) :
    FdIsolated tasks pid c := by
  unfold FdIsolated fdStep
  cases ht : tasks pid with
  | none =>
    refine ⟨tasks, c.failure, ?_, fun _ _ => rfl, ht, rfl⟩
    have hsame : update tasks pid none = tasks := by rw [← ht, update_eq_self]
    cases c <;> simp [fdCall, taskAllocFd, taskFreeFd, taskSetFd, onFd, taskLookupFd,
      FdCall.failure, hsame]
  | some t =>
    obtain ⟨t', r, hcall, hlaw⟩ := fdCall_lawful (hres pid t ht) hok
    refine ⟨update tasks pid (some t'), r, by simp [hcall], fun p hp => update_of_ne hp _ _, t',
      update_self .., hlaw⟩

theorem reservedInUse_step {a : ℕ × FdCall} {tasks' : ℕ → Option TaskStruct}
    (hres : ReservedInUse tasks) (hok : FdInTable tasks a) (hstep : fdNext tasks a = some tasks') :
    ReservedInUse tasks' := by
  obtain ⟨pid, c⟩ := a
  obtain ⟨u, r, hu, hothers, hpid⟩ := fdStep_isolated hres hok
  obtain rfl : u = tasks' := by simpa [fdNext, hu] using hstep
  intro p t' ht' i hi
  rcases eq_or_ne p pid with rfl | hp
  · cases ht : tasks p with
    | none =>
      rw [ht] at hpid
      simp [hpid.1] at ht'
    | some t =>
      rw [ht] at hpid
      obtain ⟨t'', ht'', hlaw⟩ := hpid
      obtain rfl : t'' = t' := Option.some.inj (ht''.symm.trans ht')
      have hi' : i < maxNumFiles := hi.trans (by decide)
      have hmap := hlaw.law.reserved hok (mt (fdMap_eq_none_iff hi').mp (by simp [hres p t ht i hi])) hi
      simpa [fdMap_eq_none_iff hi'] using hmap
  · exact hres p t' (hothers p hp ▸ ht') i hi

/-- In every state that such calls lead to, such a call follows the law of a finite map for its
task, and touches nothing else. -/
theorem fd_tables_isolated (h0 : ReservedInUse tasks₀) (hrun : Reach fdNext FdInTable tasks₀ tasks)
    (pid : ℕ) (c : FdCall) (hok : FdInTable tasks (pid, c)) : FdIsolated tasks pid c :=
  fdStep_isolated (hrun.invariant h0 fun _ _ _ hres ha hstep =>
    reservedInUse_step hres ha hstep) hok

/-- One task as `new_task` leaves it. -/
def oneNewTask (pid : ℕ) : Option TaskStruct :=
  if pid = 7 then some ⟨[0x2f], fun i => ⟨i < numReserved, none⟩⟩ else none

theorem oneNewTask_reserved : ReservedInUse oneNewTask := by
  intro pid t ht i hi
  simp only [oneNewTask] at ht
  split_ifs at ht
  cases ht
  simpa using hi

/-- A descriptor is taken, set to another ventry and given back, before a lookup beyond the
table. -/
theorem fd_tables_isolated_lookup_beyond : ∃ tasks,
    execute fdNext FdInTable oneNewTask [(7, .alloc (some 4)), (7, .set 3 (some 5)),
    (7, .alloc none),
      (7, .free 3)] = some tasks ∧ FdIsolated tasks 7 (.lookup 2147483647) :=
  exists_execute (P := fun _ => True) (by decide +kernel) fun _ hrun _ =>
    fd_tables_isolated oneNewTask_reserved hrun 7 _ (show 0 ≤ 2147483647 by decide)

/-- A lookup of the descriptor -1 reads what lies before the table. -/
theorem fd_lookup_before_table :
    ¬ ∀ tasks₀ tasks : ℕ → Option TaskStruct, ReservedInUse tasks₀ →
    Reach fdNext anyStep tasks₀ tasks →
      ∀ (pid : ℕ) (c : FdCall), FdIsolated tasks pid c := by
  intro h
  obtain ⟨tasks', r, hstep, -⟩ := h _ _ oneNewTask_reserved (Reach.refl _) 7 (.lookup (-1))
  simp [fdStep, fdCall, taskLookupFd, oneNewTask, maxNumFiles] at hstep

end Toddler
