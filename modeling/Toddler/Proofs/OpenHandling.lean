import Toddler.Proofs.FileRead
import Toddler.Proofs.VentryCounts
import Toddler.Spec.OpenApi

/-! Open requests of clients: one response and one descriptor, or one error and nothing changed. It
is so exactly for the requests that succeed. -/

namespace Toddler

open Option Slots

variable {A : Arch} {depth : ℕ} {fs : FsAnswers} {salloc : Vfs → ℕ} {stack : ℕ → UInt8} {s : Vfs}
  {task : TaskStruct}

theorem taskAllocFd_of_free (hfree : FdFree task) (vent : Option ℕ) :
    ∃ fd < maxNumFiles, (task.files fd).inuse = false ∧ taskAllocFd (some task) vent =
      (some { task with files := Function.update task.files fd ⟨true, vent⟩ }, (fd : ℤ)) := by
  obtain ⟨fd₀, hlt₀, hfree₀⟩ := hfree
  have hsome : ((List.range maxNumFiles).find? fun i => !(task.files i).inuse).isSome := by
    rw [List.find?_isSome]
    exact ⟨fd₀, List.mem_range.mpr hlt₀, by rw [hfree₀]; rfl⟩
  obtain ⟨fd, hfd⟩ := isSome_iff_exists.mp hsome
  have hinuse := List.find?_some hfd
  refine ⟨fd, List.mem_range.mp (List.mem_of_find?_eq_some hfd), by simpa using hinuse, ?_⟩
  simp only [taskAllocFd, hfd]

variable {t : Vfs}

/-- A ventry that is acquired has a vnode. -/
theorem Vfs.vfsAcquire_vnode {path : List UInt8} {v : ℕ}
    (h : s.vfsAcquire depth fs salloc path = some (t, some v)) :
    t.notAcquired (some v) = false := by
  simp only [Vfs.vfsAcquire, bind_eq_bind, bind_eq_some_iff] at h
  obtain ⟨⟨s₁, found⟩, -, h⟩ := h
  cases found with
  | none => cases h
  | some u =>
    rw [bind_eq_some_iff] at h
    obtain ⟨s₂, -, h⟩ := h
    cases hvnode : s₂.vnode u with
    | none =>
      rw [hvnode] at h
      obtain ⟨s₃, -, heq⟩ := map_eq_some_iff.mp h
      cases heq
    | some node =>
      rw [hvnode] at h
      cases h
      simp [Vfs.notAcquired, Vfs.countAcquire]

def fdResponse (A : Arch) (fd : ℤ) : Slots :=
  [.scalar (0 % (A.ulong : ℤ)).toNat, .scalar (fd % A.ulong).toNat]

section Handler

variable {path : Message.CStr} {msg : Slots}

/-- The handler once `vfs_acquire` has returned. -/
theorem vfsApiAcquire_eq (hmsg : appendStr A [] path = some msg) (task : Option TaskStruct) :
    vfsApiAcquire A depth fs salloc stack s task msg =
      (s.vfsAcquire depth fs salloc (acquirePath task stack path.chars)).map fun r =>
        ⟨r.1, (taskAllocFd task r.2).1,
          (if r.1.notAcquired r.2 then [[.scalar (-1 % (A.ulong : ℤ)).toNat]] else []) ++
            [fdResponse A (taskAllocFd task r.2).2]⟩ := by
  have hblock : ∃ words, msg = [.block (path.chars ++ [0]) words] := by
    simp only [appendStr] at hmsg
    split_ifs at hmsg
    cases hmsg
    exact ⟨_, rfl⟩
  obtain ⟨words, rfl⟩ := hblock
  have hdata : getData A [.block (path.chars ++ [0]) words] 0 = some (path.chars ++ [0],
    words * A.bytes) := rfl
  simp only [vfsApiAcquire, hdata, cstrOf_chars, bind_eq_bind, bind_some, map_eq_bind]
  congr 1

theorem vfsApiAcquire_of_resolved (hmsg : appendStr A [] path = some msg) {v : ℕ}
    {task : Option TaskStruct} (hacquire : s.vfsAcquire depth fs salloc
    (acquirePath task stack path.chars) = some (t, some v)) :
    vfsApiAcquire A depth fs salloc stack s task msg =
      some ⟨t, (taskAllocFd task (some v)).1, [fdResponse A (taskAllocFd task (some v)).2]⟩ := by
  rw [vfsApiAcquire_eq hmsg, hacquire, map_some]
  simp only [Vfs.vfsAcquire_vnode hacquire]
  rfl

theorem getInt_fdResponse_zero (fd : ℤ) : getInt (fdResponse A fd) 0 = some 0 :=
  getInt_scalar (by omega) rfl

/-- The handling of a request is all or nothing exactly if the path resolves and a descriptor is
free. -/
theorem acquire_all_or_nothing_iff (hmsg : appendStr A [] path = some msg) :
    AllOrNothing A depth fs salloc stack s task path.chars msg ↔
      Resolves depth fs salloc s (acquirePath (some task) stack path.chars) ∧ FdFree task := by
  constructor
  · rintro ⟨r, resp, hr, hresp, hrefused, -⟩
    by_contra hnot
    obtain ⟨⟨err, herr, hne⟩, -, -⟩ := hrefused hnot
    cases hacquire : s.vfsAcquire depth fs salloc (acquirePath (some task) stack path.chars) with
    | none =>
      rw [vfsApiAcquire_eq hmsg, hacquire] at hr
      cases hr
    | some found =>
      obtain ⟨t, vent⟩ := found
      cases vent with
      | none =>
        -- one request that fails is responded to twice
        rw [vfsApiAcquire_eq hmsg, hacquire] at hr
        cases hr
        cases hresp
      | some v =>
        -- the reference is taken, and the response is that all went well
        rw [vfsApiAcquire_of_resolved hmsg hacquire] at hr
        cases hr
        cases hresp
        rw [getInt_fdResponse_zero] at herr
        cases herr
        exact hne rfl
  · rintro ⟨⟨t, v, hacquire⟩, hfree⟩
    obtain ⟨fd, hlt, hinuse, halloc⟩ := taskAllocFd_of_free hfree (some v)
    have hhandler := vfsApiAcquire_of_resolved hmsg hacquire
    rw [halloc] at hhandler
    refine ⟨_, _, hhandler, rfl, fun hnot => absurd ⟨⟨t, v, hacquire⟩, hfree⟩ hnot, fun _ => ?_⟩
    have hfd : fd < 32 := hlt
    exact ⟨fd, v, hlt, hinuse, getInt_fdResponse_zero _, getInt_scalar (by omega) rfl, hacquire, rfl⟩

end Handler

def clientTask (n : ℕ) : TaskStruct := ⟨[0x2f], fun fd => ⟨decide (fd < n), none⟩⟩

def nameA : Message.CStr := ⟨[0x61], by decide, by decide⟩

theorem nul_notMem_b : 0 ∉ ([0x62] : List UInt8) := by decide

def nameB : Message.CStr := ⟨[0x62], nul_notMem_b, by decide⟩

theorem acquire_all_or_nothing_iff_of_opened :
    appendStr ⟨true, false⟩ [] nameA = some [.block [0x61, 0] 1] ∧
      AllOrNothing ⟨true, false⟩ 8 nestedFs sallocAbove (fun _ => 0) mountedVfs (clientTask 3) nameA.chars
        [.block [0x61, 0] 1] := by
  have hmsg : appendStr ⟨true, false⟩ [] nameA = some [.block [0x61, 0] 1] := by decide +kernel
  have hacquire : (mountedVfs.vfsAcquire 8 nestedFs sallocAbove
      (acquirePath (some (clientTask 3)) (fun _ => 0) nameA.chars)).map Prod.snd =
      some (some 2) := by decide +kernel
  obtain ⟨⟨t, vent⟩, hacquire, hvent⟩ := map_eq_some_iff.mp hacquire
  cases hvent
  exact ⟨hmsg, (acquire_all_or_nothing_iff hmsg).mpr ⟨⟨t, 2, hacquire⟩, 3, by decide, rfl⟩⟩

/-- Opening a file that does not exist gets two responses, and takes a descriptor. -/
theorem failed_open_responds_twice :
    ¬ ∀ (A : Arch) (depth : ℕ) (fs : FsAnswers) (salloc : Vfs → ℕ) (stack : ℕ →
    UInt8) (s : Vfs) (task : TaskStruct)
      (path : Message.CStr) (msg : Slots), appendStr A [] path = some msg →
      AllOrNothing A depth fs salloc stack s task path.chars msg := by
  intro hclaim
  have hmsg : appendStr ⟨true, false⟩ [] nameB = some [.block [0x62, 0] 1] := by decide +kernel
  obtain ⟨r, resp, hr, hresp, -⟩ :=
    hclaim ⟨true, false⟩ 8 nestedFs sallocAbove (fun _ => 0) mountedVfs (clientTask 3) nameB _ hmsg
  have htwice : (vfsApiAcquire ⟨true, false⟩ 8 nestedFs sallocAbove (fun _ =>
    0) mountedVfs (some (clientTask 3))
      [.block [0x62, 0] 1]).map (fun r => r.responses.length) = some 2 := by decide +kernel
  rw [hr, map_some, hresp] at htwice
  cases htwice

end Toddler
