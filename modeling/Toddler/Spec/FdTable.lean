import Toddler.Lib.Run
import Toddler.Spec.OpenApi

/-! The descriptors of all tasks (`system/task/task.c`). A task is found by its `pid`, as
`acquire_task` finds it. An access outside of `files` is `none`. -/

namespace Toddler

/-- What `task_free_fd` and `task_set_fd` do to a slot in use. There is no check for a negative
descriptor. -/
def onFd (task : Option TaskStruct) (fd : ℤ) (f : TaskFile ℕ → TaskFile ℕ) :
    Option (Option TaskStruct × ℤ) :=
  match task with
  | none => some (none, -1)
  | some t =>
    if (maxNumFiles : ℤ) ≤ fd then some (some t, -1)
    else if fd < 0 then none
    else if (t.files fd.toNat).inuse then
      some (some { t with files := Function.update t.files fd.toNat (f (t.files fd.toNat)) }, 0)
    else some (some t, -1)

def taskFreeFd (task : Option TaskStruct) (fd : ℤ) : Option (Option TaskStruct × ℤ) :=
  onFd task fd fun _ => ⟨false, none⟩

def taskSetFd (task : Option TaskStruct) (fd : ℤ) (vent : Option ℕ) :
    Option (Option TaskStruct × ℤ) :=
  onFd task fd fun f => { f with vent := vent }

inductive FdCall
  | alloc (vent : Option ℕ)
  | free (fd : ℤ)
  | lookup (fd : ℤ)
  | set (fd : ℤ) (vent : Option ℕ)
  deriving DecidableEq

inductive FdResult
  | code (r : ℤ)
  | vent (v : Option ℕ)
  deriving DecidableEq

def fdCall (task : Option TaskStruct) : FdCall → Option (Option TaskStruct × FdResult)
  | .alloc vent => some ((taskAllocFd task vent).1, .code (taskAllocFd task vent).2)
  | .free fd => (taskFreeFd task fd).map fun r => (r.1, .code r.2)
  | .lookup fd => (taskLookupFd (task.map TaskStruct.files) fd).map fun v => (task, .vent v)
  | .set fd vent => (taskSetFd task fd vent).map fun r => (r.1, .code r.2)

def fdStep (tasks : ℕ → Option TaskStruct) (a : ℕ × FdCall) :
    Option ((ℕ → Option TaskStruct) × FdResult) :=
  (fdCall (tasks a.1) a.2).map fun r => (Function.update tasks a.1 r.1, r.2)

def fdNext (tasks : ℕ → Option TaskStruct) (a : ℕ × FdCall) : Option (ℕ → Option TaskStruct) :=
  (fdStep tasks a).map Prod.fst

def numReserved : ℕ := 3

def TaskStruct.fdMap (t : TaskStruct) (fd : ℤ) : Option (Option ℕ) :=
  if 0 ≤ fd ∧ fd < maxNumFiles ∧ (t.files fd.toNat).inuse then some (t.files fd.toNat).vent
    else none

def AllocatableFd (m : ℤ → Option (Option ℕ)) (fd : ℤ) : Prop :=
  numReserved ≤ fd ∧ fd < maxNumFiles ∧ m fd = none

/-- What a call makes of the map `m`, and what it returns. -/
def FdLaw (m m' : ℤ → Option (Option ℕ)) (r : FdResult) : FdCall → Prop
  | .lookup fd => m' = m ∧ r = .vent (m fd).join
  | .free fd => if m fd = none then m' = m ∧ r = .code (-1)
      else m' = Function.update m fd none ∧ r = .code 0
  | .set fd vent =>
    if m fd = none then m' = m ∧ r = .code (-1) else m' = Function.update m fd (some vent) ∧ r = .code 0
  | .alloc vent =>
    (∃ fd, AllocatableFd m fd ∧ (∀ x, AllocatableFd m x → fd ≤ x) ∧
      m' = Function.update m fd (some vent) ∧
      r = .code fd) ∨ ((∀ x, ¬ AllocatableFd m x) ∧ m' = m ∧ r = .code (-1))

def FdCall.slot (r : FdResult) : FdCall → FdResult
  | .alloc _ => r
  | .free fd | .lookup fd | .set fd _ => .code fd

/-- The call follows the law, and nothing else of the task has changed. -/
structure FdLawful (t t' : TaskStruct) (r : FdResult) (c : FdCall) : Prop where
  law : FdLaw t.fdMap t'.fdMap r c
  workDir : t'.workDir = t.workDir
  slots : ∀ i : ℕ, c.slot r ≠ .code i → t'.files i = t.files i

def FdCall.failure : FdCall → FdResult
  | .lookup _ => .vent none
  | _ => .code (-1)

/-- The call of a task returns, and is lawful for this task and of no effect on the others. -/
def FdIsolated (tasks : ℕ → Option TaskStruct) (pid : ℕ) (c : FdCall) : Prop :=
  ∃ tasks' r, fdStep tasks (pid, c) = some (tasks', r) ∧ (∀ p, p ≠ pid → tasks' p = tasks p) ∧
    match tasks pid with
    | none => tasks' pid = none ∧ r = c.failure
    | some t => ∃ t', tasks' pid = some t' ∧ FdLawful t t' r c

def ReservedInUse (tasks : ℕ → Option TaskStruct) : Prop :=
  ∀ pid t, tasks pid = some t → ∀ i < numReserved, (t.files i).inuse

/-- No descriptor is negative, and those of the standard streams are not freed. -/
def FdInTable (_ : ℕ → Option TaskStruct) (a : ℕ × FdCall) : Prop :=
  match a.2 with
  | .alloc _ => True
  | .free fd => numReserved ≤ fd
  | .lookup fd | .set fd _ => 0 ≤ fd

instance FdInTable.decidable (tasks : ℕ → Option TaskStruct) :
    (a : ℕ × FdCall) → Decidable (FdInTable tasks a)
  | (_, .alloc _) => isTrue trivial
  | (_, .free fd) => inferInstanceAs (Decidable (numReserved ≤ fd))
  | (_, .lookup fd) | (_, .set fd _) => inferInstanceAs (Decidable (0 ≤ fd))

end Toddler
