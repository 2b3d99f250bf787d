import Toddler.Lib.Run
import Mathlib.Data.Fintype.Card

/-! `barrier_wait` of `kernel/atomic/barrier.c` and of `libc/kth/barrier.c`: both make the same
loads, stores and atomic operations in the same order. A step is one of them by one of the
participants `ι`. The record of a round is the variable `local` on the stack of a participant, so a
pointer to a record is a participant. -/

namespace Toddler.Barrier

open Function

structure LocalBarrier where
  count : ℕ
  release : Bool
  deriving DecidableEq, Repr

/-- The place in `barrier_wait`, with `my_local` and `first` from the CAS on. -/
inductive Pc (ι : Type)
  | outside
  | start
  | clearRelease
  | clearCount
  | cas
  | inc (myLocal : ι) (first : Bool)
  | waitCount (myLocal : ι)
  | unpublish (myLocal : ι)
  | setRelease (myLocal : ι)
  | drain (myLocal : ι)
  | waitRelease (myLocal : ι)
  | dec (myLocal : ι)
  deriving DecidableEq, Repr

/-- `barrier->local`, the stack record of each participant and its place. `entered` and `returned`
are history: the calls of each participant that have begun and that have returned. -/
structure State (ι : Type) where
  published : Option ι
  record : ι → LocalBarrier
  pc : ι → Pc ι
  entered : ι → ℕ
  returned : ι → ℕ

inductive Action (ι : Type)
  | call (i : ι)
  | step (i : ι)
  deriving DecidableEq, Repr

variable {ι : Type}

def State.init (record : ι → LocalBarrier) : State ι :=
  ⟨none, record, fun _ => .outside, fun _ => 0, fun _ => 0⟩

variable [DecidableEq ι]

def State.setPc (s : State ι) (i : ι) (pc : Pc ι) : State ι := { s with pc := update s.pc i pc }

def State.setRecord (s : State ι) (f : ι) (r : LocalBarrier) : State ι :=
  { s with record := update s.record f r }

def State.leave (s : State ι) (i : ι) : State ι :=
  { s.setPc i .outside with returned := update s.returned i (s.returned i + 1) }

def barrierWait (total : ℕ) (s : State ι) (i : ι) : Pc ι → Option (State ι)
  | .outside => none
  | .start => some (if total ≤ 1 then s.leave i else s.setPc i .clearRelease)
  | .clearRelease => some ((s.setRecord i { s.record i with release := false }).setPc i .clearCount)
  | .clearCount => some ((s.setRecord i { s.record i with count := 0 }).setPc i .cas)
  | .cas =>
    match s.published with
    | none => some ({ s with published := some i }.setPc i (.inc i true))
    | some otherLocal => some (s.setPc i (.inc otherLocal false))
  | .inc myLocal first =>
    some ((s.setRecord myLocal { s.record myLocal with count := (s.record myLocal).count + 1 }).setPc i
      (if first then .waitCount myLocal else .waitRelease myLocal))
  | .waitCount myLocal => some (if (s.record myLocal).count ≠ total then s
      else s.setPc i (.unpublish myLocal))
  | .unpublish myLocal => some ({ s with published := none }.setPc i (.setRelease myLocal))
  | .setRelease myLocal =>
    some ((s.setRecord myLocal { s.record myLocal with release := true }).setPc i (.drain myLocal))
  | .drain myLocal => some (if (s.record myLocal).count ≠ 1 then s else s.leave i)
  | .waitRelease myLocal => some (if (s.record myLocal).release then s.setPc i (.dec myLocal) else s)
  | .dec myLocal =>
    some ((s.setRecord myLocal { s.record myLocal with count := (s.record myLocal).count - 1 }).leave i)

def step (total : ℕ) (s : State ι) : Action ι → Option (State ι)
  | .call i =>
    if s.pc i = .outside then
      some { s.setPc i .start with entered := update s.entered i (s.entered i + 1) }
    else none
  | .step i => barrierWait total s i (s.pc i)

/-- The record that the next step of participant `i` reads or writes. -/
def Pc.touches (i : ι) : Pc ι → Option ι
  | .clearRelease | .clearCount => some i
  | .inc f _ | .waitCount f | .setRelease f | .drain f | .waitRelease f | .dec f => some f
  | .outside | .start | .cas | .unpublish _ => none

/-- Who has returned from a call has been joined by all others in it, and a record is accessed only
while its owner is in the same call as the participant that accesses it. -/
structure RoundsSeparate (s : State ι) : Prop where
  together : ∀ i j, s.returned i ≤ s.entered j
  alive : ∀ i f, (s.pc i).touches i = some f → s.pc f ≠ .outside ∧ s.entered f = s.entered i

end Toddler.Barrier
