import Toddler.Spec.Tlb

/-! The shootdown queue of `kernel/proc/tlb.c`, shared by all processes, on `n` CPUs. A traversal of
the locked request list is one step, and so is a flush. Blocks are of any type: a block is an
address here, which may be requested again once it has left the queue. -/

namespace Toddler

open Function

/-- A block on `tlb_shootdown_reqs`. History: `ackedBy` are the CPUs that decremented `wait_acks`,
and `invalidatedBy` those that invalidated its range or flushed since it was queued. -/
structure ShootReq (n : ℕ) (β : Type) where
  block : β
  waitAcks : ℤ
  seq : ℕ
  ackedBy : List (Fin n)
  invalidatedBy : List (Fin n)
  deriving DecidableEq, Repr

/-- `startSeq` is what `get_my_cpu_seq` returned at the CPU's last call of the service routine.
History: `requested` are the blocks in the order of their requests, `moved` those that went to
`sanit_unmapped`. -/
structure Shootdown (n : ℕ) (β : Type) where
  reqs : List (ShootReq n β)
  seq : ℕ
  localSeq : Fin n → ℕ
  startSeq : Fin n → ℕ
  point : Fin n → ServicePoint
  requested : List β
  moved : List (ShootReq n β)

variable {n : ℕ} {β : Type}

def initShootdown : Shootdown n β where
  reqs := []
  seq := 1
  localSeq := fun _ => 0
  startSeq := fun _ => 0
  point := fun _ => .outside
  requested := []
  moved := []

/-- `request_tlb_shootdown` on `cpu`; the block's list node must be free. -/
def requestShootdown [DecidableEq β] (s : Shootdown n β) (cpu : Fin n) (b : β) :
    Option (Shootdown n β) :=
  if n ≤ 1 then some { s with
    requested := s.requested ++ [b]
    moved := s.moved ++ [⟨b, 0, 0, [], [cpu]⟩] }
  else if b ∈ s.reqs.map ShootReq.block then none
  else some { s with
    reqs := s.reqs ++ [⟨b, n, s.seq, [], []⟩]
    seq := add64 s.seq 1
    requested := s.requested ++ [b] }

/-- What the first traversal does to a request that it acknowledges. -/
def ShootReq.ack (hasAsid : Bool) (cpu : Fin n) (r : ShootReq n β) : ShootReq n β :=
  { r with
    waitAcks := r.waitAcks - 1
    ackedBy := cpu :: r.ackedBy
    invalidatedBy := if hasAsid then cpu :: r.invalidatedBy else r.invalidatedBy }

/-- The first traversal of `service_tlb_shootdown_requests`, from `my_seq`. -/
def ackReqs (hasAsid : Bool) (cpu : Fin n) (mySeq : ℕ) :
    List (ShootReq n β) → ℕ × List (ShootReq n β)
  | [] => (mySeq, [])
  | r :: rs =>
    if mySeq < r.seq then
      let next := ackReqs hasAsid cpu r.seq rs
      (next.1, r.ack hasAsid cpu :: next.2)
    else
      let next := ackReqs hasAsid cpu mySeq rs
      (next.1, r :: next.2)

def popReqs : List (ShootReq n β) → List (ShootReq n β) × List (ShootReq n β)
  | [] => ([], [])
  | r :: rs =>
    if r.waitAcks ≠ 0 then ([], r :: rs)
    else
      let next := popReqs rs
      (r :: next.1, next.2)

def ShootReq.flush (cpu : Fin n) (r : ShootReq n β) : ShootReq n β :=
  { r with invalidatedBy := cpu :: r.invalidatedBy }

inductive ShootdownAction (n : ℕ) (β : Type)
  | request (cpu : Fin n) (b : β)
  | serviceAcks (cpu : Fin n)
  | serviceFlush (cpu : Fin n)
  | servicePop (cpu : Fin n)
  deriving DecidableEq, Repr

def shootdownStep [DecidableEq β] (hasAsid : Bool) (s : Shootdown n β) :
    ShootdownAction n β → Option (Shootdown n β)
  | .request cpu b => requestShootdown s cpu b
  | .serviceAcks cpu =>
    if s.point cpu = .outside then
      let r := ackReqs hasAsid cpu (s.localSeq cpu) s.reqs
      some { s with
        reqs := r.2
        localSeq := update s.localSeq cpu r.1
        startSeq := update s.startSeq cpu (s.localSeq cpu)
        point := update s.point cpu (if hasAsid then .pop else .flush) }
    else none
  | .serviceFlush cpu =>
    if s.point cpu = .flush then
      some { s with
        reqs := s.reqs.map (ShootReq.flush cpu)
        point := update s.point cpu .pop }
    else none
  | .servicePop cpu =>
    if s.point cpu = .pop then
      let r := popReqs s.reqs
      some { s with
        reqs := r.2
        moved := s.moved ++ r.1
        point := update s.point cpu .outside }
    else none

/-- Each queued block waits for the CPUs whose sequence number is below its own, and the queue is
strictly increasing. -/
structure AckCounted (s : Shootdown n β) : Prop where
  count : ∀ r ∈ s.reqs, r.waitAcks = (Finset.univ.filter fun c => s.localSeq c < r.seq).card
  increasing : s.reqs.Pairwise fun a b => a.seq < b.seq

/-- The blocks that were moved are the first ones requested, in that order, and all CPUs have
acknowledged them. -/
structure MovedInOrder (s : Shootdown n β) : Prop where
  order : s.moved.map ShootReq.block <+: s.requested
  acked : ∀ r ∈ s.moved, ∀ c, c ∈ r.ackedBy

/-- The counter has not come back to 0 when a request takes its number. -/
def SeqNotWrapped (s : Shootdown n β) : ShootdownAction n β → Prop
  | .request _ _ => s.seq ≠ 0
  | _ => True

instance SeqNotWrapped.decidable (s : Shootdown n β) (a : ShootdownAction n β) :
    Decidable (SeqNotWrapped s a) := by
  cases a <;> unfold SeqNotWrapped <;> infer_instance

/-- Every CPU has invalidated a block after it was queued and before it was moved. -/
def MovedInvalidated (s : Shootdown n β) : Prop := ∀ r ∈ s.moved, ∀ c, c ∈ r.invalidatedBy

/-- Without ASIDs, no CPU removes requests while a CPU that is about to flush has acknowledged, in
the same call, a request that waits for nobody any more. -/
def FlushedBeforePop (hasAsid : Bool) (s : Shootdown n β) : ShootdownAction n β → Prop
  | .servicePop _ => hasAsid = true ∨
      ∀ r ∈ s.reqs, r.waitAcks = 0 → ∀ c, s.point c = .flush → r.seq ≤ s.startSeq c
  | _ => True

instance FlushedBeforePop.decidable (hasAsid : Bool) (s : Shootdown n β) (a : ShootdownAction n β) :
    Decidable (FlushedBeforePop hasAsid s a) := by
  cases a <;> unfold FlushedBeforePop <;> infer_instance

end Toddler
