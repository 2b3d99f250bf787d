import Toddler.Lib.Run

/-! The table of user interrupt handlers (`kernel/proc/int.c`), shared by the threads `ι` that
register a handler, take an interrupt or end one. Allocating and freeing an entry are one step each,
under the table's lock; a registration fills its entry outside the lock, one store a step, and an
invocation reads it under the lock, one load a step. The HAL's answer to a registration is a
parameter of its step. Processes are `P`, and a null pointer is `none`. -/

namespace Toddler

def maxNumIntHandlers : ℕ := 32

structure IntHandler (P : Type) where
  valid : Bool := false
  seq : ℕ := 0
  halDev : Option ℕ := none
  proc : Option P := none
  entry : ℕ := 0
  deriving DecidableEq, Repr

structure Registration (P : Type) where
  seq : ℕ
  halDev : ℕ
  proc : P
  entry : ℕ
  deriving DecidableEq, Repr

/-- The points of the four functions. A registration remembers its entry as it was before, and one
that has failed as it was after, too. `invoked` and `ended` are the points after the lock. -/
inductive IntPc (P : Type)
  | idle
  | callHal (seq : ℕ) (proc : P) (entry : ℕ) (before : IntHandler P)
  | free (seq : ℕ) (before : IntHandler P)
  | failed (before after : IntHandler P)
  | setHalDev (r : Registration P)
  | setProc (r : Registration P)
  | setEntry (r : Registration P)
  | countRef (r : Registration P)
  | invokeProc (seq : ℕ)
  | invokeEntry (seq : ℕ) (proc : Option P)
  | invoked (seq : ℕ) (proc : Option P) (entry : ℕ)
  | eoiProc (seq : ℕ)
  | eoiHalDev (seq : ℕ) (proc : Option P)
  | ended (seq : ℕ) (proc : Option P) (halDev : Option ℕ)
  deriving DecidableEq, Repr

/-- `register` stands for `int_handler_register` and `int_handler_register2`, which differ in the
HAL call only. -/
inductive IntAction (ι P : Type)
  | register (t : ι) (proc : P) (entry : ℕ)
  | answer (t : ι) (halDev : Option ℕ)
  | invoke (t : ι) (seq : ℕ)
  | eoi (t : ι) (seq : ℕ)
  | step (t : ι)
  deriving DecidableEq, Repr

/-- `handlers` continues behind the table with what memory holds there. `completed` records the
registrations that have returned their number. -/
structure IntTable (ι P : Type) where
  handlers : ℕ → IntHandler P
  lock : Option ι
  pc : ι → IntPc P
  completed : List (Registration P)

namespace IntTable

variable {ι P : Type}

def init (beyond : ℕ → IntHandler P) : IntTable ι P where
  handlers := fun seq => if seq < maxNumIntHandlers then {} else beyond seq
  lock := none
  pc := fun _ => .idle
  completed := []

/-- The entry that `alloc_int_handler` finds; entry 0 is never used. -/
def findFree (valid : ℕ → Bool) : Option ℕ :=
  (List.range' 1 (maxNumIntHandlers - 1)).find? fun seq => !valid seq

variable [DecidableEq ι]

def goto (s : IntTable ι P) (t : ι) (pc : IntPc P) : IntTable ι P :=
  { s with pc := Function.update s.pc t pc }

def setHandler (s : IntTable ι P) (seq : ℕ) (h : IntHandler P) : IntTable ι P :=
  { s with handlers := Function.update s.handlers seq h }

def register (s : IntTable ι P) (t : ι) (proc : P) (entry : ℕ) : IntTable ι P :=
  match findFree fun seq => (s.handlers seq).valid with
  | none => s
  | some seq =>
    (s.setHandler seq { s.handlers seq with valid := true, seq := seq }).goto t
      (.callHal seq proc entry (s.handlers seq))

/-- One access or one section under the lock, of a thread that is inside a call. -/
def advance (s : IntTable ι P) (t : ι) : Option (IntTable ι P) :=
  match s.pc t with
  | .idle => none
  | .callHal .. => none
  | .free seq before => if s.lock =
      none then some ((s.setHandler seq {}).goto t (.failed before {})) else none
  | .failed _ _ => some (s.goto t .idle)
  | .setHalDev r =>
    some ((s.setHandler r.seq { s.handlers r.seq with halDev := some r.halDev }).goto t (.setProc r))
  | .setProc r => some ((s.setHandler r.seq { s.handlers r.seq with proc := some r.proc }).goto t
      (.setEntry r))
  | .setEntry r => some ((s.setHandler r.seq { s.handlers r.seq with entry := r.entry }).goto t
      (.countRef r))
  | .countRef r => some ({ s with completed := r :: s.completed }.goto t .idle)
  | .invokeProc seq => some (s.goto t (.invokeEntry seq (s.handlers seq).proc))
  | .invokeEntry seq proc =>
    some ({ s with lock := none }.goto t (.invoked seq proc (s.handlers seq).entry))
  | .invoked .. => some (s.goto t .idle)
  | .eoiProc seq => some (s.goto t (.eoiHalDev seq (s.handlers seq).proc))
  | .eoiHalDev seq proc =>
    some ({ s with lock := none }.goto t (.ended seq proc (s.handlers seq).halDev))
  | .ended .. => some (s.goto t .idle)

/-- The start of `int_handler_invoke` and `int_handler_eoi`: the lock is taken and `valid`
tested. -/
def lookup (s : IntTable ι P) (t : ι) (seq : ℕ) (pc : IntPc P) : IntTable ι P :=
  if (s.handlers seq).valid then { s with lock := some t }.goto t pc else s

/-- A number out of range makes `int_handler_invoke` panic; `int_handler_eoi` does not look at
it. -/
def step (s : IntTable ι P) : IntAction ι P → Option (IntTable ι P)
  | .register t proc entry =>
    match s.pc t with
    | .idle => if s.lock = none then some (s.register t proc entry) else none
    | _ => none
  | .answer t halDev =>
    match s.pc t, halDev with
    | .callHal seq proc entry _, some dev => some (s.goto t (.setHalDev ⟨seq, dev, proc, entry⟩))
    | .callHal seq _ _ before, none => some (s.goto t (.free seq before))
    | _, _ => none
  | .invoke t seq =>
    match s.pc t with
    | .idle => if seq < maxNumIntHandlers ∧
        s.lock = none then some (s.lookup t seq (.invokeProc seq)) else none
    | _ => none
  | .eoi t seq =>
    match s.pc t with
    | .idle => if s.lock = none then some (s.lookup t seq (.eoiProc seq)) else none
    | _ => none
  | .step t => s.advance t

end IntTable

end Toddler
