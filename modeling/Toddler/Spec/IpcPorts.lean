import Toddler.Spec.Malloc

/-! The port table of a process (`libc/sys/ipc.c`) on amd64. A handler is its address, and 0 is
`NULL`. The table is the words of a block of the heap; what `malloc` returns comes with the words
that the memory holds, and `calloc` does not clear them. An access through a null pointer is
`none`. -/

namespace Toddler

open Function Malloc

def globalMsgPort : ℕ := 0xffff

def defaultNumHandlers : ℕ := 256

/-- `handlers`: the words of the payload, of a block of the bucket `bucket`. `latest` is history:
the last handler registered for each port, and 0 before that. -/
structure PortTable where
  numHandlers : ℕ
  handlers : Option (ℕ → ℕ)
  bucket : ℕ
  globalHandler : ℕ
  latest : ℕ → ℕ

def PortTable.init : PortTable := ⟨0, none, 0, 0, fun _ => 0⟩

namespace PortTable

def mallocTable (s : PortTable) (count : ℕ) (payload : Option (ℕ → ℕ)) : PortTable :=
  match findBucket (8 * count + sizeofMagic) with
  | none => { s with handlers := none }
  | some i => { s with handlers := payload, bucket := i }

def copiedWords (i count : ℕ) : ℕ := min ((blockSize i - sizeofMagic) / 8) count

def reallocTable (s : PortTable) (old : ℕ → ℕ) (count : ℕ) (payload : Option (ℕ → ℕ)) : PortTable :=
  if Heap.staysInPlace s.bucket (8 * count) then s
  else s.mallocTable count (payload.map fun new i => if i < copiedWords s.bucket count then old i
    else new i)

def initHandlers (s : PortTable) (count : ℕ) (payload : Option (ℕ → ℕ)) : PortTable :=
  let s :=
    match s.handlers with
    | some old => s.reallocTable old count payload
    | none => s.mallocTable count payload
  { s with numHandlers := count }

/-- `update_handler`; `first` and `grown` are what `malloc` returns for the default table and for a
larger one. -/
def updateHandler (s : PortTable) (port handler : ℕ) (first grown : Option (ℕ → ℕ)) :
    Option PortTable :=
  let s := if s.numHandlers = 0 then s.initHandlers defaultNumHandlers first else s
  if port = globalMsgPort then some { s with globalHandler := handler }
  else
    let s := if s.numHandlers ≤ port then s.initHandlers (port + 1) grown else s
    s.handlers.map fun table => { s with handlers := some (update table port handler) }

def findHandler (s : PortTable) (port : ℕ) : Option ℕ :=
  if s.numHandlers = 0 then some 0
  else if port = globalMsgPort then some s.globalHandler
  else if port < s.numHandlers then s.handlers.map fun table => table port
  else some 0

end PortTable

/-- `register_msg_handler`, and with the handler 0 `cancel_msg_handler`. -/
structure PortCall where
  port : ℕ
  handler : ℕ
  first : Option (ℕ → ℕ)
  grown : Option (ℕ → ℕ)

def portStep (s : PortTable) (a : PortCall) : Option PortTable :=
  if globalMsgPort < a.port then some s
  else (s.updateHandler a.port a.handler a.first a.grown).map fun s =>
    { s with latest := update s.latest a.port a.handler }

/-- `malloc` does not fail, and the memory that it returns is zero. -/
def ZeroHeap (_ : PortTable) (a : PortCall) : Prop :=
  a.first = some (fun _ => 0) ∧ a.grown = some fun _ => 0

end Toddler
