import Toddler.Spec.Message

/-! Messages by slots: what the appends left in a message, in place of its bytes. The bytes of a
data block that nobody wrote are not known. A panic is `none`, and so is a read of such bytes. -/

namespace Toddler

namespace Message

/-- What one append leaves in a message: a value among the params, or bytes in so many data
words. -/
inductive Slot where
  | scalar (v : ℕ)
  | block (bytes : List UInt8) (words : ℕ)
  deriving DecidableEq

def Slot.words : Slot → ℕ
  | .scalar _ => 0
  | .block _ words => words

def Slot.isBlock : Slot → Bool
  | .scalar _ => false
  | .block _ _ => true

/-- The word among the params, for a block that starts at the data word `off`. -/
def Slot.word (off : ℕ) : Slot → ℕ
  | .scalar v => v
  | .block _ words => off <<< 16 ||| words

def offset (slots : List Slot) (i : ℕ) : ℕ := ((slots.take i).map Slot.words).sum

def total (slots : List Slot) : ℕ := offset slots slots.length

end Message

abbrev Slots := List Message.Slot

namespace Slots

variable (A : Arch)

def remainDataSize (msg : Slots) : ℕ := (A.maxMsgDataWords - Message.total msg) * A.bytes

def appendParam (msg : Slots) (param : ℕ) : Option Slots :=
  if maxMsgParams ≤ msg.length then none else some (msg ++ [.scalar param])

def appendInt (msg : Slots) (param : ℤ) : Option Slots := appendParam msg (param % A.ulong).toNat

/-- `msg_append_data`; of the `size` bytes those in `data` are copied, none of them for `NULL`. -/
def appendData (msg : Slots) (data : List UInt8) (size : ℕ) : Option Slots :=
  let newDataWords := Message.alignUpVsize A size A.bytes / A.bytes
  if maxMsgParams ≤ msg.length then none
  else if A.maxMsgDataWords < Message.total msg + newDataWords then none
  else some (msg ++ [.block (data.take size) newDataWords])

def appendStr (msg : Slots) (str : Message.CStr) : Option Slots :=
  let newDataWords := Message.alignUpVsize A ((str.chars.length + 1) % A.ulong) A.bytes / A.bytes
  if maxMsgParams ≤ msg.length then none
  else if A.maxMsgDataWords < Message.total msg + newDataWords then none
  else some (msg ++ [.block (str.chars ++ [0]) newDataWords])

def getParam (msg : Slots) (idx : ℕ) : Option ℕ :=
  match msg[idx]? with
  | some (.scalar param) => some param
  | _ => none

def getInt (msg : Slots) (idx : ℕ) : Option ℤ := (getParam msg idx).map fun param :
    ℕ => Int.bmod (param : ℤ) (2 ^ 32)

def getData (msg : Slots) (idx : ℕ) : Option (List UInt8 × ℕ) :=
  match msg[idx]? with
  | some (.block bytes words) => some (bytes, words * A.bytes)
  | _ => none

def setParam (msg : Slots) (idx val : ℕ) : Option Slots :=
  match msg[idx]? with
  | some (.scalar _) => some (msg.set idx (.scalar val))
  | _ => none

def setInt (msg : Slots) (idx : ℕ) (val : ℤ) : Option Slots :=
  setParam msg idx (val % A.ulong).toNat

/-- The bytes are stored through the pointer that the append of the block `idx` returned. -/
def fill (msg : Slots) (idx : ℕ) (bytes : List UInt8) : Option Slots :=
  match msg[idx]? with
  | some (.block _ words) => if bytes.length ≤ words * A.bytes
      then some (msg.set idx (.block bytes words)) else none
  | _ => none

end Slots

def copyKnown (bytes : List UInt8) (size : ℕ) : Option (List UInt8) :=
  if size ≤ bytes.length then some (bytes.take size) else none

def Arch.ssize (A : Arch) (n : ℕ) : ℤ := Int.bmod n A.ulong

end Toddler
