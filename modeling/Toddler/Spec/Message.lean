import Toddler.Lib.ByteMem

/-! IPC messages in memory: `msg_t` (`common/include/ipc.h`), the functions of `libsys/ipc.c` that
fill and read one, and `copy_msg` of `kernel/proc/ipc.c`. A message is at the address `b` of its
first word. A panic is `none`. -/

namespace Toddler

/-- The machine: words of 8 or 4 bytes, in either byte order. -/
structure Arch where
  wide : Bool
  big : Bool
  deriving DecidableEq, Repr

namespace Arch

def bytes (A : Arch) : ℕ := if A.wide then 8 else 4

def ulong (A : Arch) : ℕ := 256 ^ A.bytes

def loadWord (A : Arch) (m : ByteMem) (a : ℕ) : ℕ := decodeWord A.big (m.load a A.bytes)

def storeWord (A : Arch) (m : ByteMem) (a v : ℕ) : ByteMem := m.store a (encodeWord A.big A.bytes v)

/-- Bit fields are laid out from the first byte on, so from the highest bit on when that comes
first. -/
def field (A : Arch) (pos width : ℕ) : BitField :=
  ⟨if A.big then 8 * A.bytes - pos - width else pos, width⟩

def paramTypeMap (A : Arch) : BitField := A.field 0 16

def numParams (A : Arch) : BitField := A.field 16 4

def numDataWords (A : Arch) : BitField := A.field 20 12

end Arch

def maxMsgSize : ℕ := 2048

def maxMsgParams : ℕ := 15

def Arch.maxMsgDataWords (A : Arch) : ℕ := maxMsgSize / A.bytes - 3 - maxMsgParams

namespace Message

variable (A : Arch)

def paramAddr (b i : ℕ) : ℕ := b + (3 + i) * A.bytes

def dataAddr (b : ℕ) : ℕ := b + (3 + maxMsgParams) * A.bytes

/-- Memory with the ranges (address and number of bytes) read and written so far. -/
structure Traced where
  mem : ByteMem
  reads : List (ℕ × ℕ)
  writes : List (ℕ × ℕ)

def Traced.start (m : ByteMem) : Traced := ⟨m, [], []⟩

def Traced.read (s : Traced) (a : ℕ) : Traced := { s with reads := (a, A.bytes) :: s.reads }

def Traced.write (s : Traced) (a v : ℕ) : Traced :=
  { s with mem := A.storeWord s.mem a v, writes := (a, A.bytes) :: s.writes }

def Traced.memcpy (s : Traced) (d a n : ℕ) : Traced :=
  ⟨s.mem.memcpy d a n, (a, n) :: s.reads, (d, n) :: s.writes⟩

/-- The loop over the params. The messages are `volatile`, so `num_params` is read in each round. -/
def copyParams (dst src : ℕ) : ℕ → ℕ → Traced → Traced
  | 0, _, s => s
  | fuel + 1, i, s =>
    let num := A.numParams.get (A.loadWord s.mem src)
    let s := s.read A src
    if i < num then
      let param := A.loadWord s.mem (paramAddr A src i)
      copyParams dst src fuel (i + 1) ((s.read A (paramAddr A src i)).write A (paramAddr A dst i) param)
    else s

def copyData (dst src : ℕ) (s : Traced) : Traced :=
  let num := A.numDataWords.get (A.loadWord s.mem src)
  let s := s.read A src
  if num ≠ 0 then
    let num := A.numDataWords.get (A.loadWord s.mem src)
    let s := s.read A src
    s.memcpy (dataAddr A dst) (dataAddr A src) (num * A.bytes)
  else s

/-- `copy_msg` from the message area `src` of the thread `tid` of `pid` to the area `dst`. The loop
over the params has at most 15 rounds. -/
def copyMsg (dst src pid tid : ℕ) (s : Traced) : Traced :=
  let size := A.loadWord s.mem src
  let s := (s.read A src).write A dst size
  let s := (s.write A (dst + A.bytes) pid).write A (dst + 2 * A.bytes) tid
  copyData A dst src (copyParams A dst src 16 0 s)

def setBits (m : ByteMem) (b : ℕ) (f : BitField) (v : ℕ) : ByteMem :=
  A.storeWord m b (f.set (A.loadWord m b) v)

def getBits (m : ByteMem) (b : ℕ) (f : BitField) : ℕ := f.get (A.loadWord m b)

def getEmptyMsg (m : ByteMem) (b : ℕ) : ByteMem := A.storeWord m b 0

def alignUpVsize (vsize align : ℕ) : ℕ :=
  (vsize + (align - 1)) % A.ulong &&& ((A.ulong - 1) ^^^ (align - 1))

def msgAppendParam (m : ByteMem) (b param : ℕ) : Option ByteMem :=
  let num := getBits A m b A.numParams
  if maxMsgParams ≤ num then none
  else some (setBits A (A.storeWord m (paramAddr A b num) param) b A.numParams (num + 1))

def msgAppendInt (m : ByteMem) (b : ℕ) (param : ℤ) : Option ByteMem :=
  msgAppendParam A m b (param % A.ulong).toNat

/-- The last lines of `msg_append_data` and `msg_append_str`. -/
def appendDescriptor (m : ByteMem) (b newDataWords : ℕ) : ByteMem :=
  let num := getBits A m b A.numParams
  let dataWords := getBits A m b A.numDataWords
  let m := A.storeWord m (paramAddr A b num) (dataWords <<< 16 ||| newDataWords)
  let m := setBits A m b A.paramTypeMap (getBits A m b A.paramTypeMap ||| 1 <<< num)
  let m := setBits A m b A.numDataWords (getBits A m b A.numDataWords + newDataWords)
  setBits A m b A.numParams (getBits A m b A.numParams + 1)

/-- `msg_append_data`; `data` are the bytes at the pointer, `none` for `NULL`. -/
def msgAppendData (m : ByteMem) (b : ℕ) (data : Option (List UInt8)) (size : ℕ) : Option ByteMem :=
  let dataWords := getBits A m b A.numDataWords
  let newDataWords := alignUpVsize A size A.bytes / A.bytes
  if maxMsgParams ≤ getBits A m b A.numParams then none
  else if A.maxMsgDataWords < dataWords + newDataWords then none
  else
    let dataStart := dataAddr A b + dataWords * A.bytes
    let m := match data with
      | some bytes => m.store dataStart (bytes.take size)
      | none => m
    some (appendDescriptor A m b newDataWords)

/-- A C string. `strlen` counts in an `int`. -/
structure CStr where
  chars : List UInt8
  noNul : 0 ∉ chars
  short : chars.length < 2 ^ 31

/-- `strncpy` of `libk`, which does not pad with zeros. -/
def strncpy (m : ByteMem) (dest : ℕ) : List UInt8 → ℕ → ByteMem
  | _, 0 => m
  | [], _ + 1 => m.store dest [0]
  | ch :: chars, n + 1 => strncpy (m.store dest [ch]) (dest + 1) chars n

def msgAppendStr (m : ByteMem) (b : ℕ) (str : Option CStr) (size : ℕ) : Option ByteMem :=
  let num := getBits A m b A.numParams
  if maxMsgParams ≤ num then none
  else if str.isNone ∧ size = 0 then
    let m := A.storeWord m (paramAddr A b num) 0
    let m := setBits A m b A.paramTypeMap (getBits A m b A.paramTypeMap ||| 1 <<< num)
    some (setBits A m b A.numParams (num + 1))
  else
    let size := if size = 0 then (str.map fun s => s.chars.length).getD 0 else size
    let dataWords := getBits A m b A.numDataWords
    let newDataWords := alignUpVsize A ((size + 1) % A.ulong) A.bytes / A.bytes
    if A.maxMsgDataWords < dataWords + newDataWords then none
    else
      let dataStart := dataAddr A b + dataWords * A.bytes
      let m := match str with
        | some s => (strncpy m dataStart s.chars ((size + 1) % A.ulong)).store (dataStart + size) [0]
        | none => m
      some (appendDescriptor A m b newDataWords)

def msgAppendParamU64 (m : ByteMem) (b param : ℕ) : Option ByteMem :=
  if A.wide then msgAppendParam A m b param
  else msgAppendData A m b (some (encodeWord A.big 8 param)) 8

def msgGetParam (m : ByteMem) (b idx : ℕ) : Option ℕ :=
  if getBits A m b A.numParams ≤ idx then none
  else if (getBits A m b A.paramTypeMap).testBit idx then none
  else some (A.loadWord m (paramAddr A b idx))

def msgGetInt (m : ByteMem) (b idx : ℕ) : Option ℤ :=
  (msgGetParam A m b idx).map fun param : ℕ => Int.bmod (param : ℤ) (2 ^ 32)

def msgGetData (m : ByteMem) (b idx : ℕ) : Option (Option (ℕ × ℕ)) :=
  if getBits A m b A.numParams ≤ idx then none
  else if ¬ (getBits A m b A.paramTypeMap).testBit idx then none
  else
    let dataWordIdx := A.loadWord m (paramAddr A b idx) >>> 16
    let dataWords := A.loadWord m (paramAddr A b idx) &&& 0xffff
    if dataWords = 0 then some none
    else some (some (dataAddr A b + dataWordIdx * A.bytes, dataWords * A.bytes))

def msgCopyData (m : ByteMem) (b idx size : ℕ) : Option (List UInt8) :=
  if getBits A m b A.numParams ≤ idx then none
  else if ¬ (getBits A m b A.paramTypeMap).testBit idx then none
  else
    let dataWordIdx := A.loadWord m (paramAddr A b idx) >>> 16
    let dataWords := A.loadWord m (paramAddr A b idx) &&& 0xffff
    some (m.load (dataAddr A b + dataWordIdx * A.bytes) (min size (dataWords * A.bytes)))

/-- `msg_get_param_u64`; the 8 bytes of `value` are 0 before the copy. -/
def msgGetParamU64 (m : ByteMem) (b idx : ℕ) : Option ℕ :=
  if A.wide then msgGetParam A m b idx
  else (msgCopyData A m b idx 8).map fun bytes =>
    decodeWord A.big (bytes ++ List.replicate (8 - bytes.length) 0)

def msgSetParam (m : ByteMem) (b idx val : ℕ) : Option ByteMem :=
  if getBits A m b A.numParams ≤ idx then none
  else if (getBits A m b A.paramTypeMap).testBit idx then none
  else some (A.storeWord m (paramAddr A b idx) val)

/-- `1 << idx` for an index that is an `int`; a shift by a negative count is undefined in C, and
`shl` says what it gives. -/
def typeBit (shl : ℤ → ℕ) (idx : ℤ) : ℕ := if idx < 0 then shl idx else 1 <<< idx.toNat

def paramPlace (b : ℕ) (idx : ℤ) : ℤ := b + (3 + idx) * A.bytes

def descriptor (m : ByteMem) (b : ℕ) (idx : ℤ) : ℕ :=
  A.loadWord m (paramPlace A b idx % A.ulong).toNat

def msgParamRange (shl : ℤ → ℕ) (m : ByteMem) (b : ℕ) (idx : ℤ) : Option (ℤ × ℕ) :=
  if (getBits A m b A.numParams : ℤ) ≤ idx then none
  else if getBits A m b A.paramTypeMap &&& typeBit shl idx ≠ 0 then none
  else some (paramPlace A b idx, A.bytes)

def msgDataRange (shl : ℤ → ℕ) (m : ByteMem) (b : ℕ) (idx : ℤ) : Option (Option (ℕ × ℕ)) :=
  if (getBits A m b A.numParams : ℤ) ≤ idx then none
  else if getBits A m b A.paramTypeMap &&& typeBit shl idx = 0 then none
  else
    let dataWordIdx := descriptor A m b idx >>> 16
    let dataWords := descriptor A m b idx &&& 0xffff
    if dataWords = 0 then some none
    else some (some (dataAddr A b + dataWordIdx * A.bytes, dataWords * A.bytes))

def msgCopyRange (shl : ℤ → ℕ) (m : ByteMem) (b : ℕ) (idx : ℤ) (size : ℕ) : Option (ℕ × ℕ) :=
  if (getBits A m b A.numParams : ℤ) ≤ idx then none
  else if getBits A m b A.paramTypeMap &&& typeBit shl idx = 0 then none
  else
    let dataWordIdx := descriptor A m b idx >>> 16
    let dataWords := descriptor A m b idx &&& 0xffff
    some (dataAddr A b + dataWordIdx * A.bytes, min size (dataWords * A.bytes))

inductive MsgArg where
  | param (v : ℕ)
  | int (v : ℤ)
  | u64 (v : ℕ)
  | data (bytes : List UInt8)
  | str (s : CStr) (size : ℕ)

def msgAppend (m : ByteMem) (b : ℕ) : MsgArg → Option ByteMem
  | .param v => msgAppendParam A m b v
  | .int v => msgAppendInt A m b v
  | .u64 v => msgAppendParamU64 A m b v
  | .data bytes => msgAppendData A m b (some bytes) bytes.length
  | .str s size => msgAppendStr A m b (some s) size

def msgAppendAll (b : ℕ) : ByteMem → List MsgArg → Option ByteMem
  | m, [] => some m
  | m, arg :: args => (msgAppend A m b arg).bind fun m => msgAppendAll b m args

/-- The part of a string that `size` selects; 0 selects all of it. -/
def CStr.text (s : CStr) (size : ℕ) : List UInt8 := if size = 0 then s.chars else s.chars.take size

/-- Values of the argument's type, and sizes that are not 0 and do not wrap when rounded. -/
def MsgArg.Valid : MsgArg → Prop
  | .param v => v < A.ulong
  | .int v => -2 ^ 31 ≤ v ∧ v < 2 ^ 31
  | .u64 v => v < 2 ^ 64
  | .data bytes => 0 < bytes.length ∧ bytes.length + (A.bytes - 1) < A.ulong
  | .str s size => (if size = 0 then s.chars.length else size) + 1 + (A.bytes - 1) < A.ulong

instance MsgArg.Valid.decidable (arg : MsgArg) : Decidable (arg.Valid A) := by
  cases arg <;> unfold MsgArg.Valid <;> infer_instance

def PointsTo (m : ByteMem) (b idx : ℕ) (bytes : List UInt8) : Prop :=
  ∃ p n, msgGetData A m b idx = some (some (p, n)) ∧ bytes.length ≤ n ∧
    m.load p bytes.length = bytes

def ReadsBack (m : ByteMem) (b idx : ℕ) : MsgArg → Prop
  | .param v => msgGetParam A m b idx = some v
  | .int v => msgGetInt A m b idx = some v
  | .u64 v => msgGetParamU64 A m b idx = some v
  | .data bytes => PointsTo A m b idx bytes ∧ msgCopyData A m b idx bytes.length = some bytes
  | .str s size => PointsTo A m b idx (s.text size ++ [0])

/-- The ranges that `msg_get_data` returns for two arguments do not meet. -/
def DataDisjoint (m : ByteMem) (b : ℕ) : Prop :=
  ∀ i j p n q k, i ≠ j → msgGetData A m b i = some (some (p, n)) →
    msgGetData A m b j = some (some (q, k)) → NoOverlap p n q k

end Message

end Toddler
