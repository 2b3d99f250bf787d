import Toddler.Lib.Occurrence

/-! Boot arguments, `loader/firmware/bootarg.c`, with `strstr` and `strpbrk` of `libk/lib/string.c`.
A pointer is an offset into the boot argument string or an address below it, where `NULL` is the
address 0. What a read below the string gives is a parameter: `none` where it faults. -/

namespace Toddler

namespace Bootarg

def nul : Char := '\x00'

/-- A string without its terminating NUL. -/
structure CString where
  chars : List Char
  noNul : nul ∉ chars
  deriving DecidableEq

inductive Ptr where
  | low (addr : ℕ)
  | arg (offset : ℕ)
  deriving DecidableEq, Repr

namespace Ptr

def null : Ptr := .low 0

def add : Ptr → ℕ → Ptr
  | .low a, n => .low (a + n)
  | .arg i, n => .arg (i + n)

/-- The order `>=` of addresses: the string lies above `low`. -/
def ge : Ptr → Ptr → Bool
  | .low a, .low b => b ≤ a
  | .low _, .arg _ => false
  | .arg _, .low _ => true
  | .arg i, .arg j => j ≤ i

end Ptr

def strstrLoop (needle : List Char) : List Char → ℕ → Option ℕ
  | [], _ => none
  | ch :: rest, str =>
    if (ch :: rest).length < needle.length then none
    else if needle.head? = some ch ∧ (ch :: rest).take needle.length = needle then some str
    else strstrLoop needle rest (str + 1)

def strstr (s : List Char) (str : ℕ) (needle : List Char) : Ptr :=
  if needle = [] then .null
  else match strstrLoop needle (s.drop str) str with
    | none => .null
    | some i => .arg i

def strpbrkLoop (str2 : List Char) : List Char → ℕ → Option ℕ
  | [], _ => none
  | ch :: rest, str1 => if ch ∈ str2 then some str1 else strpbrkLoop str2 rest (str1 + 1)

def strpbrk (s : List Char) (str1 : ℕ) (str2 : List Char) : Ptr :=
  match strpbrkLoop str2 (s.drop str1) str1 with
  | none => .null
  | some i => .arg i

def hasSubkey (subkey : Option CString) : Bool :=
  match subkey with
  | none => false
  | some s => s.chars ≠ []

def isTermChar (subkey : Option CString) (ch : Char) : Bool :=
  ch == nul || ch == ' ' || ch == '\t' || (hasSubkey subkey && ch == ';')

def subText (subkey : Option CString) : List Char := (subkey.map CString.chars).getD []

/-- `find_key_end`. Where the subkey is not found at all, `subkey_start` is `NULL` and moves past
the length of the subkey. -/
def findKeyEnd (bootargs key : CString) (subkey : Option CString) : Ptr :=
  match strstr bootargs.chars 0 key.chars with
  | .low _ => .null
  | .arg keyStart =>
    let keyStart := keyStart + key.chars.length
    if hasSubkey subkey then
      let valEnd := strpbrk bootargs.chars keyStart [' ', '\t']
      let subkeyStart := strstr bootargs.chars keyStart (subText subkey)
      if valEnd ≠ .null ∧ subkeyStart.ge valEnd then .null
      else subkeyStart.add (subText subkey).length
    else .arg keyStart

section Reads

variable (low : ℕ → Option Char) (bootargs : CString)

def deref : Ptr → Option Char
  | .low a => low a
  | .arg i => (bootargs.chars ++ [nul])[i]?

def mark (subkey : Option CString) : Char := if hasSubkey subkey then ':' else '='

def bootargsParseData (key : CString) (subkey : Option CString) : Option Ptr := do
  let keyEnd := findKeyEnd bootargs key subkey
  let ch ← deref low bootargs keyEnd
  return if ch = mark subkey then keyEnd.add 1 else .null

/-- The characters at `s` are those of `word`, each in either case, and then a terminator. Reading
stops at the first mismatch. -/
def isWord (subkey : Option CString) (s : Ptr) : List (Char × Char) → Option Bool
  | [] => do return isTermChar subkey (← deref low bootargs s)
  | (upper, lower) :: word => do
    let ch ← deref low bootargs s
    if ch = upper ∨ ch = lower then isWord subkey (s.add 1) word else return false

/-- The words that `bootargs_parse_switch` knows, in its order, and whether they switch on. -/
def switchWords : List (List (Char × Char) × Bool) :=
  [([('T', 't'), ('R', 'r'), ('U', 'u'), ('E', 'e')], true),
    ([('F', 'f'), ('A', 'a'), ('L', 'l'), ('S', 's'), ('E', 'e')], false),
    ([('Y', 'y'), ('E', 'e'), ('S', 's')], true),
    ([('N', 'n'), ('O', 'o')], false),
    ([('1', '1')], true),
    ([('0', '0')], false)]

def parseWords (subkey : Option CString) (s : Ptr) (set nset dflt : ℤ) :
    List (List (Char × Char) × Bool) → Option ℤ
  | [] => some dflt
  | (word, on) :: words => do
    if ← isWord low bootargs subkey s word then return if on then set else nset
    else parseWords subkey s set nset dflt words

def bootargsParseSwitch (key : CString) (subkey : Option CString) (set nset dflt : ℤ) :
    Option ℤ := do
  let s ← bootargsParseData low bootargs key subkey
  if s = .null then
    return if findKeyEnd bootargs key subkey = .null then nset else set
  else parseWords low bootargs subkey s set nset dflt switchWords

end Reads

/-- What a boot argument string in the documented format,
`key1=val1 key2 key3=skey1:sval1;skey2;skey3:sval3 key4=val4 ...`, says of a key or of a subkey. -/
inductive Presence where
  | absent
  | bare
  | valued (place : ℕ)
  deriving DecidableEq, Repr

def isBlank (ch : Char) : Bool := ch == ' ' || ch == '\t'

def isSemicolon (ch : Char) : Bool := ch == ';'

def itemOf (bootargs key : CString) : Option ℕ := labelled isBlank '=' bootargs.chars key.chars

def presence (bootargs key : CString) (subkey : Option CString) : Presence :=
  match itemOf bootargs key with
  | none => .absent
  | some item =>
    let text := fieldAt isBlank bootargs.chars item
    let val := item + key.chars.length + 1
    if hasSubkey subkey then
      let subitems := text.drop (key.chars.length + 1)
      match labelled isSemicolon ':' subitems (subText subkey) with
      | none => .absent
      | some sub =>
        if ':' ∈ fieldAt isSemicolon subitems sub
          then .valued (val + sub + (subText subkey).length + 1) else .bare
    else if '=' ∈ text then .valued val else .bare

end Bootarg

end Toddler
