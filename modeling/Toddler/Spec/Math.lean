import Mathlib.Data.BitVec

/-! Software multiplication and division (`libk/lib/math.c`, with `clz32` and `clz64` of
`libk/lib/bit.c`) and `align_up_ulong_any` and `align_down_ulong_any` (`libk/include/align.h`),
where `w` is the width of an `ulong`. What C leaves undefined and a panic are `none`, except for the
shifts of `0x1u`. -/

namespace Toddler

variable {w : ℕ} (beyond : ℕ → BitVec 32)

/-- `0x1u << i` as an operand of `w` bits. A shift by 32 or more is undefined, and `beyond` is what
it gives. -/
def oneShl (w i : ℕ) : BitVec w := (if i < 32 then 1#32 <<< i else beyond i).setWidth w

/-- The first `i` rounds of `mul_u32` and `mul_u64`. -/
def mulLoop (a b : BitVec w) : ℕ → BitVec w
  | 0 => 0
  | i + 1 => if b &&& oneShl beyond w i ≠ 0 then mulLoop a b i + a <<< i else mulLoop a b i

/-- `mul_u32` and `mul_u64`. -/
def mulU (a b : BitVec w) : BitVec w := mulLoop beyond a b w

/-- `mul_s32` and `mul_s64`. -/
def mulS (a b : BitVec w) : BitVec w :=
  let ua := if a.msb then ~~~a + 1#w else a
  let ub := if b.msb then ~~~b + 1#w else b
  let um := mulU beyond ua ub
  -- `negs == 1`
  if a.msb ≠ b.msb then ~~~um + 1#w else um

def clzLoop : ℕ → BitVec w → ℕ
  | 0, _ => 0
  | i + 1, val => if val >>> (w - 1) = 0 then clzLoop i (val <<< 1) + 1 else 0

/-- The rounds of `div_u32` and `div_u64` for the shifts below `i`. -/
def divLoop (b : BitVec w) : ℕ → BitVec w → BitVec w → BitVec w × BitVec w
  | 0, q, r => (q, r)
  | i + 1, q, r =>
    let t := b <<< i
    if t ≤ r then divLoop b i (q ||| oneShl beyond w i) (r - t) else divLoop b i q r

/-- `div_u32` and `div_u64`: the quotient and the remainder. A divisor of 0 is shifted by `w`. -/
def divU (a b : BitVec w) : Option (BitVec w × BitVec w) :=
  if b = 0 then none else some (divLoop beyond b (clzLoop w b + 1) 0 a)

/-- `div_s32` and `div_s64`, whose temporaries are `u32` both. `a` and `b` have `w` bits, and so
have the results. -/
def divS (extend : BitVec 32 → BitVec w) (a b : BitVec w) : Option (BitVec w × BitVec w) := do
  let ua := if a.msb then ~~~a.setWidth 32 + 1#32 else a.setWidth 32
  let ub := if b.msb then ~~~b.setWidth 32 + 1#32 else b.setWidth 32
  let (uq, ur) ← divU beyond ua ub
  let (uq, ur) :=
    if a.msb ∧ b.msb then (uq, ~~~ur + 1#32)
    else if b.msb then (~~~uq + 1#32, ur)
    else if a.msb ∧ ur ≠ 0 then (~~~(uq + 1#32) + 1#32, ~~~ur + 1#32 + ub)
    else (uq, ur)
  some (extend uq, extend ur)

def divS32 (a b : BitVec 32) : Option (BitVec 32 × BitVec 32) := divS beyond id a b

/-- The results are converted from `u32`. -/
def divS64 (a b : BitVec 64) : Option (BitVec 64 × BitVec 64) :=
  divS beyond (BitVec.setWidth 64) a b

def alignUpUlongAny (val align : BitVec w) : Option (BitVec w) :=
  if align = 0 then none
  else (divU beyond val align).map fun d => if d.2 ≠ 0 then mulU beyond (d.1 + 1) align else val

def alignDownUlongAny (val align : BitVec w) : Option (BitVec w) :=
  if align = 0 then none
  else (divU beyond val align).map fun d => if d.2 ≠ 0 then mulU beyond d.1 align else val

/-- The division law for signed operands. -/
def DivLaw (a b : BitVec w) (d : Option (BitVec w × BitVec w)) : Prop :=
  ∃ q r, d = some (q, r) ∧ a.toInt = q.toInt * b.toInt + r.toInt ∧ |r.toInt| < |b.toInt|

/-- The lower half of `|a|`, which is what `div_s64` keeps of it. -/
def lowAbs (a : BitVec 64) : ℕ := a.toInt.natAbs % 2 ^ 32

def highAbs (a : BitVec 64) : ℕ := a.toInt.natAbs / 2 ^ 32

/-- The operands that `div_s32` divides rightly: an exact quotient that should be negative keeps the
sign of the absolute values, which makes no difference to the least number alone. -/
def DivS32Exact (a b : BitVec 32) : Prop :=
  (a.toInt < 0 ∧ 0 < b.toInt ∧ b.toInt ∣ a.toInt) → a = BitVec.intMin 32 ∧ b = 1

/-- The operands that `div_s64` divides rightly: the quotient of the lower halves makes up for the
upper ones. -/
def DivS64Exact (a b : BitVec 64) : Prop :=
  lowAbs b ≠ 0 ∧
    if a.msb then
      b.msb ∧ highAbs a + (if lowAbs a % lowAbs b = 0 then 0 else 1) = lowAbs a / lowAbs b * highAbs b
    else if b.msb then a.toInt.natAbs < lowAbs b
    else highAbs a = lowAbs a / lowAbs b * highAbs b

end Toddler
