import Mathlib.Logic.Function.Basic
import Mathlib.Tactic

/-! Byte-addressed memory: blocks of bytes, the forward copy loop, words as the bytes of a number in
either order, and bit fields of a word. -/

namespace Toddler

open Function List Nat

abbrev ByteMem := ℕ → UInt8

def NoOverlap (a n b k : ℕ) : Prop := a + n ≤ b ∨ b + k ≤ a

instance NoOverlap.decidable (a n b k : ℕ) : Decidable (NoOverlap a n b k) :=
  inferInstanceAs (Decidable (_ ∨ _))

variable {a n b : ℕ}

theorem NoOverlap.mono {k a' n' b' k' : ℕ} (h : NoOverlap a n b k) (ha : a ≤ a')
    (hn : a' + n' ≤ a + n) (hb : b ≤ b') (hk : b' + k' ≤ b + k) : NoOverlap a' n' b' k' := by
  unfold NoOverlap at *
  omega

namespace ByteMem

def load (m : ByteMem) (a n : ℕ) : List UInt8 := (List.range n).map fun i => m (a + i)

def store (m : ByteMem) (a : ℕ) (bs : List UInt8) : ByteMem := fun x =>
  if a ≤ x then (bs[x - a]?).getD (m x) else m x

@[simp] theorem length_load (m : ByteMem) (a n : ℕ) : (m.load a n).length = n := by
  simp [load]

variable {m : ByteMem}

theorem load_eq_iff {m' : ByteMem} :
    m.load a n = m'.load b n ↔ ∀ i < n, m (a + i) = m' (b + i) := by
  simp [load]

theorem load_add (m : ByteMem) (a n k : ℕ) : m.load a (n + k) = m.load a n ++ m.load (a + n) k := by
  simp [load, range_add, add_assoc]

variable {bs : List UInt8}

theorem store_outside {x : ℕ} (h : x < a ∨ a + bs.length ≤ x) : m.store a bs x = m x := by
  unfold store
  split_ifs with hle
  · rw [getElem?_eq_none (by omega), Option.getD_none]
  · rfl

theorem store_inside {i : ℕ} (h : i < bs.length) : m.store a bs (a + i) = bs[i] := by
  simp [store, h]

theorem load_store (m : ByteMem) (a : ℕ) (bs : List UInt8) :
    (m.store a bs).load a bs.length = bs := by
  refine ext_getElem (by simp) fun i _ hi => ?_
  simp [load, store_inside hi]

theorem load_store_apart (h : NoOverlap a bs.length b n) :
    (m.store a bs).load b n = m.load b n := by
  refine load_eq_iff.mpr fun i hi => store_outside ?_
  unfold NoOverlap at h
  omega

theorem store_cons (m : ByteMem) (a : ℕ) (c : UInt8) (bs : List UInt8) :
    (m.store a [c]).store (a + 1) bs = m.store a (c :: bs) := by
  funext x
  rcases lt_trichotomy x a with h | rfl | h
  · rw [store_outside (.inl (by omega)), store_outside (.inl h), store_outside (.inl h)]
  · rw [store_outside (.inl (by omega))]
    simp [store]
  · obtain ⟨i, rfl⟩ := Nat.exists_eq_add_of_le h
    have : a + 1 + i - a = i + 1 := by omega
    simp [store, this, Nat.le_of_lt h]

theorem store_nil (m : ByteMem) (a : ℕ) : m.store a [] = m := funext fun x =>
    store_outside (by rw [length_nil]; omega)

theorem store_append (m : ByteMem) (a : ℕ) (xs ys : List UInt8) :
    (m.store a xs).store (a + xs.length) ys = m.store a (xs ++ ys) := by
  induction xs generalizing m a with
  | nil =>
    rw [store_nil, length_nil, nil_append, add_zero]
  | cons c xs ih =>
    have hplace : a + (c :: xs).length = a + 1 + xs.length := by rw [length_cons]; omega
    rw [cons_append, ← store_cons m a c xs, ← store_cons m a c (xs ++ ys), hplace, ih]

theorem store_zeros (h : ∀ x, a ≤ x → m x = 0) : m.store a (List.replicate n 0) = m := by
  funext x
  by_cases hx : a ≤ x ∧ x < a + n
  · obtain ⟨i, rfl⟩ := Nat.exists_eq_add_of_le hx.1
    have hi : i < (List.replicate n (0 : UInt8)).length := by rw [length_replicate]; omega
    rw [store_inside hi, getElem_replicate, h _ hx.1]
  · exact store_outside (by rw [length_replicate]; omega)

theorem store_self {v : UInt8} (h : m a = v) : m.store a [v] = m := by
  funext x
  by_cases hx : x = a
  · rw [hx, ← h]
    simp [store]
  · exact store_outside (by simp only [length_singleton]; omega)

theorem load_middle {xs ys zs : List UInt8} (h : m.load a n = xs ++ (ys ++ zs)) :
    m.load (a + xs.length) ys.length = ys := by
  have hn : n = xs.length + (ys.length + zs.length) := by
    rw [← length_load m a n, h, length_append, length_append]
  rw [hn, load_add, load_add] at h
  have htail := (append_inj h (length_load ..)).2
  exact (append_inj htail (length_load ..)).1

theorem load_store_head (m : ByteMem) (a : ℕ) {xs xs' : List UInt8} (ys : List UInt8)
    (h : xs'.length = xs.length) : ((m.store a (xs ++ ys)).store a xs').load a (xs ++ ys).length =
    xs' ++ ys := by
  have hload := load_store m a (xs ++ ys)
  nth_rewrite 3 [← append_nil ys] at hload
  have htail := load_middle hload
  rw [length_append, ← h, load_add, load_store, load_store_apart (.inl le_rfl), h, htail]

/-- Copies `n` bytes from `s` to `d`, one after another from the first on. -/
def memcpy (m : ByteMem) (d s : ℕ) : ℕ → ByteMem
  | 0 => m
  | n + 1 => update (memcpy m d s n) (d + n) (memcpy m d s n (s + n))

variable {d s : ℕ}

theorem memcpy_outside {x : ℕ} (h : x < d ∨ d + n ≤ x) : memcpy m d s n x = m x := by
  induction n with
  | zero => rfl
  | succ n ih => rw [memcpy, update_of_ne (by omega), ih (by omega)]

theorem memcpy_inside {i : ℕ} (h : NoOverlap d n s n) (hi : i < n) :
    memcpy m d s n (d + i) = m (s + i) := by
  unfold NoOverlap at h
  induction n with
  | zero => omega
  | succ n ih =>
    rw [memcpy]
    rcases lt_or_eq_of_le (le_of_lt_succ hi) with hlt | rfl
    · rw [update_of_ne (by omega), ih (by omega) hlt]
    · rw [update_self, memcpy_outside (by omega)]

theorem load_memcpy (h : NoOverlap d n s n) : (memcpy m d s n).load d n = m.load s n :=
  load_eq_iff.mpr fun _ hi => memcpy_inside h hi

end ByteMem

/-- The `n` low bytes of `v`, the lowest first. -/
def toBytes : ℕ → ℕ → List UInt8
  | 0, _ => []
  | n + 1, v => UInt8.ofNat v :: toBytes n (v / 256)

def ofBytes : List UInt8 → ℕ
  | [] => 0
  | b :: bs => b.toNat + 256 * ofBytes bs

@[simp] theorem length_toBytes (n v : ℕ) : (toBytes n v).length = n := by
  induction n generalizing v with
  | zero => rfl
  | succ n ih => simp [toBytes, ih]

theorem ofBytes_toBytes (n v : ℕ) : ofBytes (toBytes n v) = v % 256 ^ n := by
  induction n generalizing v with
  | zero => simp [toBytes, ofBytes, mod_one]
  | succ n ih => rw [toBytes, ofBytes, ih, pow_succ', mod_mul, UInt8.toNat_ofNat']

theorem toBytes_ofBytes : toBytes bs.length (ofBytes bs) = bs := by
  induction bs with
  | nil => rfl
  | cons b bs ih =>
    have hb := b.toNat_lt
    rw [length_cons, ofBytes, toBytes, add_mul_div_left _ _ (by decide), div_eq_of_lt hb, zero_add]
    congr 1
    apply UInt8.toNat_inj.mp
    rw [UInt8.toNat_ofNat']
    omega

theorem ofBytes_lt (bs : List UInt8) : ofBytes bs < 256 ^ bs.length := by
  have h := ofBytes_toBytes bs.length (ofBytes bs)
  rw [toBytes_ofBytes] at h
  exact h ▸ Nat.mod_lt _ (Nat.pow_pos (by decide))

/-- The bytes of a word of `n` bytes in memory, the highest first if `big`. -/
def encodeWord (big : Bool) (n v : ℕ) : List UInt8 := if big then (toBytes n v).reverse
    else toBytes n v

def decodeWord (big : Bool) (bs : List UInt8) : ℕ := ofBytes (if big then bs.reverse else bs)

@[simp] theorem length_encodeWord (big : Bool) (n v : ℕ) : (encodeWord big n v).length = n := by
  unfold encodeWord
  split_ifs <;> simp

theorem decodeWord_encodeWord (big : Bool) (n v : ℕ) :
    decodeWord big (encodeWord big n v) = v % 256 ^ n := by
  unfold decodeWord encodeWord
  split_ifs <;> simp [ofBytes_toBytes]

theorem decodeWord_lt (big : Bool) (bs : List UInt8) : decodeWord big bs < 256 ^ bs.length := by
  unfold decodeWord
  split_ifs
  · simpa using ofBytes_lt bs.reverse
  · exact ofBytes_lt bs

/-- A bit field of a word: the position of its lowest bit and its number of bits. -/
structure BitField where
  shift : ℕ
  width : ℕ
  deriving DecidableEq, Repr

namespace BitField

def get (f : BitField) (w : ℕ) : ℕ := w / 2 ^ f.shift % 2 ^ f.width

def set (f : BitField) (w v : ℕ) : ℕ :=
  w % 2 ^ f.shift + 2 ^ f.shift * (v % 2 ^ f.width + 2 ^ f.width * (w / 2 ^ (f.shift + f.width)))

variable {f g : BitField}

theorem get_lt (f : BitField) (w : ℕ) : f.get w < 2 ^ f.width := Nat.mod_lt _ (Nat.two_pow_pos _)

theorem set_div (w v : ℕ) :
    f.set w v / 2 ^ f.shift = v % 2 ^ f.width + 2 ^ f.width * (w / 2 ^ (f.shift + f.width)) := by
  rw [set, Nat.add_mul_div_left _ _ (Nat.two_pow_pos _),
    Nat.div_eq_of_lt (Nat.mod_lt _ (Nat.two_pow_pos _)), Nat.zero_add]

theorem get_set (f : BitField) (w v : ℕ) : f.get (f.set w v) = v % 2 ^ f.width := by
  rw [get, set_div, Nat.add_mul_mod_self_left, Nat.mod_mod]

theorem get_set_below (w v : ℕ) (h : g.shift + g.width ≤ f.shift) :
    g.get (f.set w v) = g.get w := by
  have hmod : f.set w v % 2 ^ (g.shift + g.width) = w % 2 ^ (g.shift + g.width) := by
    have hdvd : 2 ^ (g.shift + g.width) ∣ 2 ^ f.shift := pow_dvd_pow 2 h
    rw [set, add_mod, mod_eq_zero_of_dvd (hdvd.mul_right _), add_zero, mod_mod, mod_mod_of_dvd _ hdvd]
  have hget x : g.get x = x % 2 ^ (g.shift + g.width) / 2 ^ g.shift := by
    rw [get, pow_add, mod_mul_right_div_self]
  rw [hget, hget, hmod]

theorem get_set_above (w v : ℕ) (h : f.shift + f.width ≤ g.shift) :
    g.get (f.set w v) = g.get w := by
  have hdiv : f.set w v / 2 ^ (f.shift + f.width) = w / 2 ^ (f.shift + f.width) := by
    rw [pow_add, ← Nat.div_div_eq_div_mul, set_div, Nat.add_mul_div_left _ _ (Nat.two_pow_pos _),
      Nat.div_eq_of_lt (Nat.mod_lt _ (Nat.two_pow_pos _)), Nat.zero_add, pow_add]
  obtain ⟨k, hk⟩ := Nat.exists_eq_add_of_le h
  rw [get, get, hk, pow_add, ← Nat.div_div_eq_div_mul, ← Nat.div_div_eq_div_mul, hdiv]

theorem set_lt {w : ℕ} (v : ℕ) (h : f.shift + f.width ≤ n) (hw : w < 2 ^ n) :
    f.set w v < 2 ^ n := by
  obtain ⟨k, rfl⟩ := Nat.exists_eq_add_of_le h
  have hq : w / 2 ^ (f.shift + f.width) < 2 ^ k := by
    rw [Nat.div_lt_iff_lt_mul (Nat.two_pow_pos _), ← pow_add, Nat.add_comm k]
    exact hw
  calc w % 2 ^ f.shift + 2 ^ f.shift *
    (v % 2 ^ f.width + 2 ^ f.width * (w / 2 ^ (f.shift + f.width)))
      < 2 ^ f.shift * (1 + (v % 2 ^ f.width + 2 ^ f.width * (w / 2 ^ (f.shift + f.width)))) := by
        rw [mul_add _ 1]
        omega
    _ ≤ 2 ^ f.shift * (2 ^ f.width * (1 + w / 2 ^ (f.shift + f.width))) := by
        refine mul_le_mul_left _ ?_
        rw [mul_add _ 1]
        omega
    _ ≤ 2 ^ f.shift * (2 ^ f.width * 2 ^ k) := by
        refine mul_le_mul_left _ (mul_le_mul_left _ ?_)
        omega
    _ = 2 ^ (f.shift + f.width + k) := by rw [pow_add, pow_add, mul_assoc]

end BitField

end Toddler
