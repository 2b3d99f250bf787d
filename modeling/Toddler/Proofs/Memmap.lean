import Toddler.Lib.Cover
import Toddler.Lib.Splice
import Toddler.Spec.Memmap

/-! `claim_memmap_region` overwrites the flags of its range pointwise, exactly when the range does
not begin in a gap before an entry it reaches, meet such a gap later, or leave an entry that it
entered in the middle. The loop is followed with the map cut in two at its index. -/

namespace Toddler

open List Option MemmapEntry

/-- The working form of `MemmapOk`: each entry ends before the next begins. -/
structure Tidy (l : List MemmapEntry) : Prop where
  ordered : l.Pairwise fun a b => a.fin ≤ b.start
  pos : ∀ e ∈ l, 0 < e.size
  noWrap : ∀ e ∈ l, e.fin < word

theorem memmapOk_iff_tidy (l : List MemmapEntry) : MemmapOk l ↔ Tidy l := by
  constructor
  · intro h
    refine ⟨?_, h.pos, h.noWrap⟩
    refine (h.sorted.and h.disjoint).imp_of_mem fun {a b} ha hb hab => ?_
    by_contra hlt
    have hpos := h.pos b hb
    refine hab.2 b.start ⟨⟨hab.1, by omega⟩, le_rfl, ?_⟩
    simp only [fin]
    omega
  · intro h
    refine ⟨?_, ?_, h.pos, h.noWrap⟩
    · refine h.ordered.imp fun {a b} hab => ?_
      simp only [fin] at hab
      omega
    · exact h.ordered.imp fun {a b} hab x hx => by omega

variable {l : List MemmapEntry}

theorem Tidy.memmapDisjoint (h : Tidy l) : MemmapDisjoint l := by
  have hok := (memmapOk_iff_tidy l).mpr h
  refine ⟨hok.sorted, hok.disjoint, fun e he => ?_⟩
  have hlt : e.start + e.size < word := hok.noWrap e he
  omega

theorem tidy_nil : Tidy [] := ⟨List.Pairwise.nil, by simp, by simp⟩

theorem tidy_cons {e : MemmapEntry} :
    Tidy (e :: l) ↔ (∀ d ∈ l, e.fin ≤ d.start) ∧ 0 < e.size ∧ e.fin < word ∧ Tidy l := by
  constructor
  · intro h
    have ho := pairwise_cons.mp h.ordered
    exact ⟨ho.1, h.pos e (by simp), h.noWrap e (by simp), ho.2,
      fun d hd => h.pos d (by simp [hd]), fun d hd => h.noWrap d (by simp [hd])⟩
  · rintro ⟨hle, hpos, hwrap, h⟩
    exact ⟨pairwise_cons.mpr ⟨hle, h.ordered⟩, by simpa [hpos] using h.pos, by
      simpa [hwrap] using h.noWrap⟩

theorem flagsAt_cons (e : MemmapEntry) (x : ℕ) : flagsAt (e :: l) x =
      if e.start ≤ x ∧ x < e.start + e.size then some e.flags else flagsAt l x := by
  unfold flagsAt fin
  split_ifs with h
  · simp [h]
  · simp [h]

theorem insertEntry_cut (pre l : List MemmapEntry) (sp : MemmapEntry) (spare : List MemmapEntry) :
    insertEntry ⟨pre ++ l, sp :: spare⟩ pre.length = some ⟨pre ++ l.headD sp :: l, spare⟩ := by
  simp only [insertEntry, length_append, Nat.le_add_right, if_true, getD_cut, insertIdx_cut]

theorem insertEntry_cut_succ (pre l : List MemmapEntry) (e sp : MemmapEntry)
    (spare : List MemmapEntry) : insertEntry ⟨pre ++ e :: l, sp :: spare⟩ (pre.length + 1) =
    some ⟨pre ++ e :: l.headD sp :: l, spare⟩ := by
  simp only [insertEntry, length_append, length_cons, getD_cut_succ, insertIdx_cut_succ]
  rw [if_pos (by omega)]

theorem setEntry_cut (pre l spare : List MemmapEntry) (e : MemmapEntry)
    (f : MemmapEntry → MemmapEntry) : Memmap.setEntry ⟨pre ++ e :: l, spare⟩ pre.length f =
    ⟨pre ++ f e :: l, spare⟩ := by
  simp only [Memmap.setEntry, modify_cut]

theorem setEntry_cut_succ (pre l spare : List MemmapEntry) (d e : MemmapEntry)
    (f : MemmapEntry → MemmapEntry) : Memmap.setEntry ⟨pre ++ d :: e :: l,
    spare⟩ (pre.length + 1) f = ⟨pre ++ d :: f e :: l, spare⟩ := by
  simp only [Memmap.setEntry, modify_cut_succ]

theorem splitEntry_cut (pre l : List MemmapEntry) (e sp : MemmapEntry) (spare : List MemmapEntry)
    {offset : ℕ} (hlt : offset < e.size) (hwrap : e.fin < word) :
    splitEntry ⟨pre ++ e :: l, sp :: spare⟩ pre.length offset = some ⟨pre ++ { e with size := offset } ::
        { e with start := e.start + offset, size := e.size - offset } :: l, spare⟩ := by
  simp only [fin] at hwrap
  simp [splitEntry, if_neg (Nat.not_le.mpr hlt), insertEntry_cut_succ, setEntry_cut_succ,
    setEntry_cut,
    add64_of_lt (show e.start + offset < word by omega),
    sub64_of_le hlt.le (show e.size < word by omega)]

theorem splitEntry2_cut (pre l : List MemmapEntry) (e sp sp' : MemmapEntry)
    (spare : List MemmapEntry) {offset1 offset2 : ℕ} (h12 : offset1 < offset2)
    (hlt : offset2 < e.size) (hwrap : e.fin < word) :
    splitEntry2 ⟨pre ++ e :: l, sp :: sp' :: spare⟩ pre.length offset1 offset2 =
      some ⟨pre ++ { e with size := offset1 } ::
      { e with start := e.start + offset1, size := offset2 - offset1 } ::
        { e with start := e.start + offset2, size := e.size - offset2 } :: l, spare⟩ := by
  simp only [fin] at hwrap
  have hc : ¬ (e.size ≤ offset1 ∨ e.size ≤ offset2 ∨ offset2 ≤ offset1) := by omega
  simp [splitEntry2, if_neg hc, insertEntry_cut_succ, setEntry_cut_succ, setEntry_cut,
    add64_of_lt (show e.start + offset1 < word by omega),
    add64_of_lt (show e.start + offset2 < word by omega),
    sub64_of_le hlt.le (show e.size < word by omega),
    sub64_of_le h12.le (show offset2 < word by omega)]

theorem claimLoop_zero (fin : ℕ) (fuel : ℕ) :
    claimLoop fin type (fuel + 1) m i s 0 = some (m, s, 0) := by
  rw [claimLoop]
  split <;> simp

variable {m m' : Memmap} {i : ℕ}

/-- What the loop makes of the entries from its index on. -/
structure Claimed (rest : List MemmapEntry) (s e : ℕ) (type : ℤ) (out : List MemmapEntry) :
    Prop where
  tidy : Tidy out
  lower : ∀ o ∈ out, s ≤ o.start ∨ ∃ r ∈ rest, r.start ≤ o.start
  flags : ∀ x, flagsAt out x = if s ≤ x ∧ x < e then some type else flagsAt rest x

variable {xs out : List MemmapEntry} {e s : ℕ} {x : MemmapEntry} {type : ℤ}

/-- An entry that ends before the range is kept. -/
theorem Claimed.keep (hx : Tidy (x :: xs)) (hle : x.fin ≤ s) (h : Claimed xs s e type out) :
    Claimed (x :: xs) s e type (x :: out) := by
  obtain ⟨hxs, hpos, hwrap, -⟩ := tidy_cons.mp hx
  refine ⟨tidy_cons.mpr ⟨fun o ho => ?_, hpos, hwrap, h.tidy⟩, ?_, fun y => ?_⟩
  · rcases h.lower o ho with hs | ⟨r, hr, hro⟩
    · omega
    · exact (hxs r hr).trans hro
  · intro o ho
    rcases mem_cons.mp ho with rfl | ho
    · exact .inr ⟨o, by simp, le_rfl⟩
    · rcases h.lower o ho with hs | ⟨r, hr, hro⟩
      · exact .inl hs
      · exact .inr ⟨r, by simp [hr], hro⟩
  · simp only [fin] at hle
    rw [flagsAt_cons, flagsAt_cons, h.flags]
    split_ifs <;> first | rfl | omega

/-- An entry that the range covers from its start to its end is retyped. -/
theorem Claimed.retype (hx : Tidy (x :: xs)) (hle : x.fin ≤ e) (h : Claimed xs x.fin e type out) :
    Claimed (x :: xs) x.start e type ({ x with flags := type } :: out) := by
  obtain ⟨hxs, hpos, hwrap, -⟩ := tidy_cons.mp hx
  have hfin : x.start ≤ x.fin := Nat.le_add_right _ _
  refine ⟨tidy_cons.mpr ⟨fun o ho => ?_, hpos, hwrap, h.tidy⟩, ?_, fun y => ?_⟩
  · rcases h.lower o ho with hs | ⟨r, hr, hro⟩
    · exact hs
    · exact (hxs r hr).trans hro
  · intro o ho
    rcases mem_cons.mp ho with rfl | ho
    · exact .inl le_rfl
    · rcases h.lower o ho with hs | ⟨r, hr, hro⟩
      · exact .inl (by omega)
      · exact .inr ⟨r, by simp [hr], hro⟩
  · simp only [fin] at hle
    simp only [flagsAt_cons, h.flags]
    split_ifs <;> first | rfl | (simp only [fin] at *; omega)

theorem Claimed.insert (tags : ℕ) (h : Tidy xs) (hlt : s < e) (hwrap : e < word)
    (hle : ∀ x ∈ xs, e ≤ x.start) : Claimed xs s e type (⟨s, e - s, type, tags⟩ :: xs) := by
  have hfin : (⟨s, e - s, type, tags⟩ : MemmapEntry).fin = e := by simp only [fin]; omega
  refine ⟨tidy_cons.mpr ⟨by rwa [hfin], by simpa using hlt, by omega, h⟩, ?_, fun x => ?_⟩
  · intro o ho
    rcases mem_cons.mp ho with rfl | ho
    · exact .inl le_rfl
    · exact .inr ⟨o, ho, le_rfl⟩
  · simp only [flagsAt_cons, Nat.add_sub_cancel' hlt.le]

/-- The pieces of an entry in which the range lies. -/
def carved (x : MemmapEntry) (s e : ℕ) (type : ℤ) : List MemmapEntry :=
  (if x.start < s then [{ x with size := s - x.start }] else []) ++
    { x with start := s, size := e - s, flags := type } ::
      if e < x.fin then [{ x with start := e, size := x.fin - e }] else []

section Carved

variable {x o : MemmapEntry} {s e : ℕ} {type : ℤ}

theorem mem_carved (h : o ∈ carved x s e type) :
    (x.start < s ∧ o = { x with size := s - x.start }) ∨
    o = { x with start := s, size := e - s, flags := type } ∨
      (e < x.fin ∧ o = { x with start := e, size := x.fin - e }) := by
  simpa [carved] using h

theorem length_carved_le : (carved x s e type).length ≤ 3 := by
  unfold carved
  split_ifs <;> simp

section

variable (hle : x.start ≤ s) (hse : s < e) (hfin : e ≤ x.fin)
include hle hse hfin

theorem bounds_of_mem_carved (h : o ∈ carved x s e type) : x.start ≤ o.start ∧ o.fin ≤ x.fin := by
  rcases mem_carved h with ⟨hlt, rfl⟩ | rfl | ⟨hlt, rfl⟩ <;> simp only [fin] at * <;> omega

theorem tidy_carved (hwrap : x.fin < word) : Tidy (carved x s e type) := by
  have hf : x.fin = x.start + x.size := rfl
  by_cases h1 : x.start < s <;> by_cases h2 : e < x.start + x.size <;>
    simp [carved, h1, h2, tidy_cons, tidy_nil, fin] <;> omega

theorem flagsAt_carved (xs : List MemmapEntry) (y : ℕ) :
    flagsAt (carved x s e type ++ xs) y = if s ≤ y ∧ y < e then some type
    else flagsAt (x :: xs) y := by
  unfold carved fin at *
  split_ifs <;> simp only [nil_append, cons_append, flagsAt_cons] <;> split_ifs <;>
    first | rfl | omega

end

end Carved

theorem tidy_append {r : List MemmapEntry} (hl : Tidy l) (hr : Tidy r)
    (hlr : ∀ a ∈ l, ∀ b ∈ r, a.fin ≤ b.start) : Tidy (l ++ r) := by
  refine ⟨pairwise_append.mpr ⟨hl.ordered, hr.ordered, hlr⟩, fun e he => ?_, fun e he => ?_⟩
  · exact (mem_append.mp he).elim (hl.pos e) (hr.pos e)
  · exact (mem_append.mp he).elim (hl.noWrap e) (hr.noWrap e)

theorem Claimed.carve (hx : Tidy (x :: xs)) (hle : x.start ≤ s) (hse : s < e) (hfin : e ≤ x.fin) :
    Claimed (x :: xs) s e type (carved x s e type ++ xs) := by
  obtain ⟨hxs, -, hwrap, htidy⟩ := tidy_cons.mp hx
  refine ⟨tidy_append (tidy_carved hle hse hfin hwrap) htidy fun a ha b hb => ?_, fun o ho => ?_,
    flagsAt_carved hle hse hfin xs⟩
  · exact (bounds_of_mem_carved hle hse hfin ha).2.trans (hxs b hb)
  · rcases mem_append.mp ho with ho | ho
    · exact .inr ⟨x, by simp, (bounds_of_mem_carved hle hse hfin ho).1⟩
    · exact .inr ⟨o, by simp [ho], le_rfl⟩

theorem splitEntry_full (h : m.spare = []) (i o : ℕ) : splitEntry m i o = none := by
  simp only [splitEntry, insertEntry, h]
  cases m.entries[i]? <;> simp

theorem splitEntry2_full (h : m.spare.length ≤ 1) (i o1 o2 : ℕ) : splitEntry2 m i o1 o2 = none := by
  obtain ⟨entries, spare⟩ := m
  match spare, h with
  | [], _ => cases entries[i]? <;> simp [splitEntry2, insertEntry]
  | [sp], _ => cases h : entries[i]? <;> simp [splitEntry2, insertEntry, Memmap.setEntry]

/-- The loop at an entry in which the range lies takes the slots for its further pieces, and is
done. -/
theorem claimLoop_carve (type : ℤ) (pre xs spare : List MemmapEntry) (fuel : ℕ)
    (hle : x.start ≤ s) (hse : s < e) (hfin : e ≤ x.fin) (hwrap : x.fin < word) :
    (claimLoop e type (fuel + 2) ⟨pre ++ x :: xs, spare⟩ pre.length s (e - s)).bind
      (claimAppend type) = if (carved x s e type).length ≤ spare.length + 1 then
        some ⟨pre ++ (carved x s e type ++ xs), spare.drop ((carved x s e type).length - 1)⟩
      else none := by
  have hf : x.fin = x.start + x.size := rfl
  have hwrap' := hwrap
  have hne : e - s ≠ 0 := by omega
  rw [claimLoop]
  simp only [getElem?_cut, hne, add64_of_lt hwrap, if_neg (show ¬ e ≤ x.start by omega),
    if_neg (show ¬ s < x.start by omega), carved, hf]
  by_cases hstart : s = x.start
  · subst hstart
    by_cases hwhole : x.size ≤ e - x.start
    · have heq : e = x.start + x.size := by omega
      subst heq
      simp [setEntry_cut, claimLoop_zero, claimAppend]
    · rw [if_neg hwhole, if_pos (show e < x.start + x.size by omega)]
      cases spare with
      | nil => simp [splitEntry_full]
      | cons sp spare =>
        rw [splitEntry_cut pre xs x sp _ (by omega) hwrap']
        simp only [bind_eq_bind, bind_some, setEntry_cut, claimLoop_zero, claimAppend,
          Nat.add_sub_cancel' hse.le]
        simp [show x.size - (e - x.start) = x.start + x.size - e by omega]
  · have hlt : x.start < s := by omega
    rw [if_neg hstart, if_pos (show s < x.start + x.size by omega), if_pos hlt,
      sub64_of_le hle (show s < word by omega)]
    by_cases hend : x.start + x.size ≤ e
    · have heq : e = x.start + x.size := by omega
      subst heq
      cases spare with
      | nil => simp [splitEntry_full]
      | cons sp spare =>
        rw [splitEntry_cut pre xs x sp _ (by omega) hwrap']
        have hsize : x.size - (s - x.start) = x.start + x.size - s := by omega
        simp only [bind_eq_bind, bind_some, setEntry_cut_succ, getElem?_cut_succ, hsize, sub64_self,
          claimLoop_zero, claimAppend, Nat.add_sub_cancel' hle]
        simp
    · rw [if_neg hend, if_pos (show e < x.start + x.size by omega),
        sub64_of_le (by omega) (show e < word by omega)]
      match spare with
      | [] | [sp] => simp [splitEntry2_full]
      | sp :: sp' :: spare =>
        rw [splitEntry2_cut pre xs x sp sp' spare (by omega) (by omega) hwrap']
        simp only [bind_eq_bind, bind_some, setEntry_cut_succ, claimLoop_zero, claimAppend,
          Nat.add_sub_cancel' hle, Nat.add_sub_cancel' (show x.start ≤ e by omega),
          show e - x.start - (s - x.start) = e - s by
          omega, show x.size - (e - x.start) = x.start + x.size - e by omega]
        simp

section Round

variable {pre spare : List MemmapEntry} {fuel z : ℕ}

/-- The loop moves past an entry that ends before the range. -/
theorem claimLoop_past (hs : x.start < s) (hx : x.fin ≤ s) (hse : s < e) (he : e < word)
    (hz : z ≠ 0) : claimLoop e type (fuel + 1) ⟨pre ++ x :: xs, spare⟩ pre.length s z =
      claimLoop e type fuel ⟨(pre ++ [x]) ++ xs, spare⟩ (pre ++ [x]).length s z := by
  simp only [fin] at hx
  simp [claimLoop, hz, show ¬ e ≤ x.start by omega, hs.not_gt, hs.ne',
    add64_of_lt (show x.start + x.size < word by omega), Nat.not_lt.mpr hx]

/-- It retypes an entry at the start of the range that the range covers. -/
theorem claimLoop_whole (hlt : x.start < e) (hx : x.fin ≤ e) (he : e < word) :
    claimLoop e type (fuel + 1) ⟨pre ++ x :: xs, spare⟩ pre.length x.start (e - x.start) =
      claimLoop e type fuel ⟨(pre ++ [{ x with flags := type }]) ++ xs, spare⟩
        (pre ++ [{ x with flags := type }]).length x.fin (e - x.fin) := by
  simp only [fin] at hx ⊢
  rw [claimLoop]
  simp only [getElem?_cut, if_neg (show ¬ e - x.start = 0 by omega), if_neg (Nat.not_le.mpr hlt),
    lt_irrefl, if_false,
    if_true, if_pos (show x.size ≤ e - x.start by omega), setEntry_cut,
    add64_of_lt (show x.start + x.size < word by omega),
    sub64_of_le (show x.size ≤ e - x.start by omega) (show e - x.start < word by omega),
    Nat.sub_sub]
  simp

/-- Before the entries that the range does not reach it needs one slot. -/
theorem claimLoop_insert (hafter : ∀ y ∈ xs.head?, e ≤ y.start) (hz : z ≠ 0) :
    (claimLoop e type (fuel + 2) ⟨pre ++ xs, spare⟩ pre.length s z).bind (claimAppend type) =
      spare.head?.map fun sp => ⟨pre ++ ⟨s, z, type, (xs.headD sp).tags⟩ :: xs, spare.tail⟩ := by
  cases spare with
  | nil => cases xs <;> simp_all [claimLoop, claimAppend, appendEntry, insertEntry]
  | cons sp spare =>
    have hins := insertEntry_cut pre xs sp spare
    cases xs with
    | nil =>
      simp only [append_nil] at hins
      simp [claimLoop, claimAppend, hz, appendEntry, hins, setEntry_cut]
    | cons y ys =>
      rw [claimLoop]
      simp [hz, hafter y rfl, hins, setEntry_cut, claimLoop_zero, claimAppend]

end Round

/-- A first entry that the range comes after, or takes from its start to its end. -/
theorem claimFits_cons_iff {s' : ℕ} (hx : Tidy (x :: xs))
    (hs : x.fin ≤ s ∧ s' = s ∨ x.start = s ∧ s' = x.fin) : ClaimFits (x :: xs) s e ↔
    ClaimFits xs s' e := by
  have hle := (tidy_cons.mp hx).1
  have hfin : x.fin = x.start + x.size := rfl
  constructor
  · refine fun h => ⟨fun d hd h1 h2 => ?_, fun d hd h1 h2 => ?_⟩
    · have := hle d hd
      exact h.noOverrun d (by simp [hd]) (by omega) (by omega)
    · obtain ⟨p, hp, hpd⟩ := h.noGap d (by simp [hd]) (by omega) h2
      rcases mem_cons.mp hp with rfl | hp
      · omega
      · exact ⟨p, hp, hpd⟩
  · refine fun h => ⟨fun d hd h1 h2 => ?_, fun d hd h1 h2 => ?_⟩
    · rcases mem_cons.mp hd with rfl | hd
      · omega
      · have := hle d hd
        exact h.noOverrun d hd (by omega) (by omega)
    · rcases mem_cons.mp hd with rfl | hd
      · omega
      · rcases Nat.eq_or_lt_of_le (hle d hd) with heq | hlt
        · exact ⟨x, by simp, heq⟩
        · obtain ⟨p, hp, hpd⟩ := h.noGap d hd (by omega) h2
          exact ⟨p, by simp [hp], hpd⟩

/-- On a range that fits, the loop and the final append retype exactly the range. The induction is
on the entries from the loop's index on; each round takes one of them. -/
theorem claimLoop_fits (he : e < word) (type : ℤ) (rest : List MemmapEntry) :
    ∀ (pre : List MemmapEntry) (sp sp' : MemmapEntry) (spare : List MemmapEntry) (s fuel : ℕ),
      Tidy rest → s < e → ClaimFits rest s e → rest.length + 2 ≤ fuel →
      ∃ out spare', (claimLoop e type fuel ⟨pre ++ rest, sp :: sp' :: spare⟩ pre.length s (e - s)).bind
        (claimAppend type) = some ⟨pre ++ out, spare'⟩ ∧ Claimed rest s e type out := by
  induction rest with
  | nil =>
    intro pre sp sp' spare s fuel _ hlt _ hfuel
    obtain ⟨fuel, rfl⟩ := Nat.exists_eq_add_of_le' (show 2 ≤ fuel by simpa using hfuel)
    exact ⟨_, _, claimLoop_insert (by simp) (by omega), Claimed.insert sp.tags tidy_nil hlt he (by simp)⟩
  | cons x xs ih =>
    intro pre sp sp' spare s fuel hx hlt hfits hfuel
    obtain ⟨fuel, rfl⟩ := Nat.exists_eq_add_of_le' (show 2 ≤ fuel by simp at hfuel; omega)
    obtain ⟨hxs, hpos, hwrap, htidy⟩ := tidy_cons.mp hx
    have hfin : x.fin = x.start + x.size := rfl
    simp only [length_cons] at hfuel
    by_cases hin : x.start ≤ s ∧ e ≤ x.fin
    · -- the range ends in this entry
      obtain ⟨hle, hend⟩ := hin
      have hroom : (carved x s e type).length ≤ (sp :: sp' :: spare).length + 1 := by
        have := @length_carved_le x s e type
        simp only [length_cons]
        omega
      have hout := claimLoop_carve type pre xs (sp :: sp' :: spare) fuel hle hlt hend hwrap
      rw [if_pos hroom] at hout
      exact ⟨_, _, hout, Claimed.carve hx hle hlt hend⟩
    by_cases hbefore : e ≤ x.start
    · refine ⟨_, _, claimLoop_insert (by simpa using hbefore) (by omega),
        Claimed.insert x.tags hx hlt he ?_⟩
      exact forall_mem_cons.mpr ⟨hbefore, fun d hd => by have := hxs d hd; omega⟩
    by_cases hgap : s < x.start
    · -- no entry ends where this one begins
      obtain ⟨p, hp, hpx⟩ := hfits.noGap x (by simp) hgap (by omega)
      rcases mem_cons.mp hp with rfl | hp
      · omega
      · have := hxs p hp
        simp only [fin] at hpx
        omega
    by_cases hstart : s = x.start
    · -- the range goes on after this entry
      subst hstart
      obtain ⟨out, spare', hout, hcl⟩ := ih (pre ++ [{ x with flags := type }]) sp sp' spare x.fin
        (fuel + 1) htidy (by omega) ((claimFits_cons_iff hx (.inr ⟨rfl, rfl⟩)).mp hfits) (by omega)
      refine ⟨{ x with flags := type } :: out, spare', ?_, hcl.retype hx (by omega)⟩
      rw [claimLoop_whole hlt (by omega) he, hout, append_assoc]
      rfl
    · -- the entry ends before the range
      have hend : x.fin ≤ s := by
        by_contra hlt
        have := hfits.noOverrun x (by simp) (by omega) (by omega)
        omega
      obtain ⟨out, spare', hout, hcl⟩ := ih (pre ++ [x]) sp sp' spare s (fuel + 1) htidy hlt
        ((claimFits_cons_iff hx (.inl ⟨hend, rfl⟩)).mp hfits) (by omega)
      refine ⟨x :: out, spare', ?_, hcl.keep hx hend⟩
      rw [claimLoop_past (by omega) hend hlt he (by omega), hout, append_assoc]
      rfl

theorem mergeLoop_tidy (l : List MemmapEntry) : ∀ e : MemmapEntry, Tidy (e :: l) →
    Tidy (mergeLoop e l).1 ∧ (∀ o ∈ (mergeLoop e l).1, e.start ≤ o.start) ∧
      ∀ x, flagsAt (mergeLoop e l).1 x = flagsAt (e :: l) x := by
  induction l with
  | nil =>
    intro e h
    exact ⟨h, by simp [mergeLoop], fun x => rfl⟩
  | cons next rest ih =>
    intro e h
    obtain ⟨hle, hpos, hwrap, htail⟩ := tidy_cons.mp h
    obtain ⟨hle', hpos', hwrap', hrest⟩ := tidy_cons.mp htail
    have hnext := hle next (by simp)
    simp only [fin] at hwrap' hnext hle'
    rw [mergeLoop, add64_of_lt hwrap]
    by_cases hm : e.start + e.size = next.start ∧ e.flags = next.flags
    · rw [if_pos hm]
      obtain ⟨hstart, hflags⟩ := hm
      simp only [add64_of_lt (show e.size + next.size < word by omega)]
      obtain ⟨ht, hlow, hfl⟩ := ih { e with size := e.size + next.size } (tidy_cons.mpr
        ⟨fun d hd => by have := hle' d hd; simp only [fin]; omega, by simp only; omega,
          by simp only [fin]; omega, hrest⟩)
      refine ⟨ht, hlow, fun x => ?_⟩
      rw [hfl]
      simp only [flagsAt_cons]
      split_ifs <;> first | rfl | omega | rw [hflags]
    · rw [if_neg hm]
      obtain ⟨ht, hlow, hfl⟩ := ih next htail
      refine ⟨tidy_cons.mpr ⟨fun d hd => hnext.trans (hlow d hd), hpos, hwrap, ht⟩, fun o ho => ?_,
        fun x => ?_⟩
      · rcases mem_cons.mp ho with rfl | ho
        · exact le_rfl
        · have := hlow o ho
          omega
      · rw [flagsAt_cons, hfl, ← flagsAt_cons]

theorem cover_entry_cons (e : MemmapEntry) (x : ℕ) : cover start fin (e :: l) x =
      (if e.start ≤ x ∧ x < e.start + e.size then 1 else 0) + cover start fin l x :=
  cover_cons e l x

theorem mergeLoop_cover (l : List MemmapEntry) : ∀ e : MemmapEntry, (∀ d ∈ e :: l, d.fin < word) →
    ∀ x, cover start fin (mergeLoop e l).1 x = cover start fin (e :: l) x := by
  induction l with
  | nil => intro e _ x; rfl
  | cons next rest ih =>
    intro e h x
    have hwrap := h e (by simp)
    have hwrap' := h next (by simp)
    simp only [fin] at hwrap'
    rw [mergeLoop, add64_of_lt hwrap]
    by_cases hm : e.start + e.size = next.start ∧ e.flags = next.flags
    · rw [if_pos hm]
      simp only [add64_of_lt (show e.size + next.size < word by omega)]
      rw [ih]
      · simp only [cover_entry_cons]
        split_ifs <;> omega
      · intro d hd
        rcases mem_cons.mp hd with rfl | hd
        · simp only [fin]
          omega
        · exact h d (by simp [hd])
    · rw [if_neg hm, cover_cons, ih next fun d hd => h d (mem_cons_of_mem _ hd), ← cover_cons]

/-- Some address is covered twice, and no entry wraps. -/
structure Overlapping (l : List MemmapEntry) : Prop where
  noWrap : ∀ d ∈ l, d.fin < word
  twice : ∃ x, 2 ≤ cover start fin l x

theorem Overlapping.merge (h : Overlapping m.entries) :
    ¬ MemmapOk (mergeConsecutiveRegions m).entries := by
  intro hok
  obtain ⟨x, hx⟩ := h.twice
  have hone := (pairwise_apart_iff _).mp hok.disjoint x
  cases hl : m.entries with
  | nil => simp [hl] at hx
  | cons e l =>
    have hnw := h.noWrap
    simp only [mergeConsecutiveRegions, hl, mergeLoop_cover l e (hl ▸ hnw)] at hone
    rw [hl] at hx
    omega

/-- Before a gap the loop inserts empty entries until no slot is left. -/
theorem claimLoop_gap (fin : ℕ) (type : ℤ) (fuel : ℕ) :
    ∀ (pre ys spare : List MemmapEntry) (y : MemmapEntry) (s z : ℕ), s < y.start → y.start < fin →
      s < word → z < word → z ≠ 0 → claimLoop fin type fuel ⟨pre ++ y :: ys, spare⟩ pre.length s z =
      none := by
  induction fuel with
  | zero => intros; rfl
  | succ fuel ih =>
    intro pre ys spare y s z hs hy hsw hzw hz
    rw [claimLoop]
    simp only [getElem?_cut, if_neg hz, if_neg (Nat.not_le.mpr hy), if_pos hs]
    cases spare with
    | nil => rfl
    | cons sp spare =>
      have hz64 : sub64 z 0 = z := sub64_of_le (Nat.zero_le _) hzw
      simp only [insertEntry_cut, bind_eq_bind, bind_some, setEntry_cut,
        sub64_self, add64_of_lt (show s + 0 < word from hsw), hz64]
      have h := ih (pre ++ [⟨s, 0, type, y.tags⟩]) ys spare y s z hs hy hsw hzw hz
      simpa using h

/-- What is left after the entry that the range left is inserted at the address it had entered. -/
theorem claimLoop_overrun {fin : ℕ} {fuel : ℕ} {spare : List MemmapEntry} {z : ℕ}
    (pre rest : List MemmapEntry) (s : ℕ) (hrest : ∀ r ∈ rest, s < r.start) (hs : s < word)
    (hzw : z < word) (hz : z ≠ 0)
    (h : (claimLoop fin type (fuel + 2) ⟨pre ++ rest, spare⟩ pre.length s z).bind
    (claimAppend type) = some m') : ∃ tags, m'.entries = pre ++ ⟨s, z, type, tags⟩ :: rest := by
  by_cases hafter : ∀ y ∈ rest.head?, fin ≤ y.start
  · rw [claimLoop_insert hafter hz] at h
    obtain ⟨sp, -, rfl⟩ := map_eq_some_iff.mp h
    exact ⟨_, rfl⟩
  · cases rest with
    | nil => simp at hafter
    | cons y ys =>
      rw [claimLoop_gap fin type _ pre ys spare y s z (hrest y (by simp)) (by simpa using hafter) hs
        hzw hz] at h
      cases h

/-- A range that ends before the entries after `x` begin, and that does not leave `x`, fits. -/
theorem ClaimFits.head (hx : Tidy (x :: xs))
    (hgap : e ≤ x.start ∨ x.start ≤ s ∧ e ≤ x.fin) : ClaimFits (x :: xs) s e := by
  have hle := (tidy_cons.mp hx).1
  have hfin : x.fin = x.start + x.size := rfl
  refine ⟨fun d hd hs hf => ?_, fun d hd hs he => ?_⟩
  · rcases mem_cons.mp hd with rfl | hd
    · omega
    · have := hle d hd
      omega
  · rcases mem_cons.mp hd with rfl | hd
    · omega
    · have := hle d hd
      omega

/-- On a range that does not fit, the loop panics or covers some address twice. -/
theorem claimLoop_unfit (he : e < word) (type : ℤ) (rest : List MemmapEntry) :
    ∀ (pre spare : List MemmapEntry) (sp sp' : MemmapEntry) (s fuel : ℕ) (m' : Memmap),
      (∀ d ∈ pre, d.fin < word) → Tidy rest → s < e → ¬ ClaimFits rest s e → rest.length + 2 ≤ fuel →
      (claimLoop e type fuel ⟨pre ++ rest, sp :: sp' :: spare⟩ pre.length s (e - s)).bind
      (claimAppend type) =
        some m' → Overlapping m'.entries := by
  induction rest with
  | nil =>
    intro pre spare sp sp' s fuel m' _ _ _ hfits
    exact absurd ⟨by simp, by simp⟩ hfits
  | cons x xs ih =>
    intro pre spare sp sp' s fuel m' hpre hx hlt hfits hfuel h
    obtain ⟨fuel, rfl⟩ := Nat.exists_eq_add_of_le' (show 3 ≤ fuel by simp at hfuel; omega)
    simp only [length_cons] at hfuel
    obtain ⟨hxs, hpos, hwrap, htidy⟩ := tidy_cons.mp hx
    have hfin : x.fin = x.start + x.size := rfl
    have hne : e - s ≠ 0 := by omega
    have hbefore : ¬ e ≤ x.start := fun hb => hfits (ClaimFits.head hx (.inl hb))
    have hinside : ¬ (x.start ≤ s ∧ e ≤ x.fin) := fun hb => hfits (ClaimFits.head hx (.inr hb))
    have hpre' : ∀ y : MemmapEntry, y.fin = x.fin → ∀ d ∈ pre ++ [y], d.fin < word := fun y hy d hd =>
      (mem_append.mp hd).elim (hpre d) fun hd => by rwa [mem_singleton.mp hd, hy]
    by_cases hgap : s < x.start
    · rw [claimLoop_gap e type _ pre xs _ x s _ hgap (by omega) (by omega) (by omega) hne] at h
      simp at h
    by_cases hstart : s = x.start
    · subst hstart
      rw [claimLoop_whole hlt (by omega) he] at h
      exact ih (pre ++ [{ x with flags := type }]) spare sp sp' x.fin (fuel + 2) m' (hpre' _ rfl)
        htidy (by omega)
        (fun hf => hfits ((claimFits_cons_iff hx (.inr ⟨rfl, rfl⟩)).mpr hf)) (by omega) h
    by_cases hin : s < x.start + x.size
    · -- the second half of the entry is retyped and then covered again
      rw [claimLoop] at h
      simp only [getElem?_cut, hne, add64_of_lt (show x.start + x.size < word from hwrap),
        if_neg hbefore, if_neg hgap, if_neg hstart] at h
      rw [if_pos hin, if_pos (show x.start + x.size ≤ e by omega),
        sub64_of_le (show x.start ≤ s by omega) (by omega),
        splitEntry_cut pre xs x sp _ (by omega) hwrap] at h
      have hsize : e - s - (x.size - (s - x.start)) = e - x.fin := by omega
      simp only [bind_eq_bind, bind_some, setEntry_cut_succ, getElem?_cut_succ,
        Nat.add_sub_cancel' (show x.start ≤ s by omega),
        sub64_of_le (show x.size - (s - x.start) ≤ e - s by omega) (show e - s < word by omega),
          hsize] at h
      obtain ⟨tags, hm'⟩ := claimLoop_overrun (pre ++ [{ x with size := s - x.start },
          { x with start := s, size := x.size - (s - x.start), flags := type }]) xs s
        (fun r hr => by have := hxs r hr; omega) (by omega) (by omega) (show e - x.fin ≠ 0 by omega)
        (by simpa using h)
      rw [hm']
      refine ⟨fun d hd => ?_, s, ?_⟩
      · simp only [mem_append, mem_cons, not_mem_nil, or_false] at hd
        rcases hd with (hd | rfl | rfl) | rfl | hd
        · exact hpre d hd
        all_goals first | exact htidy.noWrap d hd | (simp only [fin]; omega)
      · simp only [cover_append, cover_entry_cons]
        split_ifs <;> omega
    · rw [claimLoop_past (by omega) (by omega) hlt he hne] at h
      exact ih _ spare sp sp' s (fuel + 2) m' (hpre' x rfl) htidy hlt
        (fun hf => hfits ((claimFits_cons_iff hx (.inl ⟨by omega, rfl⟩)).mpr hf)) (by omega) h

theorem claim_of_fits {start size : ℕ} (type : ℤ) (hok : MemmapOk m.entries)
    (hspare : 2 ≤ m.spare.length) (hsize : 0 < size) (hwrap : start + size < word)
    (hfits : ClaimFits m.entries start (start + size)) :
    ∃ m', claimMemmapRegion m start size type = some m' ∧ Overwritten m m' start size type := by
  obtain ⟨entries, spare⟩ := m
  match spare, hspare with
  | sp :: sp' :: spare, _ =>
  obtain ⟨out, spare', hout, hcl⟩ := claimLoop_fits hwrap type entries [] sp sp' spare start
    (entries.length + (spare.length + 2) + 2) ((memmapOk_iff_tidy _).mp hok) (by omega) hfits
    (by omega)
  simp only [Nat.add_sub_cancel_left, nil_append, length_nil] at hout
  refine ⟨mergeConsecutiveRegions ⟨out, spare'⟩, ?_, ?_⟩
  · simp [claimMemmapRegion, add64_of_lt hwrap, Memmap.numSlots, hout]
  · cases out with
    | nil =>
      have := hcl.flags start
      simp only [if_pos (show start ≤ start ∧ start < start + size by omega)] at this
      nomatch this
    | cons e l =>
      obtain ⟨htidy, -, hflags⟩ := mergeLoop_tidy l e hcl.tidy
      refine ⟨(memmapOk_iff_tidy _).mpr htidy, fun x h1 h2 => ?_, fun x hx => ?_⟩
      · rw [mergeConsecutiveRegions, hflags, hcl.flags, if_pos ⟨h1, h2⟩]
      · rw [mergeConsecutiveRegions, hflags, hcl.flags, if_neg hx]

theorem fits_of_claim {start size : ℕ} (hok : MemmapOk m.entries)
    (hspare : 2 ≤ m.spare.length) (hsize : 0 < size) (hwrap : start + size < word)
    (h : claimMemmapRegion m start size type = some m') (hok' : MemmapOk m'.entries) :
    ClaimFits m.entries start (start + size) := by
  obtain ⟨entries, spare⟩ := m
  match spare, hspare with
  | sp :: sp' :: spare, _ =>
  by_contra hfits
  simp only [claimMemmapRegion, add64_of_lt hwrap, map_eq_some_iff] at h
  obtain ⟨m1, hm1, rfl⟩ := h
  have hunfit := claimLoop_unfit hwrap type entries [] spare sp sp' start
    (Memmap.numSlots ⟨entries, sp :: sp' :: spare⟩ + 2) m1 (by simp) ((memmapOk_iff_tidy _).mp hok)
    (by omega) hfits (by simp [Memmap.numSlots])
  simp only [Nat.add_sub_cancel_left] at hunfit
  exact (hunfit hm1).merge hok'

/-- With two spare slots, claiming `[start, start + size)` overwrites exactly its flags and keeps
the map well formed precisely when the range fits. -/
theorem claim_overwrites_iff_fits (m : Memmap) (start size : ℕ) (type : ℤ)
    (hok : MemmapOk m.entries) (hspare : 2 ≤ m.spare.length) (hsize : 0 <
    size) (hwrap : start + size < word) :
    (∃ m', claimMemmapRegion m start size type = some m' ∧ Overwritten m m' start size type) ↔
      ClaimFits m.entries start (start + size) := by
  constructor
  · rintro ⟨m', hm', hov⟩
    exact fits_of_claim hok hspare hsize hwrap hm' hov.ok
  · exact claim_of_fits type hok hspare hsize hwrap

/-- The range takes a whole entry and the front half of the next one. -/
theorem claim_overwrites_two_entries :
    let m : Memmap :=
      ⟨[⟨0x1000, 0x1000, 1, 0⟩, ⟨0x2000, 0x1000, 2, 0⟩], List.replicate 2 ⟨0, 0, 0, 0⟩⟩
    claimMemmapRegion m 0x1000 0x1800 3 =
      some ⟨[⟨0x1000, 0x1800, 3, 0⟩, ⟨0x2800, 0x800, 2, 0⟩], [⟨0, 0, 0, 0⟩, ⟨0, 0, 0, 0⟩]⟩ ∧
    ∃ m', claimMemmapRegion m 0x1000 0x1800 3 = some m' ∧ Overwritten m m' 0x1000 0x1800 3 :=
  ⟨by decide, (claim_overwrites_iff_fits _ 0x1000 0x1800 3
    ((memmapOk_iff_tidy _).mpr ⟨by decide, by decide, by decide⟩) (by decide) (by decide)
    (by decide)).mpr
    ⟨by decide, by decide⟩⟩

/-- The range `[0x1800, 0x2800)` leaves the entry `[0x1000, 0x2000)`: however many slots are free,
its second half is inserted at `0x1800` again. -/
theorem claim_overrun_not_overwritten :
    ¬ ∀ (entries : List MemmapEntry) (start size : ℕ) (type : ℤ), MemmapOk entries → 0 < size →
      start + size < word → ∃ slots, ∀ spare : List MemmapEntry, slots ≤ spare.length →
        ∃ m', claimMemmapRegion ⟨entries, spare⟩ start size type = some m' ∧
          Overwritten ⟨entries, spare⟩ m' start size type := by
  intro h
  have hok : MemmapOk [⟨0x1000, 0x1000, 1, 0⟩] :=
    (memmapOk_iff_tidy _).mpr ⟨by decide, by decide, by decide⟩
  obtain ⟨slots, hslots⟩ := h [⟨0x1000, 0x1000, 1, 0⟩] 0x1800 0x1000 2 hok (by decide) (by decide)
  obtain ⟨m', hm', hov⟩ := hslots (List.replicate (slots + 2) ⟨0, 0, 0, 0⟩) (by simp)
  have hfits := fits_of_claim hok (by simp) (by decide) (by decide) hm' hov.ok
  exact absurd (hfits.noOverrun ⟨0x1000, 0x1000, 1, 0⟩ (by simp) (by decide) (by decide))
    (by decide)

example : claimMemmapRegion ⟨[⟨0x1000, 0x1000, 1, 0⟩],
    List.replicate 8 ⟨0, 0, 0, 0⟩⟩ 0x1800 0x1000 2 =
    some ⟨[⟨0x1000, 0x800, 1, 0⟩, ⟨0x1800, 0x800, 2, 0⟩, ⟨0x1800, 0x800, 2, 0⟩],
    List.replicate 6 ⟨0, 0, 0, 0⟩⟩ := by
  decide

end Toddler
