import Toddler.Proofs.Memmap

/-! `tag_memmap_region` and `untag_memmap_region` change the tags of their range pointwise exactly
under `TagFits`. The loop treats each entry by itself: it panics on it, or puts its pieces in its
place. -/

namespace Toddler

open List Option MemmapEntry

/-- The entries for which the offset of a split is out of range. -/
def TagPanics (start fin : ℕ) (e : MemmapEntry) : Prop :=
  (start < e.start ∧ e.start < fin ∧ fin < e.fin) ∨ (e.start < start ∧ fin < e.fin ∧ fin < start)

def tagPieces (start fin : ℕ) (f : ℕ → ℕ) (e : MemmapEntry) : List MemmapEntry :=
  if e.start < start ∧ start < e.fin ∧ e.fin < fin then
    [{ e with size := start - e.start },
      { e with start := start, size := e.fin - start, tags := f e.tags }]
  else if e.start < start ∧ fin < e.fin then
    [{ e with size := start - e.start }, { e with start := start, size := fin - start, tags := f e.tags },
      { e with start := fin, size := e.fin - fin }]
  else if start ≤ e.start ∧ e.fin ≤ fin then [{ e with tags := f e.tags }]
  else [e]

def TagHit (start fin : ℕ) (e : MemmapEntry) (x : ℕ) : Prop :=
  (e.start < start ∧ start < e.fin ∧ e.fin < fin ∧ start ≤ x) ∨
    (e.start < start ∧ fin < e.fin ∧ start ≤ x ∧ x < fin) ∨ (start ≤ e.start ∧ e.fin ≤ fin)

instance TagHit.decidable (start fin : ℕ) (e : MemmapEntry) (x : ℕ) :
    Decidable (TagHit start fin e x) := by
  unfold TagHit
  infer_instance

section Round

variable {start fin fuel : ℕ} {f : ℕ → ℕ} {pre l spare : List MemmapEntry} {e : MemmapEntry}

theorem splitEntry_panics {offset : ℕ} (h : e.size ≤ offset) :
    splitEntry ⟨pre ++ e :: l, spare⟩ pre.length offset = none := by
  simp [splitEntry, if_pos h]

theorem splitEntry2_panics {offset1 offset2 : ℕ}
    (h : e.size ≤ offset1 ∨ e.size ≤ offset2 ∨ offset2 ≤ offset1) :
    splitEntry2 ⟨pre ++ e :: l, spare⟩ pre.length offset1 offset2 = none := by
  simp [splitEntry2, if_pos h]

theorem tagLoop_panics (hstart : start < word) (hwrap : e.fin < word) (hp : TagPanics start fin e) :
    tagLoop start fin f fuel ⟨pre ++ e :: l, spare⟩ pre.length = none := by
  cases fuel with
  | zero => rfl
  | succ fuel =>
    simp only [MemmapEntry.fin] at hwrap
    simp only [TagPanics, MemmapEntry.fin] at hp
    simp only [tagLoop, getElem?_cut, add64_of_lt hwrap]
    rw [if_neg (by omega)]
    rcases hp with hp | hp
    · rw [if_pos hp, splitEntry_panics]
      · rfl
      · rw [sub64_of_gt hp.1 (by omega)]
        omega
    · rw [if_neg (by omega), if_pos ⟨hp.1, hp.2.1⟩, splitEntry2_panics]
      · rfl
      · -- the wrapped end is before `start`, so the offsets are out of order or out of the entry
        rw [sub64_of_le hp.1.le hstart]
        rcases Nat.lt_or_ge fin e.start with h | h
        · rw [sub64_of_gt h (by omega)]
          omega
        · rw [sub64_of_le h (by omega)]
          omega

theorem two_spare (h : 2 ≤ spare.length) : ∃ a b t, spare = a :: b :: t := by
  match spare, h with
  | a :: b :: t, _ => exact ⟨a, b, t, rfl⟩

theorem tagPieces_tail (h : e.start < start ∧ start < e.fin ∧ e.fin < fin) :
    tagPieces start fin f e = [{ e with size := start - e.start },
      { e with start := start, size := e.fin - start, tags := f e.tags }] := by
  unfold tagPieces
  rw [if_pos h]

theorem tagPieces_middle (h : e.start < start ∧ fin < e.fin) :
    tagPieces start fin f e = [{ e with size := start - e.start },
      { e with start := start, size := fin - start, tags := f e.tags },
      { e with start := fin, size := e.fin - fin }] := by
  unfold tagPieces
  rw [if_neg (by omega), if_pos h]

theorem tagPieces_whole (h : start ≤ e.start ∧ e.fin ≤ fin) :
    tagPieces start fin f e = [{ e with tags := f e.tags }] := by
  unfold tagPieces
  rw [if_neg (by omega), if_neg (by omega), if_pos h]

theorem tagPieces_other (h1 : ¬ (e.start < start ∧ start < e.fin ∧ e.fin < fin))
    (h2 : ¬ (e.start < start ∧ fin < e.fin)) (h3 : ¬ (start ≤ e.start ∧ e.fin ≤ fin)) :
    tagPieces start fin f e = [e] := by
  unfold tagPieces
  rw [if_neg h1, if_neg h2, if_neg h3]

theorem tagLoop_after (pre l spare : List MemmapEntry) (fuel : ℕ) (hwrap : e.fin < word)
    (hlt : start < fin) (he : e.start = fin) (hpos : fin < e.fin) :
    tagLoop start fin f (fuel + 1) ⟨pre ++ e :: l, spare⟩ pre.length =
      tagLoop start fin f fuel ⟨pre ++ e :: l, spare⟩ (pre.length + 1) := by
  have hend : add64 e.start e.size = e.fin := add64_of_lt hwrap
  simp only [tagLoop, getElem?_cut]
  rw [if_neg (by omega), if_neg (by omega), if_neg (by omega), if_neg (by omega)]

/-- Rounds and slots enough for the entries of `l`; only the one that `start` is inside needs
slots. -/
def TagRoom (start : ℕ) (l spare : List MemmapEntry) (fuel : ℕ) : Prop :=
  l.length < fuel ∧ ((∃ e ∈ l, e.start < start ∧ start < e.fin) →
    2 ≤ spare.length ∧ l.length + 1 < fuel)

theorem TagRoom.tail_same (h : TagRoom start (e :: l) spare (fuel + 1)) :
    TagRoom start l spare fuel := by
  obtain ⟨hl, hs⟩ := h
  rw [length_cons] at hl hs
  refine ⟨by omega, fun ⟨d, hd, hin⟩ => ?_⟩
  have := hs ⟨d, mem_cons_of_mem e hd, hin⟩
  omega

theorem tagRoom_of_clear {spare' : List MemmapEntry} (hl : l.length < fuel)
    (hclear : ∀ d ∈ l, ¬ (d.start < start ∧ start < d.fin)) : TagRoom start l spare' fuel :=
  ⟨hl, fun ⟨d, hd, hin⟩ => absurd hin (hclear d hd)⟩

/-- The loop at an entry on which it does not panic goes on behind its pieces. -/
theorem tagLoop_pieces (pre : List MemmapEntry) (hwrap : e.fin < word) (hfin : fin < word)
    (hp : ¬ TagPanics start fin e) (hne : start ≠ fin) (hroom : TagRoom start (e :: l) spare fuel)
    (hclear : e.start < start → start < e.fin → ∀ d ∈ l, ¬ (d.start < start ∧ start < d.fin)) :
    ∃ spare' fuel', tagLoop start fin f fuel ⟨pre ++ e :: l, spare⟩ pre.length =
        tagLoop start fin f fuel' ⟨(pre ++ tagPieces start fin f e) ++ l, spare'⟩
          (pre ++ tagPieces start fin f e).length ∧ TagRoom start l spare' fuel' := by
  obtain ⟨fuel, rfl⟩ := Nat.exists_eq_add_of_lt (Nat.zero_lt_of_lt hroom.1)
  rw [Nat.zero_add] at hroom ⊢
  have hend : add64 e.start e.size = e.fin := add64_of_lt hwrap
  have hsize : e.fin = e.start + e.size := rfl
  have hslots hin := hroom.2 ⟨e, mem_cons_self, hin⟩
  simp only [length_cons] at hslots
  simp only [TagPanics] at hp
  simp only [tagLoop, getElem?_cut, hend]
  split_ifs with h1 h2 h3 h4
  · have hin := And.intro h1.1 h1.2.1
    obtain ⟨sp, sp', spare, rfl⟩ := two_spare (hslots hin).1
    refine ⟨sp' :: spare, fuel, ?_, tagRoom_of_clear (by have := hslots hin; omega) (hclear hin.1 hin.2)⟩
    rw [tagPieces_tail h1, sub64_of_le h1.1.le (by omega), splitEntry_cut _ _ _ _ _ (by omega) hwrap]
    simp only [bind_eq_bind, bind_some, setEntry_cut_succ, Nat.add_sub_cancel' h1.1.le,
      append_assoc, cons_append, nil_append, length_append, length_cons,
      length_nil, show e.size - (start - e.start) = e.fin - start by omega]
  · exact absurd (.inl h2) hp
  · have hin : e.start < start ∧ start < e.fin := ⟨h3.1, by omega⟩
    obtain ⟨hspare, hfuel⟩ := hslots hin
    obtain ⟨sp, sp', spare, rfl⟩ := two_spare hspare
    obtain ⟨fuel, rfl⟩ : ∃ k, fuel = k + 1 := ⟨fuel - 1, by omega⟩
    refine ⟨spare, fuel, ?_, tagRoom_of_clear (by omega) (hclear hin.1 hin.2)⟩
    have hlast : MemmapEntry.fin { e with start := fin, size := e.fin - fin } = e.fin := by
      simp only [MemmapEntry.fin]
      omega
    have hafter := tagLoop_after (f := f) (e := { e with start := fin, size := e.fin - fin })
      (pre ++ [{ e with size := start - e.start },
        { e with start := start, size := fin - start, tags := f e.tags }]) l spare fuel
      (by omega) (show start < fin by omega) rfl (by omega)
    rw [tagPieces_middle h3, sub64_of_le h3.1.le (by omega),
      sub64_of_le (show e.start ≤ fin by omega) hfin,
      splitEntry2_cut _ _ _ _ _ _ (by omega) (by omega) hwrap]
    simp only [bind_eq_bind, bind_some, setEntry_cut_succ, Nat.add_sub_cancel' h3.1.le,
      Nat.add_sub_cancel' (show e.start ≤ fin by omega), append_assoc, length_append,
      show fin - e.start - (start - e.start) = fin - start by omega,
      show e.size - (fin - e.start) = e.fin - fin by omega] at hafter ⊢
    exact hafter
  · refine ⟨spare, fuel, ?_, hroom.tail_same⟩
    rw [tagPieces_whole h4]
    simp [setEntry_cut]
  · refine ⟨spare, fuel, ?_, hroom.tail_same⟩
    rw [tagPieces_other h1 h3 h4]
    simp

end Round

section Loop

variable {start fin : ℕ} {f : ℕ → ℕ}

theorem MemmapSorted.tail {e : MemmapEntry} {l : List MemmapEntry} (h : MemmapSorted (e :: l)) :
    MemmapSorted l :=
  ⟨(pairwise_cons.mp h.sorted).2, (pairwise_cons.mp h.disjoint).2,
    fun d hd => h.noWrap d (mem_cons_of_mem e hd)⟩

theorem straddle_unique {e d : MemmapEntry}
    (hdisj : ∀ x, ¬ ((e.start ≤ x ∧ x < e.fin) ∧ (d.start ≤ x ∧ x < d.fin)))
    (h1 : e.start < start) (h2 : start < e.fin) : ¬ (d.start < start ∧ start < d.fin) :=
  fun hd => hdisj start ⟨⟨h1.le, h2⟩, hd.1.le, hd.2⟩

theorem tagLoop_run (hfin : fin < word) (hne : start ≠ fin) (l : List MemmapEntry) :
    ∀ (pre spare : List MemmapEntry) (fuel : ℕ), MemmapSorted l → TagRoom start l spare fuel →
      (∀ e ∈ l, ¬ TagPanics start fin e) → ∃ m', tagLoop start fin f fuel ⟨pre ++ l,
      spare⟩ pre.length = some m' ∧
          m'.entries = pre ++ l.flatMap (tagPieces start fin f) := by
  induction l with
  | nil =>
    intro pre spare fuel _ hroom _
    obtain ⟨fuel, rfl⟩ := Nat.exists_eq_add_of_lt hroom.1
    refine ⟨⟨pre ++ [], spare⟩, ?_, by simp⟩
    simp [tagLoop]
  | cons e l ih =>
    intro pre spare fuel hok hroom hp
    have hd := pairwise_cons.mp hok.disjoint
    obtain ⟨spare', fuel', hloop, hroom'⟩ := tagLoop_pieces pre
      (hok.noWrap e mem_cons_self) hfin (hp e mem_cons_self) hne hroom
      fun h1 h2 d hdl => straddle_unique (hd.1 d hdl) h1 h2
    obtain ⟨m', hm', hentries⟩ := ih _ spare' fuel' hok.tail hroom' fun d hdl =>
      hp d (mem_cons_of_mem e hdl)
    refine ⟨m', hloop.trans hm', ?_⟩
    rw [hentries, flatMap_cons, append_assoc]

theorem tagLoop_stuck (hstart : start < word) (hfin : fin < word) (hne : start ≠ fin)
    (l : List MemmapEntry) : ∀ (pre spare : List MemmapEntry) (fuel : ℕ), MemmapSorted l →
    TagRoom start l spare fuel →
      (∃ e ∈ l, TagPanics start fin e) → tagLoop start fin f fuel ⟨pre ++ l, spare⟩ pre.length =
      none := by
  induction l with
  | nil =>
    intro pre spare fuel _ _ ⟨e, he, _⟩
    exact absurd he not_mem_nil
  | cons e l ih =>
    intro pre spare fuel hok hroom hex
    have hwrap := hok.noWrap e mem_cons_self
    by_cases hp : TagPanics start fin e
    · exact tagLoop_panics hstart hwrap hp
    have hd := pairwise_cons.mp hok.disjoint
    obtain ⟨spare', fuel', hloop, hroom'⟩ := tagLoop_pieces pre hwrap hfin hp hne hroom
      fun h1 h2 d hdl => straddle_unique (hd.1 d hdl) h1 h2
    rw [hloop]
    apply ih _ spare' fuel' hok.tail hroom'
    obtain ⟨d, hdl, hdp⟩ := hex
    rcases mem_cons.mp hdl with rfl | hdl
    · exact absurd hdp hp
    · exact ⟨d, hdl, hdp⟩

end Loop

def recordAt (l : List MemmapEntry) (x : ℕ) : Option (ℕ × ℤ) :=
  (l.find? fun e => decide (e.start ≤ x ∧ x < e.fin)).map fun e => (e.tags, e.flags)

theorem tagsAt_eq : tagsAt l x = (recordAt l x).map Prod.fst := by
  unfold tagsAt recordAt
  rw [Option.map_map]
  rfl

theorem flagsAt_eq : flagsAt l x = (recordAt l x).map Prod.snd := by
  unfold flagsAt recordAt
  rw [Option.map_map]
  rfl

theorem recordAt_cons (e : MemmapEntry) (l : List MemmapEntry) (x : ℕ) : recordAt (e :: l) x =
      if e.start ≤ x ∧ x < e.start + e.size then some (e.tags, e.flags) else recordAt l x := by
  unfold recordAt fin
  split_ifs with h
  · simp [h]
  · simp [h]

theorem recordAt_append (l l' : List MemmapEntry) :
    recordAt (l ++ l') x = (recordAt l x).or (recordAt l' x) := by
  unfold recordAt
  rw [find?_append, map_or]

section Address

variable {start fin x : ℕ} {f : ℕ → ℕ} {l : List MemmapEntry} {e : MemmapEntry}

theorem recordAt_skip (h : ¬ (e.start ≤ x ∧ x < e.fin)) : recordAt (e :: l) x = recordAt l x :=
  (recordAt_cons e l x).trans (if_neg h)

/-- An address has the record of the entry that covers it. -/
theorem recordAt_of_cover (hok : MemmapSorted l) (he : e ∈ l) (hx : e.start ≤ x ∧ x < e.fin) :
    recordAt l x = some (e.tags, e.flags) := by
  induction l with
  | nil => exact absurd he not_mem_nil
  | cons d l ih =>
    have hd := pairwise_cons.mp hok.disjoint
    rcases mem_cons.mp he with rfl | he
    · exact (recordAt_cons e l x).trans (if_pos hx)
    · rw [recordAt_skip fun h => hd.1 e he x ⟨h, hx⟩]
      exact ih hok.tail he

theorem recordAt_of_bare (h : ∀ e ∈ l, ¬ (e.start ≤ x ∧ x < e.fin)) : recordAt l x = none := by
  induction l with
  | nil => rfl
  | cons d l ih =>
    rw [recordAt_skip (h d mem_cons_self)]
    exact ih fun e he => h e (mem_cons_of_mem d he)

/-- The record that the pieces of `e` have at `x`. -/
theorem recordAt_tagPieces (hp : ¬ TagPanics start fin e) (hne : start ≠ fin) :
    recordAt (tagPieces start fin f e) x =
      if e.start ≤ x ∧ x < e.fin then some (if TagHit start fin e x then f e.tags else e.tags, e.flags)
      else none := by
  unfold TagPanics at hp
  by_cases h1 : e.start < start ∧ start < e.fin ∧ e.fin < fin
  · have hhit : TagHit start fin e x ↔ start ≤ x := by unfold TagHit; omega
    rw [tagPieces_tail h1]
    simp only [recordAt_cons, hhit]
    split_ifs <;> first | rfl | omega
  by_cases h2 : e.start < start ∧ fin < e.fin
  · have hhit : TagHit start fin e x ↔ start ≤ x ∧ x < fin := by unfold TagHit; omega
    rw [tagPieces_middle h2]
    simp only [recordAt_cons, hhit]
    split_ifs <;> first | rfl | omega
  by_cases h3 : start ≤ e.start ∧ e.fin ≤ fin
  · have hhit : TagHit start fin e x := by unfold TagHit; omega
    rw [tagPieces_whole h3, if_pos hhit, recordAt_cons]
    rfl
  · have hhit : ¬ TagHit start fin e x := by unfold TagHit; omega
    rw [tagPieces_other h1 h2 h3, if_neg hhit, recordAt_cons]
    rfl

theorem recordAt_flatMap_of_cover (hok : MemmapSorted l) (hne : start ≠ fin)
    (hp : ∀ e ∈ l, ¬ TagPanics start fin e) (he : e ∈ l) (hx : e.start ≤ x ∧ x < e.fin) :
    recordAt (l.flatMap (tagPieces start fin f)) x =
      some (if TagHit start fin e x then f e.tags else e.tags, e.flags) := by
  induction l with
  | nil => exact absurd he not_mem_nil
  | cons d l ih =>
    have hd := pairwise_cons.mp hok.disjoint
    rw [flatMap_cons, recordAt_append, recordAt_tagPieces (hp d mem_cons_self) hne]
    rcases mem_cons.mp he with rfl | he
    · rw [if_pos hx, some_or]
    · rw [if_neg fun h => hd.1 e he x ⟨h, hx⟩]
      exact ih hok.tail (fun c hc => hp c (mem_cons_of_mem d hc)) he

theorem recordAt_flatMap_of_bare (hne : start ≠ fin) (hp : ∀ e ∈ l, ¬ TagPanics start fin e)
    (h : ∀ e ∈ l, ¬ (e.start ≤ x ∧ x < e.fin)) :
    recordAt (l.flatMap (tagPieces start fin f)) x = none := by
  induction l with
  | nil => rfl
  | cons d l ih =>
    rw [flatMap_cons, recordAt_append, recordAt_tagPieces (hp d mem_cons_self) hne,
      if_neg (h d mem_cons_self)]
    exact ih (fun c hc => hp c (mem_cons_of_mem d hc)) fun c hc => h c (mem_cons_of_mem d hc)

/-- The pieces are `Retagged` when the addresses hit are those of the range, up to entries whose
tags `f` does not change. -/
theorem retagged_iff {m m' : Memmap} {size : ℕ} (hok : MemmapSorted m.entries) (hne : start ≠ fin)
    (hp : ∀ e ∈ m.entries, ¬ TagPanics start fin e)
    (hm' : m'.entries = m.entries.flatMap (tagPieces start fin f)) :
    Retagged m m' start size f ↔ ∀ e ∈ m.entries, ∀ x, e.start ≤ x ∧ x < e.fin →
      (TagHit start fin e x ↔ start ≤ x ∧ x < start + size) ∨ f e.tags = e.tags := by
  constructor
  · intro h e he x hx
    have hold := recordAt_of_cover hok he hx
    have hnew := recordAt_flatMap_of_cover (f := f) hok hne hp he hx
    rw [← hm'] at hnew
    by_cases hin : start ≤ x ∧ x < start + size
    · have hi := h.inside x hin.1 hin.2
      rw [tagsAt_eq, tagsAt_eq, hold, hnew] at hi
      simp only [map_some, Option.some.injEq] at hi
      split_ifs at hi with hhit
      · exact .inl ⟨fun _ => hin, fun _ => hhit⟩
      · exact .inr hi.symm
    · have ho := h.outside x hin
      rw [tagsAt_eq, tagsAt_eq, hold, hnew] at ho
      simp only [map_some, Option.some.injEq] at ho
      split_ifs at ho with hhit
      · exact .inr ho
      · exact .inl ⟨fun h => absurd h hhit, fun h => absurd h hin⟩
  · intro h
    have hcases x : (∃ e ∈ m.entries, e.start ≤ x ∧ x < e.fin) ∨
        ∀ e ∈ m.entries, ¬ (e.start ≤ x ∧ x < e.fin) := by
      by_cases hx : ∃ e ∈ m.entries, e.start ≤ x ∧ x < e.fin
      · exact .inl hx
      · exact .inr fun e he hc => hx ⟨e, he, hc⟩
    have hrec x : recordAt m'.entries x = (recordAt m.entries x).map fun r =>
        (if start ≤ x ∧ x < start + size then f r.1 else r.1, r.2) := by
      rcases hcases x with ⟨e, he, hx⟩ | hbare
      · rw [hm', recordAt_flatMap_of_cover hok hne hp he hx, recordAt_of_cover hok he hx, map_some]
        rcases h e he x hx with hiff | heq
        · simp only [hiff]
        · simp [heq]
      · rw [hm', recordAt_flatMap_of_bare hne hp hbare, recordAt_of_bare hbare, map_none]
    constructor
    · intro x h1 h2
      rw [tagsAt_eq, tagsAt_eq, hrec]
      simp only [Option.map_map, if_pos (And.intro h1 h2)]
      rfl
    · intro x hx
      rw [tagsAt_eq, tagsAt_eq, hrec]
      simp only [Option.map_map, if_neg hx]
      rfl
    · intro x
      rw [flagsAt_eq, flagsAt_eq, hrec, Option.map_map]
      rfl

end Address

section Condition

variable {l : List MemmapEntry} {start size fin : ℕ} {f : ℕ → ℕ} {e : MemmapEntry}

theorem TagFits.no_panic (h : TagFits l start size f) (hstart : start < word) (hsize : size < word)
    (he : e ∈ l) : ¬ TagPanics start (add64 start size) e := by
  rintro (hp | hp)
  · have := h.noOverrun e he hp.1 hp.2.1
    omega
  · rcases add64_cases hstart hsize with hw | hw
    · omega
    · have := (h.wrapped hw.1 e he).1 hp.1
      omega

theorem TagFits.hit_iff (h : TagFits l start size f) (hstart : start < word)
    (hsize : size < word) (he : e ∈ l) (hf : f e.tags ≠ e.tags) {x : ℕ}
    (hx : e.start ≤ x ∧ x < e.fin) :
    TagHit start (add64 start size) e x ↔ start ≤ x ∧ x < start + size := by
  have hpos : 0 < e.size := by
    simp only [fin] at hx
    omega
  have hover := h.noOverrun e he
  have hshared : ¬ (e.start = start ∧ add64 start size < e.fin) :=
    fun hs => hf (h.sharedStart e he hs.1 hpos hs.2)
  have hshared' : ¬ (e.start < start ∧ start < e.fin ∧ e.fin = add64 start size) :=
    fun hs => hf (h.sharedEnd e he hs.1 hs.2.1 hs.2.2)
  unfold TagHit
  rcases add64_cases hstart hsize with hw | hw
  · omega
  · have hbefore := (h.wrapped hw.1 e he).1
    have hafter : ¬ start ≤ e.start := fun hs => hf ((h.wrapped hw.1 e he).2 hs hpos)
    omega

/-- An entry of which the loop hits the addresses in the range and no other fits. -/
theorem tagFits_of_hit (hok : MemmapSorted l) (hstart : start < word) (hsize : size < word)
    (hpos : 0 < size) (hp : ∀ e ∈ l, ¬ TagPanics start (add64 start size) e)
    (hhit : ∀ e ∈ l, ∀ x, e.start ≤ x ∧ x < e.fin →
      (TagHit start (add64 start size) e x ↔ start ≤ x ∧ x < start + size) ∨ f e.tags = e.tags) :
    TagFits l start size f := by
  have hcases := add64_cases hstart hsize
  -- an address in the range that the loop does not hit shows that `f` keeps the tags
  have hmiss e (he : e ∈ l) x (hx : e.start ≤ x ∧ x < e.fin)
      (hin : start ≤ x ∧ x < start + size) (hm : ¬ TagHit start (add64 start size) e x) :
      f e.tags = e.tags := by
    rcases hhit e he x hx with h | h
    · exact absurd (h.mpr hin) hm
    · exact h
  constructor
  · intro e he h1 h2
    by_contra h3
    exact hp e he (.inl ⟨h1, h2, by omega⟩)
  · intro e he h1 h2 h3
    simp only [fin] at h3
    refine hmiss e he start ⟨by omega, by simp only [fin]; omega⟩ ⟨le_rfl, by omega⟩ ?_
    simp only [TagHit, fin]
    omega
  · intro e he h1 h2 h3
    refine hmiss e he start ⟨by omega, h2⟩ ⟨le_rfl, by omega⟩ ?_
    unfold TagHit
    omega
  · intro hw e he
    have hnowrap := hok.noWrap e he
    have hend : e.fin = e.start + e.size := rfl
    refine ⟨fun h1 => ?_, fun h1 h2 => ?_⟩
    · by_contra h2
      exact hp e he (.inr ⟨h1, by omega, by omega⟩)
    · refine hmiss e he e.start ⟨le_rfl, by simp only [fin]; omega⟩ ⟨h1, by omega⟩ ?_
      simp only [TagHit]
      omega

end Condition

theorem doTag_iff (m : Memmap) (start size mask : ℕ) (tag : Bool) (hok : MemmapSorted m.entries)
    (hspare : 2 ≤ m.spare.length) (hstart : start < word) (hsize : size < word) (hpos : 0 < size) :
    (∃ m', doTagMemmapRegion m start size mask tag = some m' ∧
      Retagged m m' start size (retag tag mask)) ↔
      TagFits m.entries start size (retag tag mask) := by
  have hcases := add64_cases hstart hsize
  have hne : start ≠ add64 start size := by omega
  have hfin : add64 start size < word := by omega
  have hroom : TagRoom start m.entries m.spare (m.numSlots + 1) := by
    unfold TagRoom Memmap.numSlots
    omega
  unfold doTagMemmapRegion
  rw [if_neg (by omega)]
  constructor
  · rintro ⟨m', hm', hre⟩
    have hp : ∀ e ∈ m.entries, ¬ TagPanics start (add64 start size) e := by
      intro e he hp
      have hnone := tagLoop_stuck (f := retag tag mask) hstart hfin hne m.entries [] m.spare _ hok
        hroom ⟨e, he, hp⟩
      exact some_ne_none m' (hm'.symm.trans hnone)
    obtain ⟨m'', hm'', hentries⟩ := tagLoop_run hfin hne m.entries [] m.spare _ hok hroom hp
    obtain rfl : m' = m'' := Option.some.inj (hm'.symm.trans hm'')
    exact tagFits_of_hit hok hstart hsize hpos hp ((retagged_iff hok hne hp hentries).mp hre)
  · intro h
    have hp : ∀ e ∈ m.entries, ¬ TagPanics start (add64 start size) e :=
      fun e he => h.no_panic hstart hsize he
    obtain ⟨m', hm', hentries⟩ := tagLoop_run hfin hne m.entries [] m.spare _ hok hroom hp
    refine ⟨m', hm', (retagged_iff hok hne hp hentries).mpr fun e he x hx => ?_⟩
    by_cases hf : retag tag mask e.tags = e.tags
    · exact .inr hf
    · exact .inl (h.hit_iff hstart hsize he hf hx)

theorem tag_memmap_region_pointwise_iff (m : Memmap) (start size mask : ℕ)
    (hok : MemmapSorted m.entries) (hspare : 2 ≤ m.spare.length) (hstart : start <
    word) (hsize : size < word) (hpos : 0 < size) :
    ((∃ m', tagMemmapRegion m start size mask = some m' ∧ Retagged m m' start size fun t =>
    t ||| mask) ↔
      TagFits m.entries start size fun t => t ||| mask) ∧
    ((∃ m', untagMemmapRegion m start size mask = some m' ∧
        Retagged m m' start size fun t => t &&& (0xffffffff ^^^ mask)) ↔
      TagFits m.entries start size fun t => t &&& (0xffffffff ^^^ mask)) :=
  ⟨doTag_iff m start size mask true hok hspare hstart hsize hpos,
    doTag_iff m start size mask false hok hspare hstart hsize hpos⟩

def twoEntries : Memmap :=
  ⟨[⟨0x1000, 0x3000, 1, 4⟩, ⟨0x8000, 0x1000, 2, 0⟩], [⟨0, 0, 0, 0⟩, ⟨0, 0, 0, 0⟩]⟩

/-- A range inside the first entry is tagged and untagged. -/
theorem retag_inside_entry : (∃ m', tagMemmapRegion twoEntries 0x2000 0x1000 3 = some m' ∧
      Retagged twoEntries m' 0x2000 0x1000 fun t => t ||| 3) ∧
    (∃ m', untagMemmapRegion twoEntries 0x2000 0x1000 4 = some m' ∧
      Retagged twoEntries m' 0x2000 0x1000 fun t => t &&& (0xffffffff ^^^ 4)) := by
  have hok : MemmapSorted twoEntries.entries := by
    refine ⟨by simp [twoEntries], ?_, by simp [twoEntries, fin, word]⟩
    simp only [twoEntries, fin, pairwise_pair]
    omega
  have hfits f : TagFits twoEntries.entries 0x2000 0x1000 f := by
    have hadd : add64 0x2000 0x1000 = 0x3000 := by decide
    refine ⟨?_, ?_, ?_, fun h => absurd h (by decide)⟩ <;> simp [twoEntries, fin, hadd]
  exact ⟨(tag_memmap_region_pointwise_iff twoEntries 0x2000 0x1000 3 hok (by decide) (by decide)
    (by decide)
      (by decide)).1.mpr (hfits _),
    (tag_memmap_region_pointwise_iff twoEntries 0x2000 0x1000 4 hok (by decide) (by decide)
      (by decide) (by decide)).2.mpr (hfits _)⟩

/-- The range begins before the only entry and ends inside it: the split is asked for at an offset
below zero. -/
theorem tag_first_half_panics :
    ¬ ∀ (m : Memmap) (start size mask : ℕ), MemmapSorted m.entries → 2 ≤ m.spare.length →
    start < word →
      size < word → 0 < size →
        (∃ m', tagMemmapRegion m start size mask = some m' ∧ Retagged m m' start size fun t =>
        t ||| mask) ∧ (∃ m', untagMemmapRegion m start size mask = some m' ∧
          Retagged m m' start size fun t => t &&& (0xffffffff ^^^ mask)) := by
  intro h
  have hok : MemmapSorted [⟨0x2000, 0x2000, 1, 0⟩] := ⟨by simp, by simp, by simp [fin, word]⟩
  obtain ⟨⟨m', hm', -⟩, -⟩ := h ⟨[⟨0x2000, 0x2000, 1, 0⟩],
    [⟨0, 0, 0, 0⟩, ⟨0, 0, 0, 0⟩]⟩ 0x1000 0x2000 1 hok
    (by decide) (by decide) (by decide) (by decide)
  have hnone : tagMemmapRegion ⟨[⟨0x2000, 0x2000, 1, 0⟩],
      [⟨0, 0, 0, 0⟩, ⟨0, 0, 0, 0⟩]⟩ 0x1000 0x2000 1 = none := by
    decide +kernel
  exact some_ne_none m' (hm'.symm.trans hnone)

end Toddler
