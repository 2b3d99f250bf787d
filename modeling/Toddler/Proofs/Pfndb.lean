import Toddler.Proofs.Memmap
import Toddler.Spec.Pfndb

/-! The PFN database of every memory map. Starts are rounded up and ends down, so the pages from the
rounded end of one entry to the rounded start of the next are the ones that no entry holds as a
whole; the running end only moves up, and the pages below it are final. -/

namespace Toddler

open Function List Nat Option

variable {A : PaddrArch}

def MemmapEntry.HasPage (A : PaddrArch) (e : MemmapEntry) (pfn : ℕ) : Prop :=
  e.start ≤ pfn * A.page ∧ (pfn + 1) * A.page ≤ e.fin

/-- The record of a page that is not reserved: it is free exactly inside a usable entry, and has its
tags then. -/
structure PageRight (A : PaddrArch) (tagsOf : MemmapEntry → ℕ) (l : List MemmapEntry) (pfn : ℕ)
    (record : PfndbRecord) : Prop where
  free : record.free = true ↔ ∃ e ∈ l, e.flags = memmapUsable ∧ e.HasPage A pfn
  tags : ∀ e ∈ l, e.flags = memmapUsable → e.HasPage A pfn → record.tags = tagsOf e

namespace PaddrArch

theorem page_pos (A : PaddrArch) : 0 < A.page := Nat.two_pow_pos _

def pageUp (A : PaddrArch) (x : ℕ) : ℕ := (x + (A.page - 1)) / A.page

def pageDown (A : PaddrArch) (x : ℕ) : ℕ := x / A.page

variable {x : ℕ}

theorem alignUp_eq (h : x + (A.page - 1) < 2 ^ A.bits) : A.alignUp x = A.pageUp x * A.page := by
  rw [alignUp, mod_eq_of_lt h, pageUp]

variable {k : ℕ}

theorem lt_pageUp_iff : k < A.pageUp x ↔ k * A.page < x := by
  have hpos := A.page_pos
  rw [pageUp, lt_iff_add_one_le, le_div_iff_mul_le hpos, add_mul]
  omega

theorem pageUp_le_iff : A.pageUp x ≤ k ↔ x ≤ k * A.page := by
  rw [← not_lt, lt_pageUp_iff, not_lt]

theorem lt_pageDown_iff : k < A.pageDown x ↔ (k + 1) * A.page ≤ x := by
  rw [pageDown, lt_iff_add_one_le, le_div_iff_mul_le A.page_pos]

theorem pageDown_le_iff : A.pageDown x ≤ k ↔ x < (k + 1) * A.page := by
  rw [← not_lt, lt_pageDown_iff, not_le]

theorem le_pageDown_iff : k ≤ A.pageDown x ↔ k * A.page ≤ x := le_div_iff_mul_le A.page_pos

theorem paddrToPpfn_mul (k : ℕ) : A.paddrToPpfn (k * A.page) = k := by
  rw [paddrToPpfn, Nat.shiftRight_eq_div_pow]
  exact Nat.mul_div_cancel k A.page_pos

theorem castU64ToPaddr_of_lt (h : x < 2 ^ A.maxBits) : A.castU64ToPaddr x = some x := if_pos h

end PaddrArch

open PaddrArch

def Pfndb.fill (db : Pfndb) (a b : ℕ) (record : PfndbRecord) : Pfndb :=
  { db with entries := fun pfn => if a ≤ pfn ∧ pfn < b then some record else db.entries pfn }

variable {db : Pfndb} {a b : ℕ}

theorem Pfndb.fill_empty (h : b ≤ a) (record : PfndbRecord) : db.fill a b record = db := by
  have hnone : ∀ pfn, ¬ (a ≤ pfn ∧ pfn < b) := fun pfn => by omega
  simp [fill, hnone]

theorem Pfndb.fill_cons (h : a < b) (record : PfndbRecord) :
    ({ db with entries := update db.entries a (some record) } : Pfndb).fill
    (a + 1) b record = db.fill a b record := by
  simp only [fill, Pfndb.mk.injEq, true_and]
  funext pfn
  rcases lt_trichotomy pfn a with hlt | rfl | hgt
  · rw [if_neg (by omega), if_neg (by omega), update_of_ne (by omega)]
  · rw [if_neg (by omega), if_pos (by omega), update_self]
  · rw [update_of_ne (by omega)]
    simp only [show a + 1 ≤ pfn ↔ a ≤ pfn by omega]

theorem fillPages_spec (record : PfndbRecord) (hb : b * A.page < 2 ^ A.bits) (fuel : ℕ) :
    ∀ {a : ℕ} {db : Pfndb}, b ≤ a + fuel → db.offset ≤ a → b ≤ db.limit →
      fillPages A record (b * A.page) fuel (a * A.page) db = some (db.fill a b record) := by
  have hpos := A.page_pos
  induction fuel with
  | zero =>
    intro a db hfuel _ _
    rw [fillPages, if_neg (Nat.not_lt.mpr (Nat.mul_le_mul_right _ (by omega))),
      Pfndb.fill_empty (by omega)]
  | succ fuel ih =>
    intro a db hfuel hoffset hlimit
    rw [fillPages]
    rcases Nat.lt_or_ge a b with hlt | hge
    · have hnext : (a + 1) * A.page ≤ b * A.page := Nat.mul_le_mul_right _ hlt
      have hstep : (a * A.page + A.page) % 2 ^ A.bits = (a + 1) * A.page := by
        rw [add_mul, one_mul] at hnext ⊢
        exact mod_eq_of_lt (by omega)
      have hset : db.set A (a * A.page) record =
          some { db with entries := update db.entries a (some record) } := by
        rw [Pfndb.set, paddrToPpfn_mul, if_neg (by omega)]
      rw [if_pos (mul_lt_mul_of_pos_right hlt hpos), hset]
      simp only [bind_eq_bind, bind_some, hstep]
      have hrest := @ih (a + 1) { db with entries := update db.entries a (some record) } (by omega)
        (le_succ_of_le hoffset) hlimit
      rw [hrest, Pfndb.fill_cons hlt]
    · rw [if_neg (not_lt.mpr (mul_le_mul_right _ hge)), Pfndb.fill_empty hge]

/-- Rounding the ends of the entries up does not overflow, and the casts accept them. -/
structure FitsPaddr (A : PaddrArch) (l : List MemmapEntry) : Prop where
  cast : ∀ e ∈ l, e.fin < 2 ^ A.maxBits
  rounded : ∀ e ∈ l, e.fin + (A.page - 1) < 2 ^ A.bits

def storedTags (e : MemmapEntry) : ℕ := e.tags % 2 ^ 10

variable {l : List MemmapEntry} {e : MemmapEntry}

theorem add64_entry (h : e.fin < word) : add64 e.start e.size = e.fin := add64_of_lt h

theorem constructEntry_spec {cur : MemmapEntry} (hword : cur.fin < word)
    (hcast : cur.fin < 2 ^ A.maxBits) (hround : cur.fin + (A.page - 1) < 2 ^ A.bits)
    (ha : db.offset ≤ a) (hstart : a ≤ A.pageUp cur.start) (hlimit : A.pageUp cur.fin ≤ db.limit) :
    constructEntry A db (a * A.page) cur =
      some ((db.fill a (A.pageUp cur.start) .hole).fill (A.pageUp cur.start) (A.pageDown cur.fin)
      (.region cur),
        A.pageDown cur.fin * A.page) := by
  have hle : cur.start ≤ cur.fin := Nat.le_add_right _ _
  have hup : A.pageUp cur.start ≤ A.pageUp cur.fin := Nat.div_le_div_right (by omega)
  have hdown : A.pageDown cur.fin ≤ A.pageUp cur.fin := Nat.div_le_div_right (by omega)
  have hupPage : A.pageUp cur.start * A.page ≤ cur.start + (A.page - 1) := Nat.div_mul_le_self _ _
  have hdownPage : A.pageDown cur.fin * A.page ≤ cur.fin := Nat.div_mul_le_self _ _
  have hhole := fillPages_spec .hole (show A.pageUp cur.start * A.page < 2 ^ A.bits by omega)
    (A.pageUp cur.start * A.page)
    (show A.pageUp cur.start ≤ a + A.pageUp cur.start * A.page by
      have := Nat.le_mul_of_pos_right (A.pageUp cur.start) A.page_pos
      omega) ha (hup.trans hlimit)
  have hregion := fillPages_spec (.region cur) (show A.pageDown cur.fin * A.page <
    2 ^ A.bits by omega) (A.pageDown cur.fin * A.page)
    (show A.pageDown cur.fin ≤ A.pageUp cur.start + A.pageDown cur.fin * A.page by
      have := Nat.le_mul_of_pos_right (A.pageDown cur.fin) A.page_pos
      omega)
    (show (db.fill a (A.pageUp cur.start) .hole).offset ≤ A.pageUp cur.start from ha.trans hstart)
    (hdown.trans hlimit)
  rw [constructEntry, add64_entry hword, castU64ToPaddr_of_lt (hle.trans_lt hcast),
    castU64ToPaddr_of_lt hcast]
  simp [alignUp_eq (show cur.start + (A.page - 1) < 2 ^ A.bits by omega),
    show A.alignDown cur.fin = A.pageDown cur.fin * A.page from rfl, hhole, hregion]

variable {pfn : ℕ}

theorem pageRight_hole {tagsOf : MemmapEntry → ℕ} (h : ∀ e ∈ l, ¬ e.HasPage A pfn) :
    PageRight A tagsOf l pfn .hole := by
  refine ⟨⟨fun hfree => absurd hfree (by decide), ?_⟩, fun e he _ hpage => absurd hpage (h e he)⟩
  rintro ⟨e, he, -, hpage⟩
  exact absurd hpage (h e he)

/-- A page lies inside one entry only. -/
theorem Tidy.hasPage_unique (h : Tidy l) {d : MemmapEntry} (he : e ∈ l) (hd : d ∈ l)
    (hep : e.HasPage A pfn) (hdp : d.HasPage A pfn) : e = d := by
  have hpos := A.page_pos
  have hsep : ∀ a b : MemmapEntry, a.HasPage A pfn → b.HasPage A pfn → ¬ a.fin ≤ b.start := by
    rintro a b ⟨-, ha⟩ ⟨hb, -⟩ hle
    rw [add_mul] at ha
    omega
  by_contra hne
  have hsymm : Std.Symm fun a b : MemmapEntry => a.fin ≤ b.start ∨ b.fin ≤ a.start :=
    ⟨fun _ _ => Or.symm⟩
  have hapart : l.Pairwise fun a b => a.fin ≤ b.start ∨ b.fin ≤ a.start := h.ordered.imp Or.inl
  rcases hapart.forall he hd hne with hle | hle
  · exact hsep e d hep hdp hle
  · exact hsep d e hdp hep hle

theorem pageRight_region (h : Tidy l) (he : e ∈ l) (hpage : e.HasPage A pfn) :
    PageRight A storedTags l pfn (.region e) := by
  refine ⟨⟨fun hfree => ⟨e, he, ?_, hpage⟩, ?_⟩, ?_⟩
  · by_contra hflags
    simp [PfndbRecord.region, hflags, PfndbEntry.free] at hfree
  · rintro ⟨d, hd, hflags, hdp⟩
    obtain rfl := h.hasPage_unique he hd hpage hdp
    simp [PfndbRecord.region, hflags, PfndbEntry.free]
  · intro d hd hflags hdp
    obtain rfl := h.hasPage_unique he hd hpage hdp
    simp [PfndbRecord.region, hflags, storedTags]

def FinalBelow (A : PaddrArch) (l : List MemmapEntry) (db : Pfndb) (a : ℕ) : Prop :=
  ∀ pfn, db.offset ≤ pfn → pfn < a → ∃ record, db.entries pfn = some record ∧
    PageRight A storedTags l pfn record

theorem FinalBelow.fill {record : PfndbRecord} (h : FinalBelow A l db a)
    (hright : ∀ pfn, a ≤ pfn → pfn < b → PageRight A storedTags l pfn record) :
    FinalBelow A l (db.fill a b record) b := by
  intro pfn hoffset hlt
  simp only [Pfndb.fill]
  by_cases hin : a ≤ pfn ∧ pfn < b
  · rw [if_pos hin]
    exact ⟨record, rfl, hright pfn hin.1 hin.2⟩
  · rw [if_neg hin]
    exact h pfn hoffset (by omega)

/-- What the loop knows after the entries of `done`: they end in the page `a` or before, and the
entries to come start at `a` or behind. -/
structure LoopInv (A : PaddrArch) (l done rest : List MemmapEntry) (db : Pfndb) (a : ℕ) : Prop where
  split : l = done ++ rest
  before : ∀ e ∈ done, e.fin < (a + 1) * A.page
  behind : ∀ e ∈ rest, a * A.page ≤ e.start
  offset : db.offset ≤ a
  limit : ∀ e ∈ l, A.pageUp e.fin ≤ db.limit
  final : FinalBelow A l db a

variable {rest done : List MemmapEntry}

/-- A page from `a` on that starts before the next entry lies in no entry. -/
theorem LoopInv.no_page (h : LoopInv A l done rest db a)
    (ha : a ≤ pfn) (hrest : ∀ e ∈ rest, pfn * A.page < e.start) : ∀ e ∈ l, ¬ e.HasPage A pfn := by
  rintro e he ⟨hstart, hfin⟩
  rw [h.split, mem_append] at he
  rcases he with he | he
  · have hend := h.before e he
    have hpage : (a + 1) * A.page ≤ (pfn + 1) * A.page := mul_le_mul_right _ (by omega)
    omega
  · have := hrest e he
    omega

theorem LoopInv.entry {cur : MemmapEntry} (htidy : Tidy l)
    (hfits : FitsPaddr A l) (h : LoopInv A l done (cur :: rest) db a) :
    ∃ db', constructEntry A db (a * A.page) cur = some (db', A.pageDown cur.fin * A.page) ∧
      db'.offset = db.offset ∧ db'.limit = db.limit ∧
      LoopInv A l (done ++ [cur]) rest db' (A.pageDown cur.fin) := by
  have hcur : cur ∈ l := by rw [h.split]; simp
  have hfin : cur.fin = cur.start + cur.size := rfl
  have hbehind := h.behind cur mem_cons_self
  have hordered := htidy.ordered
  rw [h.split, pairwise_append, pairwise_cons] at hordered
  obtain ⟨-, ⟨hrest, -⟩, hdone⟩ := hordered
  have hstart : a ≤ A.pageUp cur.start :=
    le_of_mul_le_mul_right (hbehind.trans (pageUp_le_iff.mp le_rfl)) A.page_pos
  have hend : cur.fin < (A.pageDown cur.fin + 1) * A.page := pageDown_le_iff.mp le_rfl
  have hdown : A.pageDown cur.fin * A.page ≤ cur.fin := le_pageDown_iff.mp le_rfl
  refine ⟨_, constructEntry_spec (htidy.noWrap cur hcur) (hfits.cast cur hcur)
    (hfits.rounded cur hcur) h.offset
    hstart (h.limit cur hcur), rfl, rfl, by rw [h.split]; simp, ?_, ?_, ?_, h.limit, ?_⟩
  · intro e he
    rcases mem_append.mp he with he | he
    · have := hdone e he cur mem_cons_self
      omega
    · rwa [mem_singleton.mp he]
  · intro e he
    exact hdown.trans (hrest e he)
  · exact h.offset.trans (le_pageDown_iff.mpr (by omega))
  · refine (h.final.fill fun pfn ha hlt => ?_).fill fun pfn ha hlt => ?_
    · refine pageRight_hole (h.no_page ha fun e he => ?_)
      have hbefore := lt_pageUp_iff.mp hlt
      rcases mem_cons.mp he with rfl | he
      · exact hbefore
      · have := hrest e he
        omega
    · exact pageRight_region htidy hcur ⟨pageUp_le_iff.mp ha, lt_pageDown_iff.mp hlt⟩

theorem constructEntries_spec (htidy : Tidy l) (hfits : FitsPaddr A l) (rest : List MemmapEntry) :
    ∀ {done : List MemmapEntry} {db : Pfndb} {a : ℕ}, LoopInv A l done rest db a →
      ∃ db' b, constructEntries A rest db (a * A.page) = some (db', b * A.page) ∧ db'.offset = db.offset ∧
        db'.limit = db.limit ∧ LoopInv A l l [] db' b := by
  induction rest with
  | nil =>
    intro done db a h
    have hdone : done = l := by rw [h.split, append_nil]
    exact ⟨db, a, rfl, rfl, rfl, hdone ▸ h⟩
  | cons cur rest ih =>
    intro done db a h
    obtain ⟨db1, hdb1, hoffset1, hlimit1, h1⟩ := h.entry htidy hfits
    obtain ⟨db2, b, hdb2, hoffset2, hlimit2, h2⟩ := ih h1
    refine ⟨db2, b, ?_, hoffset2.trans hoffset1, hlimit2.trans hlimit1, h2⟩
    simp [constructEntries, hdb1, hdb2]

variable {first : MemmapEntry}

theorem Tidy.head_le (h : Tidy (first :: rest)) : ∀ e ∈ first :: rest, first.start ≤ e.start := by
  intro e he
  rcases mem_cons.mp he with rfl | he
  · exact le_rfl
  · exact (le_add_right _ _).trans ((tidy_cons.mp h).1 e he)

variable {last : MemmapEntry}

theorem Tidy.le_last {init : List MemmapEntry} (h : Tidy (init ++ [last])) :
    ∀ e ∈ init ++ [last], e.fin ≤ last.fin := by
  intro e he
  rcases mem_append.mp he with he | he
  · have hle := (pairwise_append.mp h.ordered).2.2 e he last (mem_singleton.mpr rfl)
    exact hle.trans (le_add_right _ _)
  · rw [mem_singleton.mp he]

section

variable (htidy : Tidy l) (hfits : FitsPaddr A l) (hfirst : l.head? = some first)
  (hlast : l.getLast? = some last)
include htidy hfits hfirst hlast

theorem findPaddrRange_spec :
    findPaddrRange A l = some (A.pageDown first.start * A.page, A.pageUp last.fin * A.page) := by
  have hfm := mem_of_head? hfirst
  have hlm := mem_of_getLast? hlast
  have hle : first.start ≤ first.fin := le_add_right _ _
  rw [findPaddrRange, hfirst, hlast]
  simp [add64_entry (htidy.noWrap last hlm),
    castU64ToPaddr_of_lt (hle.trans_lt (hfits.cast first hfm)),
    castU64ToPaddr_of_lt (hfits.cast last hlm), alignUp_eq (hfits.rounded last hlm), alignDown,
    pageDown]

structure Covers (A : PaddrArch) (l : List MemmapEntry) (db : Pfndb) : Prop where
  lower : ∀ e ∈ l, ∀ x, e.start ≤ x → x < e.fin → db.offset ≤ x / A.page
  upper : ∀ e ∈ l, ∀ x, e.start ≤ x → x < e.fin → x / A.page < db.limit

/-- Before the first page is reserved, every page of the range is final. -/
theorem constructPfndb_spec : ∃ db, constructPfndb A l (A.pageDown first.start * A.page)
    (A.pageUp last.fin * A.page)
        ⟨A.pageDown first.start, A.pageUp last.fin, fun _ => none⟩ = some db ∧
      FinalBelow A l db db.limit ∧ Covers A l db := by
  have hlm := mem_of_getLast? hlast
  obtain ⟨rest, hl⟩ := head?_eq_some_iff.mp hfirst
  obtain ⟨init, hl'⟩ := getLast?_eq_some_iff.mp hlast
  have hlow : ∀ e ∈ l, first.start ≤ e.start := by
    rw [hl]
    exact (hl ▸ htidy).head_le
  have hhigh : ∀ e ∈ l, e.fin ≤ last.fin := by
    rw [hl']
    exact (hl' ▸ htidy).le_last
  have hdown : A.pageDown first.start * A.page ≤ first.start := le_pageDown_iff.mp le_rfl
  have hstart : LoopInv A l [] l ⟨A.pageDown first.start, A.pageUp last.fin, fun _ => none⟩
      (A.pageDown first.start) := by
    refine ⟨rfl, by simp, fun e he => hdown.trans (hlow e he), le_rfl, fun e he => ?_,
      fun pfn h1 h2 => ?_⟩
    · exact Nat.div_le_div_right (Nat.add_le_add_right (hhigh e he) _)
    · exact absurd h2 (Nat.not_lt.mpr h1)
  obtain ⟨db, b, hdb, hoffset, hlimit, h⟩ := constructEntries_spec htidy hfits l hstart
  have hround := hfits.rounded last hlm
  have hup : A.pageUp last.fin * A.page ≤ last.fin + (A.page - 1) := Nat.div_mul_le_self _ _
  have hfill := fillPages_spec .hole (show A.pageUp last.fin * A.page < 2 ^ A.bits by omega)
    (A.pageUp last.fin * A.page)
    (show A.pageUp last.fin ≤ b + A.pageUp last.fin * A.page by
      have := Nat.le_mul_of_pos_right (A.pageUp last.fin) A.page_pos
      omega) h.offset hlimit.ge
  refine ⟨db.fill b (A.pageUp last.fin) .hole, ?_, ?_, ?_, ?_⟩
  · simp [constructPfndb, hdb, hfill]
  · have hfinal := h.final.fill fun pfn ha (_ : pfn < A.pageUp last.fin) =>
      pageRight_hole (h.no_page ha (by simp))
    exact hlimit ▸ hfinal
  · intro e he x hx _
    change db.offset ≤ _
    rw [hoffset]
    exact Nat.div_le_div_right ((hlow e he).trans hx)
  · intro e he x _ hx
    change _ < db.limit
    rw [hlimit, lt_pageUp_iff]
    have hpage : x / A.page * A.page ≤ x := Nat.div_mul_le_self _ _
    have := hhigh e he
    omega

end

/-- Every page of the range has a record, which is free exactly when it is not that of PFN 0 and the
page lies inside a usable entry, and then has the entry's tags; every address of an entry is in the
range. -/
structure PfndbRight (A : PaddrArch) (tagsOf : MemmapEntry → ℕ) (l : List MemmapEntry)
    (db : Pfndb) : Prop where
  covers : Covers A l db
  right : ∀ pfn, db.offset ≤ pfn → pfn < db.limit → ∃ record, db.entries pfn = some record ∧
    (record.free = true ↔ pfn ≠ 0 ∧ ∃ e ∈ l, e.flags = memmapUsable ∧ e.HasPage A pfn) ∧
    (∀ e ∈ l, e.flags = memmapUsable → e.HasPage A pfn → pfn ≠ 0 → record.tags = tagsOf e)

theorem reserveFirstPage_spec (hcovers : Covers A l db) (hfinal : FinalBelow A l db db.limit)
    (hlimit : 0 < db.limit) : ∃ db', reserveFirstPage A db = some db' ∧
    PfndbRight A storedTags l db' := by
  have hright : ∀ pfn, pfn ≠ 0 → db.offset ≤ pfn → pfn < db.limit → ∃ record, db.entries pfn =
    some record ∧
      (record.free = true ↔ pfn ≠ 0 ∧ ∃ e ∈ l, e.flags = memmapUsable ∧ e.HasPage A pfn) ∧
      (∀ e ∈ l, e.flags = memmapUsable → e.HasPage A pfn → pfn ≠ 0 → record.tags = storedTags e) := by
    intro pfn hne hoffset hlt
    obtain ⟨record, hrecord, hpage⟩ := hfinal pfn hoffset hlt
    refine ⟨record, hrecord, ?_, fun e he hflags hin _ => hpage.tags e he hflags hin⟩
    simp [hpage.free, hne]
  unfold reserveFirstPage
  by_cases hoffset : db.offset = 0
  · obtain ⟨record, hrecord, -⟩ := hfinal 0 hoffset.le hlimit
    rw [if_pos hoffset, if_neg hlimit.ne', hrecord]
    simp only
    by_cases hfree : record.usable && !record.inuse
    · have hset : db.set A 0 { record with usable := false, inuse := true } = some { db with
          entries := update db.entries 0 (some { record with usable := false, inuse := true }) } := by
        have hzero : A.paddrToPpfn 0 = 0 := zero_shiftRight _
        rw [Pfndb.set, hzero, if_neg (by omega)]
      rw [if_pos hfree]
      refine ⟨_, hset, ⟨hcovers.lower, hcovers.upper⟩, fun pfn h1 h2 => ?_⟩
      by_cases h0 : pfn = 0
      · subst h0
        refine ⟨{ record with usable := false, inuse := true }, ?_, ?_, ?_⟩
        · simp
        · simp [PfndbEntry.free]
        · exact fun _ _ _ _ hne => absurd rfl hne
      · obtain ⟨r, hr, hrest⟩ := hright pfn h0 h1 h2
        exact ⟨r, (update_of_ne h0 ..).trans hr, hrest⟩
    · rw [if_neg hfree]
      refine ⟨db, rfl, hcovers, fun pfn h1 h2 => ?_⟩
      by_cases h0 : pfn = 0
      · subst h0
        refine ⟨record, hrecord, ⟨fun h => absurd h hfree, fun h => absurd rfl h.1⟩, ?_⟩
        exact fun _ _ _ _ hne => absurd rfl hne
      · exact hright pfn h0 h1 h2
  · rw [if_neg hoffset]
    exact ⟨db, rfl, hcovers, fun pfn h1 h2 => hright pfn (by omega) h1 h2⟩

/-- The PFN database of every memory map whose addresses fit, the last one rounded up as well. -/
theorem pfndb_right (A : PaddrArch) (l : List MemmapEntry) (hne : l ≠ []) (hok : MemmapOk l)
    (hfits : FitsPaddr A l) : ∃ db, initPfndb A l = some db ∧ PfndbRight A storedTags l db := by
  have htidy := (memmapOk_iff_tidy l).mp hok
  obtain ⟨first, hfirst⟩ := isSome_iff_exists.mp (isSome_head?.mpr hne)
  obtain ⟨last, hlast⟩ : ∃ last, l.getLast? = some last := ⟨_, getLast?_eq_some_getLast hne⟩
  obtain ⟨db, hdb, hfinal, hcovers⟩ := constructPfndb_spec htidy hfits hfirst hlast
  have hlm := mem_of_getLast? hlast
  have hsize := htidy.pos last hlm
  have hlimit : 0 < db.limit :=
    (Nat.zero_le _).trans_lt (hcovers.upper last hlm last.start le_rfl (Nat.lt_add_of_pos_right hsize))
  obtain ⟨db', hdb', hright⟩ := reserveFirstPage_spec hcovers hfinal hlimit
  refine ⟨db', ?_, hright⟩
  simp [initPfndb, findPaddrRange_spec htidy hfits hfirst hlast, paddrToPpfn_mul, hdb, hdb']

def paddr32 : PaddrArch := ⟨32, 32, 12, by decide, by decide, by decide⟩

/-- A usable entry of three pages and a half, one in use of less than a page, and a usable entry
behind a gap. -/
def unalignedMap : List MemmapEntry :=
  [⟨0x0, 0x3800, memmapUsable, 3⟩, ⟨0x3800, 0x100, 2, 0⟩, ⟨0x5400, 0x2000, memmapUsable, 1⟩]

theorem pfndb_right_of_unaligned_map : ∃ db, initPfndb paddr32 unalignedMap = some db ∧
      (List.range' db.offset db.limit).map (fun pfn => (db.entries pfn).map fun r => (r.free, r.tags)) =
        [some (false, 3), some (true, 3), some (true, 3), some (false, 0), some (false, 0),
        some (false, 0),
          some (true, 1), some (false, 0)] ∧
      PfndbRight paddr32 storedTags unalignedMap db := by
  have hok : MemmapOk unalignedMap := by
    rw [memmapOk_iff_tidy]
    exact ⟨by decide, by decide, by decide⟩
  obtain ⟨db, hdb, hright⟩ := pfndb_right paddr32 unalignedMap (by decide) hok ⟨by decide, by
    decide⟩
  refine ⟨db, hdb, ?_, hright⟩
  have hrun : (initPfndb paddr32 unalignedMap).map (fun db =>
      (List.range' db.offset db.limit).map fun pfn => (db.entries pfn).map fun r => (r.free, r.tags)) =
      some [some (false, 3), some (true, 3), some (true, 3), some (false, 0), some (false, 0),
        some (false, 0), some (true, 1), some (false, 0)] := by decide +kernel
  rw [hdb] at hrun
  exact some.inj hrun

/-- The record keeps ten bits of the tags, and where the last entry ends in the last page of the
address space its rounded end is 0, so that every PFN is out of range. -/
theorem pfndb_tags_and_top_page :
    (¬ ∀ (A : PaddrArch) (l : List MemmapEntry), l ≠ [] → MemmapOk l → FitsPaddr A l →
      ∃ db, initPfndb A l = some db ∧ PfndbRight A MemmapEntry.tags l db) ∧
    (¬ ∀ (A : PaddrArch) (l : List MemmapEntry), l ≠ [] → MemmapOk l → (∀ e ∈ l, e.fin < 2 ^ A.maxBits) →
      (∀ e ∈ l, e.tags < 2 ^ 10) → ∃ db, initPfndb A l = some db ∧
      PfndbRight A MemmapEntry.tags l db) := by
  constructor
  · intro hall
    have hok : MemmapOk [⟨0x1000, 0x1000, memmapUsable, 0x400⟩] := by
      rw [memmapOk_iff_tidy]
      exact ⟨by decide, by decide, by decide⟩
    obtain ⟨db, hdb, hright⟩ := hall paddr32 _ (by decide) hok ⟨by decide, by decide⟩
    have hrun : (initPfndb paddr32 [⟨0x1000, 0x1000, memmapUsable, 0x400⟩]).map (fun db =>
        (db.offset, db.limit, (db.entries 1).map fun r => r.tags)) = some (1, 2, some 0) := by
          decide +kernel
    rw [hdb, map_some, some.injEq, Prod.mk.injEq, Prod.mk.injEq] at hrun
    obtain ⟨hoffset, hlimit, htags⟩ := hrun
    obtain ⟨record, hrecord, -, hrecordTags⟩ := hright.right 1 hoffset.le (by omega)
    rw [hrecord] at htags
    have hzero : record.tags = 0 := some.inj htags
    have hstored := hrecordTags _ (mem_singleton.mpr rfl) rfl ⟨by decide, by decide⟩ (by decide)
    rw [hzero] at hstored
    exact absurd hstored (by decide)
  · intro hall
    have hok : MemmapOk [⟨0x1000, 0xffffec00, memmapUsable, 1⟩] := by
      rw [memmapOk_iff_tidy]
      exact ⟨by decide, by decide, by decide⟩
    obtain ⟨db, hdb, -⟩ := hall paddr32 _ (by decide) hok (by decide) (by decide)
    have hnone : initPfndb paddr32 [⟨0x1000, 0xffffec00, memmapUsable, 1⟩] = none := by
      have hrun : (initPfndb paddr32 [⟨0x1000, 0xffffec00, memmapUsable, 1⟩]).isNone = true := by
        decide +kernel
      exact isNone_iff_eq_none.mp hrun
    rw [hnone] at hdb
    cases hdb

end Toddler
