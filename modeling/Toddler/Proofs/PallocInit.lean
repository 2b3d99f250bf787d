import Toddler.Spec.PallocInit
import Toddler.Proofs.Palloc

/-! `init_palloc` puts every free frame into a region exactly when no two neighbouring free frames
differ in their tags. The calls of `init_region` are collected in a list first. -/

namespace Toddler

open List Option

variable {c : PallocConfig} {db : ℕ → PfndbEntry} {limit : ℕ}

/-- The calls of `init_region`; the second argument is the start and the tag of the run being
recorded. -/
def scanRegions (db : ℕ → PfndbEntry) (limit : ℕ) : List ℕ → Option (ℕ × ℕ) → List RegionInit
  | [], none => []
  | [], some (start, tag) => [⟨start, limit - start, tag⟩]
  | i :: is, none => if (db i).free then scanRegions db limit is (some (i, (db i).tags))
      else scanRegions db limit is none
  | i :: is, some (start, tag) =>
    if (db i).free = true ∧ tag = (db i).tags then scanRegions db limit is (some (start, tag))
    else ⟨start, i - start, tag⟩ :: scanRegions db limit is none

def InitScan.run (s : InitScan) : Option (ℕ × ℕ) :=
  if s.recording then some (s.curRegionStart, s.curTag) else none

def initFinish (c : PallocConfig) (s : InitScan) : Option Palloc := do
  let s ← if s.recording then initNextRegion c s c.pfnLimit else some s
  some s.palloc

theorem initNextRegion_bind (s : InitScan) (fin : ℕ) (is : List RegionInit)
    {f : InitScan → Option Palloc}
    (hf : ∀ p, f { s with palloc := p, recording := false, regionCount := s.regionCount + 1 } =
      initRegions c is (s.regionCount + 1) p) :
    (initNextRegion c s fin).bind f =
      initRegions c (⟨s.curRegionStart, fin - s.curRegionStart, s.curTag⟩ :: is) s.regionCount
      s.palloc := by
  unfold initNextRegion
  rw [initRegions]
  split_ifs
  · simp only [bind_eq_bind, bind_assoc, bind_some, hf]
  · rfl

theorem scan_eq (c : PallocConfig) (db : ℕ → PfndbEntry) (pfns : List ℕ) : ∀ s : InitScan,
    (pfns.foldlM (initScan c db) s).bind (initFinish c) =
      initRegions c (scanRegions db c.pfnLimit pfns s.run) s.regionCount s.palloc := by
  induction pfns with
  | nil =>
    intro s
    simp only [foldlM_nil, Option.pure_def, Option.bind_some]
    unfold initFinish InitScan.run
    split_ifs with hrec
    · exact initNextRegion_bind s c.pfnLimit [] fun p => rfl
    · rfl
  | cons i is ih =>
    intro s
    simp only [foldlM_cons, Option.bind_eq_bind, Option.bind_assoc, ih]
    have hfree : (db i).free = ((db i).usable && !(db i).inuse) := rfl
    obtain ⟨p, tag, recording, start, count⟩ := s
    cases recording with
    | true =>
      by_cases hgo : (db i).free = true ∧ tag = (db i).tags
      · have hcond : (!(db i).usable || (db i).inuse || tag != (db i).tags) = false := by
          simp_all
        simp [initScan, hcond, InitScan.run, scanRegions, if_pos hgo]
      · have hcond : (!(db i).usable || (db i).inuse || tag != (db i).tags) = true := by
          by_contra hno
          simp_all
        simp only [initScan, hcond, if_true, InitScan.run, scanRegions, if_neg hgo]
        exact initNextRegion_bind _ i _ fun p => rfl
    | false =>
      by_cases hf : (db i).free = true
      · simp [initScan, InitScan.run, scanRegions, hf, ← hfree]
      · simp [initScan, InitScan.run, scanRegions, hf, ← hfree]

/-- The frames from the recorded start up to `i` are free and have the recorded tag. -/
def Recorded (db : ℕ → PfndbEntry) (i : ℕ) (run : Option (ℕ × ℕ)) : Prop :=
  ∀ start tag, run = some (start, tag) → start < i ∧ ∀ x, start ≤ x → x < i → (db x).free = true ∧
    (db x).tags = tag

theorem recorded_none (db : ℕ → PfndbEntry) (i : ℕ) : Recorded db i none := by
  intro start tag h
  cases h

variable {i : ℕ}

theorem recorded_first (h : (db i).free = true) : Recorded db (i + 1) (some (i, (db i).tags)) := by
  rintro start tag heq
  obtain ⟨rfl, rfl⟩ := Prod.mk.inj (Option.some.inj heq)
  refine ⟨Nat.lt_succ_self i, fun x h1 h2 => ?_⟩
  obtain rfl : x = i := by omega
  exact ⟨h, rfl⟩

variable {start tag : ℕ}

theorem Recorded.next (h : Recorded db i (some (start, tag))) (hfree : (db i).free = true)
    (htag : tag = (db i).tags) : Recorded db (i + 1) (some (start, tag)) := by
  rintro start' tag' heq
  obtain ⟨rfl, rfl⟩ := Prod.mk.inj (Option.some.inj heq)
  obtain ⟨hlt, hall⟩ := h start tag rfl
  refine ⟨by omega, fun x h1 h2 => ?_⟩
  rcases Nat.lt_or_ge x i with hx | hx
  · exact hall x h1 hx
  · obtain rfl : x = i := by omega
    exact ⟨hfree, htag.symm⟩

def scanLow (i : ℕ) (run : Option (ℕ × ℕ)) : ℕ := run.elim i Prod.fst

/-- The regions are runs of free frames with one tag, and between two of them there is a frame. -/
structure ScanRuns (db : ℕ → PfndbEntry) (low limit : ℕ) (regions : List RegionInit) : Prop where
  inside : ∀ g ∈ regions, low ≤ g.startPfn ∧ g.fin ≤ limit
  tagged : ∀ g ∈ regions, ∀ x, g.startPfn ≤ x → x < g.fin →
    (db x).free = true ∧ (db x).tags = g.tags
  gaps : regions.Pairwise fun g h => g.fin < h.startPfn

variable {regions : List RegionInit}

theorem ScanRuns.mono {low low' : ℕ} (h : ScanRuns db low limit regions)
    (hle : low' ≤ low) : ScanRuns db low' limit regions :=
  ⟨fun g hg => ⟨hle.trans (h.inside g hg).1, (h.inside g hg).2⟩, h.tagged, h.gaps⟩

/-- The run that ends at `i` comes before the regions found from `i + 1` on. -/
theorem ScanRuns.cons (h : ScanRuns db (i + 1) limit regions)
    (hrec : Recorded db i (some (start, tag))) (hi : i ≤ limit) :
    ScanRuns db start limit (⟨start, i - start, tag⟩ :: regions) := by
  obtain ⟨hlt, hall⟩ := hrec start tag rfl
  have hfin : RegionInit.fin ⟨start, i - start, tag⟩ = i := by
    simp only [RegionInit.fin]
    omega
  refine ⟨fun g hg => ?_, fun g hg => ?_, pairwise_cons.mpr ⟨fun g hg => ?_, h.gaps⟩⟩
  · rcases mem_cons.mp hg with rfl | hg
    · exact ⟨le_rfl, hfin.trans_le hi⟩
    · have := h.inside g hg
      omega
  · rcases mem_cons.mp hg with rfl | hg
    · rw [hfin]
      exact hall
    · exact h.tagged g hg
  · have := h.inside g hg
    omega

theorem scanRegions_runs (n : ℕ) :
    ∀ (i : ℕ) (run : Option (ℕ × ℕ)), i + n = limit → Recorded db i run →
    ScanRuns db (scanLow i run) limit (scanRegions db limit (range' i n) run) := by
  have hnil : ∀ low, ScanRuns db low limit [] := fun low =>
    ⟨fun g hg => absurd hg not_mem_nil, fun g hg => absurd hg not_mem_nil, List.Pairwise.nil⟩
  induction n with
  | zero =>
    intro i run hi hrec
    cases run with
    | none => exact hnil _
    | some r =>
      obtain rfl : i = limit := by omega
      exact (hnil _).cons hrec le_rfl
  | succ n ih =>
    intro i run hi hrec
    rw [range'_succ]
    cases run with
    | none =>
      rw [scanRegions]
      split_ifs with hf
      · exact ih (i + 1) _ (by omega) (recorded_first hf)
      · exact (ih (i + 1) none (by omega) (recorded_none db _)).mono (Nat.le_succ i)
    | some r =>
      rw [scanRegions]
      split_ifs with hgo
      · exact ih (i + 1) _ (by omega) (hrec.next hgo.1 hgo.2)
      · exact (ih (i + 1) none (by omega) (recorded_none db _)).cons hrec (by omega)

/-- A run that is followed by a frame with the same tag goes on. -/
theorem Recorded.ends_at_used (h : Recorded db i (some (start, tag)))
    (hcont : ∀ j, start ≤ j → j + 1 = i → (db j).free = true → (db i).free = true →
    (db j).tags = (db i).tags)
    (hgo : ¬ ((db i).free = true ∧ tag = (db i).tags)) : (db i).free = false := by
  obtain ⟨hlt, hall⟩ := h start tag rfl
  obtain ⟨hfree, htag⟩ := hall (i - 1) (by omega) (by omega)
  by_contra hi
  have hi' : (db i).free = true := by simpa using hi
  exact hgo ⟨hi', htag.symm.trans (hcont (i - 1) (by omega) (by omega) hfree hi')⟩

/-- With continuing tags no free frame is lost, and the sizes add up. -/
theorem scanRegions_complete (n : ℕ) :
    ∀ (i : ℕ) (run : Option (ℕ × ℕ)), i + n = limit → Recorded db i run →
    (∀ j, scanLow i run ≤ j → j + 1 < limit → (db j).free = true → (db (j + 1)).free = true →
      (db j).tags = (db (j + 1)).tags) →
    (∀ x, scanLow i run ≤ x → x < limit → (db x).free = true →
      ∃ g ∈ scanRegions db limit (range' i n) run, g.startPfn ≤ x ∧ x < g.fin) ∧
    ((scanRegions db limit (range' i n) run).map RegionInit.count).sum =
      (i - scanLow i run) + (range' i n).countP fun x => (db x).free := by
  induction n with
  | zero =>
    intro i run hi hrec _
    cases run with
    | none =>
      refine ⟨fun x h1 h2 => ?_, ?_⟩
      · simp only [scanLow, elim_none] at h1
        omega
      · simp [scanRegions, scanLow]
    | some r =>
      obtain rfl : i = limit := by omega
      refine ⟨fun x h1 h2 _ => ⟨_, mem_cons_self, h1, ?_⟩, ?_⟩
      · simp only [RegionInit.fin]
        omega
      · simp [scanRegions, scanLow]
  | succ n ih =>
    intro i run hi hrec hcont
    rw [range'_succ, countP_cons]
    cases run with
    | none =>
      simp only [scanLow, elim_none] at hcont ⊢
      rw [scanRegions]
      split_ifs with hf
      · obtain ⟨hcov, hsum⟩ := ih (i + 1) (some (i, (db i).tags)) (by omega) (recorded_first hf) hcont
        refine ⟨hcov, hsum.trans ?_⟩
        simp only [scanLow, elim_some]
        omega
      · obtain ⟨hcov, hsum⟩ := ih (i + 1) none (by omega) (recorded_none db _) fun j hj =>
          hcont j (by simp only [scanLow, elim_none] at hj; omega)
        refine ⟨fun x h1 h2 hx => hcov x ?_ h2 hx, hsum.trans ?_⟩
        · rcases Nat.eq_or_lt_of_le h1 with rfl | h
          · exact absurd hx hf
          · exact h
        · simp only [scanLow, elim_none]
          omega
    | some r =>
      obtain ⟨start, tag⟩ := r
      simp only [scanLow, elim_some] at hcont ⊢
      obtain ⟨hlt, -⟩ := hrec start tag rfl
      rw [scanRegions]
      split_ifs with hgo hf
      · obtain ⟨hcov, hsum⟩ := ih (i + 1) (some (start, tag)) (by omega) (hrec.next hgo.1 hgo.2) hcont
        refine ⟨hcov, hsum.trans ?_⟩
        simp only [scanLow, elim_some]
        omega
      · exact absurd hgo.1 hf
      · have hused := hrec.ends_at_used (fun j h1 h2 => h2 ▸ hcont j h1 (by omega)) hgo
        simp_all
      · have hused := hrec.ends_at_used (fun j h1 h2 => h2 ▸ hcont j h1 (by omega)) hgo
        obtain ⟨hcov, hsum⟩ := ih (i + 1) none (by omega) (recorded_none db _) fun j hj =>
          hcont j (by simp only [scanLow, elim_none] at hj; omega)
        refine ⟨fun x h1 h2 hx => ?_, ?_⟩
        · rcases Nat.lt_trichotomy x i with h | rfl | h
          · refine ⟨_, mem_cons_self, h1, ?_⟩
            simp only [RegionInit.fin]
            omega
          · exact absurd hx (by simp [hused])
          · obtain ⟨g, hg, hgx⟩ := hcov x h h2 hx
            exact ⟨g, mem_cons_of_mem _ hg, hgx⟩
        · rw [map_cons, sum_cons, hsum]
          simp only [scanLow, elim_none]
          omega

/-- A run counts once more when its first frame lies behind the scan. -/
def pendingRun (c : PallocConfig) (db : ℕ → PfndbEntry) (i : ℕ) (run : Option (ℕ × ℕ)) : ℕ :=
  if run.isSome = true ∨ (c.pfnStart < i ∧ (db (i - 1)).free = true) then 1 else 0

theorem pendingRun_le (c : PallocConfig) (db : ℕ → PfndbEntry) (i : ℕ) (run : Option (ℕ × ℕ)) :
    pendingRun c db i run ≤ 1 := by
  unfold pendingRun
  split_ifs <;> omega

theorem pendingRun_used (h : (db i).free = false) : pendingRun c db (i + 1) none = 0 := by
  simp [pendingRun, h]

/-- A region takes a run, or what is left of one whose first frame was lost. -/
theorem scanRegions_length (c : PallocConfig) (db : ℕ → PfndbEntry) (limit n : ℕ) :
    ∀ (i : ℕ) (run : Option (ℕ × ℕ)), c.pfnStart ≤ scanLow i run → Recorded db i run →
      (scanRegions db limit (range' i n) run).length ≤
        (range' i n).countP (startsRun c db) + pendingRun c db i run := by
  induction n with
  | zero =>
    intro i run _ _
    cases run with
    | none => simp [scanRegions]
    | some r => simp [scanRegions, pendingRun]
  | succ n ih =>
    intro i run hlow hrec
    rw [range'_succ, countP_cons]
    cases run with
    | none =>
      simp only [scanLow, elim_none] at hlow
      rw [scanRegions]
      by_cases hf : (db i).free = true
      · have hnext := ih (i + 1) (some (i, (db i).tags)) hlow (recorded_first hf)
        have hone := pendingRun_le c db (i + 1) (some (i, (db i).tags))
        have hstart : 1 ≤ (if startsRun c db i = true then 1 else 0) + pendingRun c db i none := by
          by_cases hp : c.pfnStart < i ∧ (db (i - 1)).free = true
          · simp [pendingRun, hp]
          · have hs : startsRun c db i = true := by
              simp only [startsRun, hf, Bool.true_and, Bool.or_eq_true, beq_iff_eq]
              rcases Nat.eq_or_lt_of_le hlow with h | h
              · exact Or.inl (Or.inl h.symm)
              · exact Or.inl (Or.inr (by simpa using fun hfree => hp ⟨h, hfree⟩))
            rw [if_pos hs]
            omega
        rw [if_pos hf]
        omega
      · have hnext := ih (i + 1) none (by simp only [scanLow, elim_none]; omega) (recorded_none db _)
        rw [pendingRun_used (by simpa using hf)] at hnext
        rw [if_neg hf]
        omega
    | some r =>
      obtain ⟨start, tag⟩ := r
      simp only [scanLow, elim_some] at hlow
      obtain ⟨hlt, hall⟩ := hrec start tag rfl
      have hpend : pendingRun c db i (some (start, tag)) = 1 := by simp [pendingRun]
      have hnone := ih (i + 1) none (by simp only [scanLow, elim_none]; omega) (recorded_none db _)
      rw [scanRegions]
      by_cases hgo : (db i).free = true ∧ tag = (db i).tags
      · have hnext := ih (i + 1) (some (start, tag)) hlow (hrec.next hgo.1 hgo.2)
        have hone := pendingRun_le c db (i + 1) (some (start, tag))
        rw [if_pos hgo]
        omega
      · rw [if_neg hgo, length_cons]
        by_cases hf : (db i).free = true
        · -- the frame that ends the run begins the next one
          have hs : startsRun c db i = true := by
            have htag : (db (i - 1)).tags = tag := (hall (i - 1) (by omega) (by omega)).2
            have hne : tag ≠ (db i).tags := fun h => hgo ⟨hf, h⟩
            simp [startsRun, hf, htag, hne]
          have hone := pendingRun_le c db (i + 1) none
          rw [if_pos hs]
          omega
        · rw [pendingRun_used (by simpa using hf)] at hnone
          omega

def initList (c : PallocConfig) (db : ℕ → PfndbEntry) : List RegionInit :=
  scanRegions db c.pfnLimit (range' c.pfnStart (c.pfnLimit - c.pfnStart)) none

theorem initList_runs (c : PallocConfig) (db : ℕ → PfndbEntry) :
    ScanRuns db c.pfnStart c.pfnLimit (initList c db) := by
  unfold initList
  rcases Nat.le_total c.pfnStart c.pfnLimit with h | h
  · exact scanRegions_runs _ c.pfnStart none (by omega) (recorded_none db _)
  · rw [Nat.sub_eq_zero_of_le h]
    exact ⟨fun g hg => absurd hg not_mem_nil, fun g hg => absurd hg not_mem_nil, List.Pairwise.nil⟩

theorem initList_fit (h : numRuns c db ≤ 32) : RegionsFit c (initList c db) := by
  have hruns := initList_runs c db
  refine ⟨?_, hruns.inside, hruns.gaps.imp fun {g h} hgap x hx => ?_⟩
  · have hlen := scanRegions_length c db c.pfnLimit (c.pfnLimit - c.pfnStart) c.pfnStart none le_rfl
      (recorded_none db _)
    have hpend : pendingRun c db c.pfnStart none = 0 := by simp [pendingRun]
    rw [hpend] at hlen
    exact hlen.trans h
  · omega

variable {s : Palloc}

theorem BuddyInv.inRegion_iff {lo hi : RegionId → ℕ} {fr : RegionId → ℕ → List ℕ}
    (h : BuddyInv c lo hi s fr [] []) (r : RegionId) (x : ℕ) :
    InRegion c s r x ↔ lo r ≤ x ∧ x < hi r := by
  have hlist : buddyList c s = fr := funext fun r => funext fun k => h.buddyList_eq r k
  have htiling := h.tiled.tiling r
  simp only [append_nil, regionBlocks, filter_nil] at htiling
  unfold InRegion
  rw [hlist]
  constructor
  · rintro ⟨b, hb, hx⟩
    exact htiling.inside hb hx
  · exact fun hx => htiling.exists_block hx

theorem sum_getElem? (f : RegionInit → ℕ) (l : List RegionInit) : ∀ n, l.length ≤ n →
    ∑ r : Fin n, (l[r.val]?).elim 0 f = (l.map f).sum := by
  induction l with
  | nil => intro n _; simp
  | cons g l ih =>
    intro n hn
    obtain ⟨n, rfl⟩ : ∃ m, n = m + 1 := ⟨n - 1, by rw [length_cons] at hn; omega⟩
    rw [Fin.sum_univ_succ, map_cons]
    have hrest := ih n (by rw [length_cons] at hn; omega)
    simpa using hrest

structure InitState (c : PallocConfig) (db : ℕ → PfndbEntry) (s : Palloc) : Prop where
  inRegion : ∀ r x, InRegion c s r x ↔ ∃ g, (initList c db)[r.val]? = some g ∧ g.startPfn ≤ x ∧
    x < g.fin
  unique : ∀ r r' x, InRegion c s r x → InRegion c s r' x → r = r'
  tags : ∀ r g, (initList c db)[r.val]? = some g → (s.regions r).tags = g.tags
  total : ∑ r, (s.regions r).totalPages = ((initList c db).map RegionInit.count).sum

theorem initPalloc_state (c : PallocConfig) (db : ℕ → PfndbEntry) (h : numRuns c db ≤ 32) :
    ∃ s, initPalloc c db = some s ∧ InitState c db s := by
  have hfit := initList_fit h
  obtain ⟨s, fr, hs, hinv, -, -, hheads⟩ := initRegions_fit hfit
  have hhead r : s.heads r = ((initList c db)[r.val]?).elim (0, 0) fun i => (i.tags, i.count) := by
    rw [hheads]
    unfold initHeads
    by_cases hr : r.val < (initList c db).length
    · rw [if_pos hr]
    · rw [if_neg hr, getElem?_eq_none (by omega)]
      rfl
  refine ⟨s, (scan_eq c db _ ⟨.zero, 0, false, 0, 0⟩).trans hs, fun r x => ?_,
    fun r r' x hx hx' => ?_, fun r g hg => ?_, ?_⟩
  · rw [hinv.inRegion_iff, regionLo, regionHi]
    cases (initList c db)[r.val]? <;> simp
  · exact hinv.tiled.apart r r' x ((hinv.inRegion_iff r x).mp hx) ((hinv.inRegion_iff r' x).mp hx')
  · have := congrArg Prod.fst (hhead r)
    rwa [hg] at this
  · rw [← sum_getElem? RegionInit.count _ 32 hfit.count_le]
    refine Finset.sum_congr rfl fun r _ => ?_
    have := congrArg Prod.snd (hhead r)
    rw [show (s.heads r).2 = (s.regions r).totalPages from rfl] at this
    rw [this]
    cases (initList c db)[r.val]? with
    | none => rfl
    | some g => rfl

theorem InitState.complete (h : InitState c db s) (hlen : (initList c db).length ≤ 32)
    (hcont : TagsContinue c db) : InitComplete c db s := by
  have hruns := initList_runs c db
  have hall : (∀ x, c.pfnStart ≤ x → x < c.pfnLimit → (db x).free = true →
      ∃ g ∈ initList c db, g.startPfn ≤ x ∧ x < g.fin) ∧
      ((initList c db).map RegionInit.count).sum =
        (range' c.pfnStart (c.pfnLimit - c.pfnStart)).countP fun x => (db x).free := by
    rcases Nat.le_total c.pfnStart c.pfnLimit with hle | hle
    · obtain ⟨hcov, hsum⟩ := scanRegions_complete (c.pfnLimit - c.pfnStart) c.pfnStart
        none (by omega) (recorded_none db _) hcont
      refine ⟨hcov, hsum.trans ?_⟩
      simp [scanLow]
    · refine ⟨fun x h1 h2 => by omega, ?_⟩
      rw [initList, Nat.sub_eq_zero_of_le hle]
      rfl
  refine ⟨fun x h1 h2 hx => ?_, fun r x hx => ?_, fun r x hx => ?_, h.total.trans hall.2⟩
  · obtain ⟨g, hg, hgx⟩ := hall.1 x h1 h2 hx
    obtain ⟨j, hj⟩ := List.mem_iff_getElem?.mp hg
    have hlt : j < (initList c db).length := (List.getElem?_eq_some_iff.mp hj).1
    have hin := (h.inRegion ⟨j, by omega⟩ x).mpr ⟨g, hj, hgx⟩
    exact ⟨⟨j, by omega⟩, hin, fun r hr => h.unique _ _ x hr hin⟩
  · obtain ⟨g, hg, h1, h2⟩ := (h.inRegion r x).mp hx
    rw [h.tags r g hg]
    exact (hruns.tagged g (List.mem_of_getElem? hg) x h1 h2).2.symm
  · obtain ⟨g, hg, h1, h2⟩ := (h.inRegion r x).mp hx
    have hmem := mem_of_getElem? hg
    have hin := hruns.inside g hmem
    exact ⟨by omega, by omega, (hruns.tagged g hmem x h1 h2).1⟩

/-- Two neighbours in different regions would leave no frame between the regions. -/
theorem InitState.continues (h : InitState c db s) (hcomplete : InitComplete c db s) :
    TagsContinue c db := by
  intro i h1 h2 hf hf'
  by_contra hne
  obtain ⟨r, hr, -⟩ := hcomplete.covered i h1 (by omega) hf
  obtain ⟨r', hr', -⟩ := hcomplete.covered (i + 1) (by omega) h2 hf'
  obtain ⟨g, hg, hgx⟩ := (h.inRegion r i).mp hr
  obtain ⟨g', hg', hgx'⟩ := (h.inRegion r' (i + 1)).mp hr'
  have hruns := initList_runs c db
  have hgaps := List.pairwise_iff_getElem.mp hruns.gaps
  obtain ⟨hlt, hget⟩ := List.getElem?_eq_some_iff.mp hg
  obtain ⟨hlt', hget'⟩ := List.getElem?_eq_some_iff.mp hg'
  have htag := (hruns.tagged g (List.mem_of_getElem? hg) i hgx.1 hgx.2).2
  have htag' := (hruns.tagged g' (List.mem_of_getElem? hg') (i + 1) hgx'.1 hgx'.2).2
  rcases Nat.lt_trichotomy r.val r'.val with hlt'' | heq | hgt
  · have := hgaps r.val r'.val hlt hlt' hlt''
    rw [hget, hget'] at this
    omega
  · rw [heq] at hg
    obtain rfl : g = g' := Option.some.inj (hg.symm.trans hg')
    exact hne (htag.trans htag'.symm)
  · have := hgaps r'.val r.val hlt' hlt hgt
    rw [hget, hget'] at this
    omega

/-- No frame is left out exactly when the tags of neighbouring free frames are equal. -/
theorem init_palloc_complete_iff (c : PallocConfig) (db : ℕ → PfndbEntry) (h : numRuns c db ≤ 32) :
    (∃ s, initPalloc c db = some s ∧ InitComplete c db s) ↔ TagsContinue c db := by
  obtain ⟨s, hs, hstate⟩ := initPalloc_state c db h
  constructor
  · rintro ⟨s', hs', hcomplete⟩
    obtain rfl : s = s' := Option.some.inj (hs.symm.trans hs')
    exact hstate.continues hcomplete
  · exact fun hcont => ⟨s, hs, hstate.complete (initList_fit h).count_le hcont⟩

def sevenFrames : PallocConfig := ⟨1, 8, by decide⟩

/-- Frame 4 is in use; the runs before and after it differ in their tags. -/
theorem init_palloc_complete_two_runs :
    ∃ s, initPalloc sevenFrames (fun i => ⟨true, if i < 4 then 1 else 2, i == 4⟩) = some s ∧
      InitComplete sevenFrames (fun i => ⟨true, if i < 4 then 1 else 2, i == 4⟩) s := by
  refine (init_palloc_complete_iff sevenFrames _ (by decide)).mpr fun i h1 h2 hf hf' => ?_
  simp only [PfndbEntry.free, Bool.true_and, Bool.not_eq_true', beq_eq_false_iff_ne] at hf'
  simp only
  split_ifs <;> omega

/-- Two neighbouring runs: the first frame of the second run, frame 4, is in no region. -/
theorem init_palloc_loses_frame : ¬ ∀ (c : PallocConfig) (db : ℕ → PfndbEntry), numRuns c db ≤ 32 →
      ∃ s, initPalloc c db = some s ∧ InitComplete c db s := by
  intro h
  obtain ⟨s, hs, hcomplete⟩ := h sevenFrames (fun i => ⟨true, if i < 4 then 1 else 2,
    false⟩) (by decide)
  obtain ⟨s', hs', hstate⟩ := initPalloc_state sevenFrames (fun i => ⟨true, if i < 4 then 1 else 2,
    false⟩) (by decide)
  obtain rfl : s = s' := Option.some.inj (hs.symm.trans hs')
  have htags := hstate.continues hcomplete 3 (by decide) (by decide) rfl rfl
  exact absurd htags (by decide)

end Toddler
