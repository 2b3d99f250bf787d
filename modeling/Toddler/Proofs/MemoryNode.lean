import Mathlib.Order.Bounds.Basic
import Toddler.Spec.MemoryNode

/-! The limits of physical memory discovery. The loop claims the parts of the regions above the
start, in order, until `memsize` bytes are reached. The adjustment sets `memsize` to the end of the
range and not to its length, and nothing else looks at the end of the range; a region that begins
below the start does not count as found. -/

namespace Toddler.MemoryNode

open List Nat Discovery

def bytes (l : List (ℕ × ℕ)) : ℕ := (l.map Prod.snd).sum

def Claimed (claims : List (ℕ × ℕ)) (x : ℕ) : Prop := ∃ p ∈ claims, p.1 ≤ x ∧ x < p.1 + p.2

/-- The claims keep to the range, to the firmware's start and to its size, if that is not 0, and
`memstart` is the lowest claimed address, if there is one. -/
structure Respects (c : MemoryLimits) (r : Discovered) : Prop where
  lower : ∀ x, Claimed r.claims x → c.physMemRangeMin ≤ x ∧ c.fwMemstart.getD 0 ≤ x
  upper : c.physMemRangeMax ≠ 0 → ∀ x, Claimed r.claims x → x < c.physMemRangeMax
  size : c.fwMemsize.getD 0 ≠ 0 → bytes r.claims ≤ c.fwMemsize.getD 0
  start : ∀ x, Claimed r.claims x → IsLeast {y | Claimed r.claims y} r.memstart

def above (base : ℕ) (r : ℕ × ℕ) : Option (ℕ × ℕ) :=
  if r.2 = 0 ∨ add64 r.1 r.2 ≤ base then none
  else if r.1 < base then some (base, r.2 - (base - r.1))
  else some r

def Opens (base : ℕ) (r : ℕ × ℕ) : Prop := (above base r).isSome = true ∧ base ≤ r.1

/-- The parts of the regions above the start, in order. The first region that does not begin below
the start moves it to its own address. -/
def parts : Bool → ℕ → List (ℕ × ℕ) → List (ℕ × ℕ)
  | _, _, [] => []
  | found, base, r :: rest =>
    match above base r with
    | none => parts found base rest
    | some p =>
      p :: parts (found || decide (base ≤ r.1)) (if base ≤ r.1 ∧ found = false then r.1 else base) rest

/-- The parts up to `limit` bytes with `t` bytes before them, as the loop cuts them. -/
def cut (limit : ℕ) : ℕ → List (ℕ × ℕ) → List (ℕ × ℕ)
  | _, [] => []
  | t, p :: rest =>
    let size := if limit ≠ 0 ∧ limit < add64 t p.2 then sub64 limit t else p.2
    (p.1, size) :: if limit = 0 ∨ add64 t size < limit then cut limit (add64 t size) rest else []

variable {limit base t : ℕ} {r p q : ℕ × ℕ}

theorem above_of_lt (hr : r.1 < word) (hbase : base < word) (h : ¬ (r.2 = 0 ∨ add64 r.1 r.2 ≤ base))
    (hr2 : r.2 < word) (hlt : r.1 < base) :
    sub64 r.2 (sub64 base r.1) = r.2 - (base - r.1) ∧ base - r.1 < r.2 := by
  push Not at h
  have hsum : base < r.1 + r.2 := by
    rcases add64_cases hr hr2 with ⟨-, heq⟩ | ⟨-, heq⟩ <;> omega
  rw [sub64_of_le hlt.le hbase, sub64_of_le (by omega) hr2]
  exact ⟨rfl, by omega⟩

theorem le_above (h : above base r = some p) : base ≤ p.1 := by
  unfold above at h
  split_ifs at h with hskip hlt
  · cases h
    exact le_rfl
  · cases h
    exact Nat.le_of_not_lt hlt

theorem above_pos (hr : r.1 < word) (hr2 : r.2 < word) (hbase : base < word)
    (h : above base r = some p) : 0 < p.2 ∧ p.2 < word := by
  unfold above at h
  split_ifs at h with hskip hlt
  · have := (above_of_lt hr hbase hskip hr2 hlt).2
    cases h
    omega
  · cases h
    push Not at hskip
    omega

theorem region_eq (s : Discovery) (hbase : s.memstart < word) (hr : r.1 < word) (hr2 : r.2 < word) :
    s.region limit r.1 r.2 = match above s.memstart r with
      | none => s
      | some p => { s with
          memstart := if s.memstart ≤ r.1 ∧ s.memstartFound = false then r.1 else s.memstart
          memstartFound := s.memstartFound || decide (s.memstart ≤ r.1) }.claim limit p.1 p.2 := by
  unfold region above
  by_cases hskip : r.2 = 0 ∨ add64 r.1 r.2 ≤ s.memstart
  · rw [if_pos hskip]
    rcases hskip with h | h
    · rw [if_pos h]
    · rw [if_pos h]
      split_ifs <;> rfl
  · rw [if_neg hskip]
    have hskip' := hskip
    push Not at hskip'
    rw [if_neg hskip'.1, if_neg (not_le.mpr hskip'.2)]
    by_cases hlt : r.1 < s.memstart
    · rw [if_pos hlt, if_pos hlt, (above_of_lt hr hbase hskip hr2 hlt).1]
      have hnot : ¬ s.memstart ≤ r.1 := by omega
      simp [hnot]
    · have hle : s.memstart ≤ r.1 := by omega
      rw [if_neg hlt, if_neg hlt]
      obtain ⟨memstart, found, total, claims⟩ := s
      cases found <;> simp [hle]

def Words (regions : List (ℕ × ℕ)) : Prop := ∀ r ∈ regions, r.1 < word ∧ r.2 < word

instance Words.decidable (regions : List (ℕ × ℕ)) : Decidable (Words regions) :=
  inferInstanceAs (Decidable (∀ r ∈ regions, _))

theorem loop_claims (regions : List (ℕ × ℕ)) (hw : Words regions) : ∀ s :
    Discovery, s.memstart < word → (limit = 0 ∨ s.sizeUpToNow < limit) →
    (loop limit regions s).claims =
    s.claims ++ cut limit s.sizeUpToNow (parts s.memstartFound s.memstart regions) := by
  induction regions with
  | nil => intro s _ _; simp [loop, parts, cut]
  | cons r rest ih =>
    intro s hbase hgo
    obtain ⟨hr, hrest⟩ := forall_mem_cons.mp hw
    simp only [loop]
    rw [region_eq s hbase hr.1 hr.2, parts]
    cases hpart : above s.memstart r with
    | none =>
      rw [if_pos hgo, ih hrest s hbase hgo]
    | some p =>
      simp only [cut]
      have hnext : (if s.memstart ≤ r.1 ∧ s.memstartFound = false then r.1 else s.memstart) < word := by
        split_ifs <;> omega
      by_cases hgo' : limit = 0 ∨ add64 s.sizeUpToNow
          (if limit ≠ 0 ∧ limit < add64 s.sizeUpToNow p.2 then sub64 limit s.sizeUpToNow else p.2) < limit
      · rw [if_pos hgo']
        refine (congrArg claims (if_pos hgo')).trans ?_
        rw [ih hrest _ hnext hgo']
        simp [claim]
      · rw [if_neg hgo']
        exact congrArg claims (if_neg hgo')

/-- With `t₀` bytes before the list, `p` comes after `t` bytes, and the limit is not reached before
it. -/
def Reached (limit t₀ : ℕ) (l : List (ℕ × ℕ)) (t : ℕ) (p : ℕ × ℕ) : Prop :=
  ∃ pre post, l = pre ++ p :: post ∧ t = t₀ + bytes pre ∧ (limit = 0 ∨ t < limit)

variable {l : List (ℕ × ℕ)}

@[simp] theorem bytes_nil : bytes [] = 0 := rfl

@[simp] theorem bytes_cons : bytes (p :: l) = p.2 + bytes l := by simp [bytes]

@[simp] theorem bytes_append (l l' : List (ℕ × ℕ)) : bytes (l ++ l') = bytes l + bytes l' := by
  simp [bytes]

variable {t₀ : ℕ}

theorem not_reached_nil : ¬ Reached limit t₀ [] t p := by
  rintro ⟨pre, post, h, -⟩
  simp at h

theorem reached_cons : Reached limit t₀ (q :: l) t p ↔
    (p = q ∧ t = t₀ ∧ (limit = 0 ∨ t₀ < limit)) ∨ Reached limit (t₀ + q.2) l t p := by
  constructor
  · rintro ⟨pre, post, h, rfl, hlimit⟩
    cases pre with
    | nil =>
      obtain ⟨rfl, rfl⟩ := List.cons.inj h
      exact Or.inl ⟨rfl, rfl, hlimit⟩
    | cons q' pre =>
      obtain ⟨rfl, rfl⟩ := List.cons.inj h
      refine Or.inr ⟨pre, post, rfl, ?_, hlimit⟩
      rw [bytes_cons, add_assoc]
  · rintro (⟨rfl, rfl, hlimit⟩ | ⟨pre, post, rfl, rfl, hlimit⟩)
    · exact ⟨[], l, rfl, rfl, hlimit⟩
    · refine ⟨q :: pre, post, rfl, ?_, hlimit⟩
      rw [bytes_cons, add_assoc]

theorem Reached.lt (h : Reached limit t₀ l t p) (hlimit : limit ≠ 0) : t₀ ≤ t ∧ t < limit := by
  obtain ⟨pre, post, -, rfl, h0 | hlt⟩ := h
  · exact absurd h0 hlimit
  · exact ⟨le_add_right _ _, hlt⟩

theorem cut_zero : ∀ t, cut 0 t l = l := by
  induction l with
  | nil => intro t; rfl
  | cons p l ih => intro t; simp [cut, ih]

/-- One part, where the running total does not overflow. -/
theorem cut_cons (hlimit : limit ≠ 0) (hword : limit < word) (ht : t < limit)
    (hp : t + p.2 < word) : cut limit t (p :: l) = (p.1, min p.2 (limit - t)) :: if t + p.2 < limit
    then cut limit (t + p.2) l else [] := by
  simp only [cut, add64_of_lt hp]
  by_cases hover : limit < t + p.2
  · have hsize : (if limit ≠ 0 ∧ limit < t + p.2 then sub64 limit t else p.2) = limit - t := by
      rw [if_pos ⟨hlimit, hover⟩, sub64_of_le ht.le hword]
    have hstop : ¬ add64 t (limit - t) < limit := by
      rw [add64_of_lt (by omega)]
      omega
    rw [hsize, if_neg (by simp only [hlimit, false_or]; exact hstop), if_neg (by omega),
      min_eq_right (by omega)]
  · have hsize : (if limit ≠ 0 ∧ limit < t + p.2 then sub64 limit t else p.2) = p.2 := if_neg (by tauto)
    rw [hsize, add64_of_lt hp, min_eq_left (by omega)]
    simp [hlimit]

/-- No running total overflows before the limit is reached. -/
def NoOverflow (limit t₀ : ℕ) (l : List (ℕ × ℕ)) : Prop :=
  ∀ t p, Reached limit t₀ l t p → t + p.2 < word

theorem NoOverflow.head (h : NoOverflow limit t (p :: l)) (ht : t < limit) : t + p.2 < word :=
  h t p (reached_cons.mpr (Or.inl ⟨rfl, rfl, Or.inr ht⟩))

theorem NoOverflow.tail (h : NoOverflow limit t (p :: l)) : NoOverflow limit (t + p.2) l :=
  fun t' p' hr => h t' p' (reached_cons.mpr (Or.inr hr))

section

variable (hlimit : limit ≠ 0) (hword : limit < word)
include hlimit hword

theorem mem_cut : ∀ {t₀}, t₀ < limit →
    NoOverflow limit t₀ l → (q ∈ cut limit t₀ l ↔ ∃ t p, Reached limit t₀ l t p ∧ q = (p.1,
    min p.2 (limit - t))) := by
  induction l with
  | nil =>
    intro t₀ _ _
    simp [cut, not_reached_nil]
  | cons p l ih =>
    intro t₀ ht hno
    rw [cut_cons hlimit hword ht (hno.head ht), mem_cons]
    simp only [reached_cons]
    constructor
    · rintro (rfl | hmem)
      · exact ⟨t₀, p, Or.inl ⟨rfl, rfl, Or.inr ht⟩, rfl⟩
      · split_ifs at hmem with hgo
        · obtain ⟨t, p', hr, hq⟩ := (ih hgo hno.tail).mp hmem
          exact ⟨t, p', Or.inr hr, hq⟩
        · cases hmem
    · rintro ⟨t, p', ⟨rfl, rfl, -⟩ | hr, rfl⟩
      · exact Or.inl rfl
      · have hgo : t₀ + p.2 < limit := (hr.lt hlimit).1.trans_lt (hr.lt hlimit).2
        rw [if_pos hgo]
        exact Or.inr ((ih hgo hno.tail).mpr ⟨t, p', hr, rfl⟩)

theorem bytes_cut : ∀ {t₀}, t₀ < limit →
    NoOverflow limit t₀ l → bytes (cut limit t₀ l) = min (bytes l) (limit - t₀) := by
  induction l with
  | nil => intro t₀ _ _; simp [cut]
  | cons p l ih =>
    intro t₀ ht hno
    rw [cut_cons hlimit hword ht (hno.head ht), bytes_cons, bytes_cons]
    split_ifs with hgo
    · rw [ih hgo hno.tail]
      omega
    · rw [bytes_nil]
      omega

/-- Where a running total overflows, the part is not cut and the claims exceed every machine
word. -/
theorem bytes_cut_of_overflow : ∀ {t₀}, t₀ < limit →
    (∀ p ∈ l, p.2 < word) → ¬ NoOverflow limit t₀ l → word ≤ t₀ + bytes (cut limit t₀ l) := by
  induction l with
  | nil =>
    intro t₀ _ _ hover
    exact absurd (fun _ _ hr => absurd hr not_reached_nil) hover
  | cons p l ih =>
    intro t₀ ht hl hover
    have hp := hl p mem_cons_self
    by_cases hhead : t₀ + p.2 < word
    · have htail : ¬ NoOverflow limit (t₀ + p.2) l := by
        intro hno
        refine hover fun t p' hr => ?_
        rcases reached_cons.mp hr with ⟨rfl, rfl, -⟩ | hr
        · exact hhead
        · exact hno t p' hr
      rw [cut_cons hlimit hword ht hhead, bytes_cons]
      have hgo : t₀ + p.2 < limit := by
        by_contra hstop
        exact htail fun t p' hr => absurd ((hr.lt hlimit).1.trans_lt (hr.lt hlimit).2) hstop
      have := ih hgo (fun q hq => hl q (mem_cons_of_mem _ hq)) htail
      rw [if_pos hgo]
      omega
    · have hwrap : add64 t₀ p.2 + word = t₀ + p.2 := by
        rcases add64_cases (show t₀ < word by omega) hp with h | h <;> omega
      have hsize : (if limit ≠ 0 ∧ limit < add64 t₀ p.2 then sub64 limit t₀ else p.2) = p.2 :=
        if_neg (by omega)
      simp only [cut, bytes_cons]
      omega

end

theorem above_of_opens (h : Opens base r) : above base r = some r := by
  obtain ⟨hsome, hle⟩ := h
  unfold above at hsome ⊢
  split_ifs at hsome ⊢ with hskip hlt
  · cases hsome
  · omega
  · rfl

theorem above_of_not_opens (h : ¬ Opens base r) (hp : above base r = some p) :
    p.1 = base ∧ r.1 < base := by
  have hlt : r.1 < base := by
    by_contra hge
    exact h ⟨by rw [hp]; rfl, by omega⟩
  unfold above at hp
  split_ifs at hp
  cases hp
  exact ⟨rfl, hlt⟩

theorem parts_found : parts true base regions = regions.filterMap (above base) := by
  induction regions with
  | nil => rfl
  | cons r rest ih =>
    rw [parts, filterMap_cons]
    cases above base r with
    | none => exact ih
    | some p => simp [ih]

variable {pre rest : List (ℕ × ℕ)}

theorem parts_append (hpre : ∀ q ∈ pre, ¬ Opens base q) :
    parts false base (pre ++ rest) = pre.filterMap (above base) ++ parts false base rest := by
  induction pre with
  | nil => rfl
  | cons q pre ih =>
    have htail := ih fun q' hq' => hpre q' (mem_cons_of_mem _ hq')
    rw [cons_append, parts, filterMap_cons]
    cases hq : above base q with
    | none => exact htail
    | some p =>
      have hlt : ¬ base ≤ q.1 := not_le.mpr (above_of_not_opens (hpre q mem_cons_self) hq).2
      simp [hlt, htail]

variable {post : List (ℕ × ℕ)}

theorem parts_opens (h : Opens base r) :
    parts false base (r :: post) = r :: post.filterMap (above r.1) := by
  rw [parts, above_of_opens h]
  simp [h.2, parts_found]

/-- The parts before the first region that opens begin at the start. -/
theorem fst_of_mem_before (hpre : ∀ q ∈ pre, ¬ Opens base q) (hp : p ∈ pre.filterMap (above base)) :
    p.1 = base := by
  obtain ⟨q, hq, hsome⟩ := mem_filterMap.mp hp
  exact (above_of_not_opens (hpre q hq) hsome).1

theorem opens_cases (base : ℕ) (regions : List (ℕ × ℕ)) : (∀ q ∈ regions, ¬ Opens base q) ∨
      ∃ pre r post, regions = pre ++ r :: post ∧ (∀ q ∈ pre, ¬ Opens base q) ∧ Opens base r := by
  induction regions with
  | nil => simp
  | cons r rest ih =>
    by_cases hr : Opens base r
    · exact Or.inr ⟨[], r, rest, rfl, by simp, hr⟩
    · rcases ih with hnone | ⟨pre, r', post, rfl, hpre, hr'⟩
      · exact Or.inl (by simpa [hr] using hnone)
      · exact Or.inr ⟨r :: pre, r', post, rfl, by simpa [hr] using hpre, hr'⟩

theorem mem_parts (regions : List (ℕ × ℕ)) (hw : Words regions) : ∀ {found base}, base < word →
    p ∈ parts found base regions → base ≤ p.1 ∧ 0 < p.2 ∧ p.2 < word := by
  induction regions with
  | nil => intro found base _ hp; cases hp
  | cons r rest ih =>
    intro found base hbase hp
    obtain ⟨hr, hrest⟩ := forall_mem_cons.mp hw
    rw [parts] at hp
    cases hpart : above base r with
    | none =>
      rw [hpart] at hp
      exact ih hrest hbase hp
    | some p' =>
      rw [hpart] at hp
      rcases mem_cons.mp hp with rfl | hp
      · exact ⟨le_above hpart, above_pos hr.1 hr.2 hbase hpart⟩
      · have hnext : base ≤ (if base ≤ r.1 ∧ found = false then r.1 else base) := by
          split_ifs <;> omega
        have := ih hrest (show (if base ≤ r.1 ∧ found = false then r.1 else base) < word by
          split_ifs <;> omega) hp
        omega

/-- What every region keeps, the loop keeps. -/
theorem loop_keeps {P : Discovery → Prop} (regions : List (ℕ × ℕ))
    (hregion : ∀ r ∈ regions, ∀ s, P s → P (s.region limit r.1 r.2)) :
    ∀ s, P s → P (loop limit regions s) := by
  induction regions with
  | nil => exact fun s hs => hs
  | cons r rest ih =>
    intro s hs
    obtain ⟨hr, hrest⟩ := forall_mem_cons.mp hregion
    simp only [loop]
    split_ifs
    · exact ih hrest _ (hr s hs)
    · exact hr s hs

/-- The running total is that of the claims, as a machine word. -/
theorem loop_total (regions : List (ℕ × ℕ)) (hw : Words regions) (s : Discovery)
    (hbase : s.memstart < word) (hs : s.sizeUpToNow = bytes s.claims % word) :
    (loop limit regions s).sizeUpToNow = bytes (loop limit regions s).claims % word := by
  refine (loop_keeps (P := fun s => s.memstart < word ∧
    s.sizeUpToNow = bytes s.claims % word) regions (fun r hr s ⟨hbase, hs⟩ => ?_) s ⟨hbase, hs⟩).2
  have := hw r hr
  rw [region_eq s hbase this.1 this.2]
  cases above s.memstart r with
  | none => exact ⟨hbase, hs⟩
  | some p =>
    refine ⟨?_, by simp [claim, add64, hs]⟩
    simp only [claim]
    split_ifs <;> omega

theorem loop_memstart_found (regions : List (ℕ × ℕ)) (hw : Words regions) (s : Discovery)
    (hbase : s.memstart < word) (hfound : s.memstartFound = true) :
    (loop limit regions s).memstart = s.memstart := by
  refine (loop_keeps (P := fun t => t.memstart = s.memstart ∧ t.memstartFound = true) regions
    (fun r hr t ⟨ht, hfound⟩ => ?_) s ⟨rfl, hfound⟩).1
  have := hw r hr
  rw [region_eq t (ht ▸ hbase) this.1 this.2]
  cases above t.memstart r with
  | none => exact ⟨ht, hfound⟩
  | some p => simp [claim, ht, hfound]

variable {s : Discovery}

theorem loop_cons_of_go (rest : List (ℕ × ℕ))
    (h : limit = 0 ∨ (s.region limit r.1 r.2).sizeUpToNow < limit) :
    loop limit (r :: rest) s = loop limit rest (s.region limit r.1 r.2) := if_pos h

theorem loop_cons_of_stop (rest : List (ℕ × ℕ))
    (h : ¬ (limit = 0 ∨ (s.region limit r.1 r.2).sizeUpToNow < limit)) :
    loop limit (r :: rest) s = s.region limit r.1 r.2 := if_neg h

/-- Regions that begin below the start or have no part above it leave `memstart` alone, and the loop
goes on behind them unless the limit is reached. -/
theorem loop_before (pre : List (ℕ × ℕ)) (hw : Words pre) : ∀ s : Discovery,
    s.memstart < word → s.memstartFound = false → (∀ q ∈ pre, ¬ Opens s.memstart q) →
    (limit = 0 ∨ s.sizeUpToNow < limit) → ∃ s', loop limit pre s = s' ∧
      s'.memstart = s.memstart ∧ s'.memstartFound = false ∧
      ∀ rest, ((limit = 0 ∨ s'.sizeUpToNow < limit) → loop limit (pre ++ rest) s = loop limit rest s') ∧
        (¬ (limit = 0 ∨ s'.sizeUpToNow < limit) → loop limit (pre ++ rest) s = s') := by
  induction pre with
  | nil =>
    intro s _ hfound _ hgo
    exact ⟨s, rfl, rfl, hfound, fun rest => ⟨fun _ => rfl, fun hstop => absurd hgo hstop⟩⟩
  | cons r pre ih =>
    intro s hbase hfound hnone hgo
    obtain ⟨hr, hrest⟩ := forall_mem_cons.mp hw
    have hkeep : (s.region limit r.1 r.2).memstart = s.memstart ∧
        (s.region limit r.1 r.2).memstartFound = false := by
      rw [region_eq s hbase hr.1 hr.2]
      cases hpart : above s.memstart r with
      | none => exact ⟨rfl, hfound⟩
      | some p =>
        have hlt : ¬ s.memstart ≤ r.1 := not_le.mpr (above_of_not_opens (hnone r mem_cons_self) hpart).2
        simp [claim, hfound, hlt]
    by_cases hgo' : limit = 0 ∨ (s.region limit r.1 r.2).sizeUpToNow < limit
    · obtain ⟨s', hs', hmem, hfound', hthen⟩ :=
        ih hrest (s.region limit r.1 r.2) (hkeep.1 ▸ hbase) hkeep.2
        (fun q hq => hkeep.1 ▸ hnone q (mem_cons_of_mem _ hq)) hgo'
      refine ⟨s', by rw [loop_cons_of_go _ hgo', hs'], hmem.trans hkeep.1, hfound', fun rest => ?_⟩
      rw [cons_append, loop_cons_of_go _ hgo']
      exact hthen rest
    · refine ⟨s.region limit r.1 r.2, loop_cons_of_stop _ hgo', hkeep.1, hkeep.2, fun rest => ?_⟩
      rw [cons_append, loop_cons_of_stop _ hgo']
      exact ⟨fun hgo => absurd hgo hgo', fun _ => rfl⟩

/-- The first region that opens sets `memstart`. -/
theorem loop_opens (hw : Words (r :: post)) (hbase : s.memstart < word)
    (hfound : s.memstartFound = false) (hopens : Opens s.memstart r) :
    (loop limit (r :: post) s).memstart = r.1 := by
  have hr := hw r mem_cons_self
  have hset : (s.region limit r.1 r.2).memstart = r.1 ∧
      (s.region limit r.1 r.2).memstartFound = true := by
    rw [region_eq s hbase hr.1 hr.2, above_of_opens hopens]
    simp [claim, hopens.2, hfound]
  by_cases hgo : limit = 0 ∨ (s.region limit r.1 r.2).sizeUpToNow < limit
  · rw [loop_cons_of_go _ hgo, loop_memstart_found post (fun q hq => hw q (mem_cons_of_mem _ hq)) _
      (hset.1.trans_lt hr.1) hset.2, hset.1]
  · rw [loop_cons_of_stop _ hgo, hset.1]

/-- What the claims need: with `memstart` and `memsize` adjusted as both functions do, and the parts
of the regions above the start taken in order until `memsize` bytes are reached. `top`: a part ends
at or below the end of the range, or `memsize` bytes are complete there. `total`: no running total
overflows. `size`: the adjustment does not raise the firmware's size, or the parts fit it. `start`:
the first region that does not begin below the start begins at it, if a part was claimed before.
`chosen`: for the other function, the firmware's size fits the range, or the range begins at 0. -/
structure Admits (c : MemoryLimits) (regions : List (ℕ × ℕ)) : Prop where
  top : c.physMemRangeMax ≠ 0 → ∀ t p, Reached c.memsize 0 (parts false c.memstart regions) t p →
    p.1 + p.2 ≤ c.physMemRangeMax ∨ c.memsize ≠ 0 ∧ p.1 + (c.memsize - t) ≤ c.physMemRangeMax
  total : c.memsize ≠ 0 → NoOverflow c.memsize 0 (parts false c.memstart regions)
  size : c.memsize ≤ c.fwMemsize.getD 0 ∨ bytes (parts false c.memstart regions) ≤
    c.fwMemsize.getD 0
  start : ∀ pre r post, regions = pre ++ r :: post → (∀ q ∈ pre, ¬ Opens c.memstart q) →
    Opens c.memstart r → pre.filterMap (above c.memstart) ≠ [] →
    (c.memsize = 0 ∨ bytes (pre.filterMap (above c.memstart)) < c.memsize) → r.1 = c.memstart
  chosen : c.fwMemstart.isSome → c.fwMemsize.isSome →
    c.physMemRangeMax = 0 ∨ c.fwMemsize.getD 0 = 0 ∨ c.memstart < c.physMemRangeMax ∧
      (c.fwMemsize.getD 0 ≤ c.physMemRangeMax - c.memstart ∨ c.memstart = 0)

structure IsWord (c : MemoryLimits) : Prop where
  fwMemstart : c.fwMemstart.getD 0 < word
  fwMemsize : c.fwMemsize.getD 0 < word
  physMemRangeMin : c.physMemRangeMin < word
  physMemRangeMax : c.physMemRangeMax < word

variable {c : MemoryLimits} {regions : List (ℕ × ℕ)}

theorem memstart_lt (hc : IsWord c) : c.memstart < word := by
  unfold MemoryLimits.memstart
  split_ifs
  · exact hc.physMemRangeMin
  · exact hc.fwMemstart

theorem memstart_ge (c : MemoryLimits) :
    c.physMemRangeMin ≤ c.memstart ∧ c.fwMemstart.getD 0 ≤ c.memstart := by
  unfold MemoryLimits.memstart
  split_ifs <;> omega

theorem memsize_cases (hc : IsWord c) : (c.physMemRangeMax ≠ 0 ∧ c.memstart < c.physMemRangeMax ∧
        c.physMemRangeMax - c.memstart < c.fwMemsize.getD 0 ∧ c.memsize = c.physMemRangeMax) ∨
      (c.memsize = c.fwMemsize.getD 0 ∧ ¬ (c.physMemRangeMax ≠ 0 ∧ c.memstart < c.physMemRangeMax ∧
        c.physMemRangeMax - c.memstart < c.fwMemsize.getD 0)) := by
  have hsub : c.memstart < c.physMemRangeMax →
      sub64 c.physMemRangeMax c.memstart = c.physMemRangeMax - c.memstart :=
    fun hlt => sub64_of_le hlt.le hc.physMemRangeMax
  unfold MemoryLimits.memsize
  split_ifs with h
  · rw [hsub h.2.1] at h
    exact Or.inl ⟨h.1, h.2.1, h.2.2, rfl⟩
  · refine Or.inr ⟨rfl, fun h' => h ⟨h'.1, h'.2.1, ?_⟩⟩
    rw [hsub h'.2.1]
    exact h'.2.2

theorem memsize_lt (hc : IsWord c) : c.memsize < word := by
  have := hc.physMemRangeMax
  have := hc.fwMemsize
  rcases memsize_cases hc with h | h <;> omega

theorem memsize_eq_zero_iff (hc : IsWord c) : c.memsize = 0 ↔ c.fwMemsize.getD 0 = 0 := by
  rcases memsize_cases hc with h | h <;> omega

theorem claims_eq (hc : IsWord c) (hw : Words regions) :
    (createAllFromMemoryNode c regions).claims = cut c.memsize 0
    (parts false c.memstart regions) := by
  simp only [createAllFromMemoryNode]
  rw [loop_claims regions hw _ (memstart_lt hc) (by simp only; omega)]
  rfl

def clip (limit t size : ℕ) : ℕ := if limit = 0 then size else min size (limit - t)

theorem mem_claims (hc : IsWord c) (hw : Words regions)
    (htotal : c.memsize ≠ 0 → NoOverflow c.memsize 0 (parts false c.memstart regions)) :
    q ∈ (createAllFromMemoryNode c regions).claims ↔
      ∃ t p, Reached c.memsize 0 (parts false c.memstart regions) t p ∧
      q = (p.1, clip c.memsize t p.2) := by
  rw [claims_eq hc hw]
  by_cases h0 : c.memsize = 0
  · rw [h0, cut_zero]
    simp only [clip]
    constructor
    · intro hq
      obtain ⟨pre, post, hsplit⟩ := append_of_mem hq
      exact ⟨_, q, ⟨pre, post, hsplit, rfl, Or.inl rfl⟩, rfl⟩
    · rintro ⟨t, p, ⟨pre, post, hsplit, -, -⟩, rfl⟩
      rw [hsplit]
      simp
  · rw [mem_cut h0 (memsize_lt hc) (pos_of_ne_zero h0) (htotal h0)]
    simp [clip, h0]

theorem mem_of_reached (h : Reached limit t₀ l t p) : p ∈ l := by
  obtain ⟨pre, post, rfl, -⟩ := h
  simp

theorem clip_pos (hp : 0 < p.2) (hr : Reached limit 0 l t p) : 0 < clip limit t p.2 := by
  unfold clip
  split_ifs with h0
  · exact hp
  · have := (hr.lt h0).2
    omega

section

variable (hc : IsWord c) (hw : Words regions)
  (htotal : c.memsize ≠ 0 → NoOverflow c.memsize 0 (parts false c.memstart regions))
include hc hw htotal

theorem claimed_iff (x : ℕ) : Claimed (createAllFromMemoryNode c regions).claims x ↔
      ∃ t p, Reached c.memsize 0 (parts false c.memstart regions) t p ∧ p.1 ≤ x ∧
      x < p.1 + clip c.memsize t p.2 := by
  constructor
  · rintro ⟨q, hq, hx⟩
    obtain ⟨t, p, hr, rfl⟩ := (mem_claims hc hw htotal).mp hq
    exact ⟨t, p, hr, hx⟩
  · rintro ⟨t, p, hr, hx⟩
    exact ⟨_, (mem_claims hc hw htotal).mpr ⟨t, p, hr, rfl⟩, hx⟩

/-- The first address of a part that is reached is claimed. -/
theorem claimed_fst (hr : Reached c.memsize 0 (parts false c.memstart regions) t p) :
    Claimed (createAllFromMemoryNode c regions).claims p.1 := by
  have hpos := (mem_parts regions hw (memstart_lt hc) (mem_of_reached hr)).2.1
  exact (claimed_iff hc hw htotal p.1).mpr ⟨t, p, hr, le_rfl,
    Nat.lt_add_of_pos_right (clip_pos hpos hr)⟩

theorem upper_iff (fin : ℕ) : (∀ x, Claimed (createAllFromMemoryNode c regions).claims x →
    x < fin) ↔
      ∀ t p, Reached c.memsize 0 (parts false c.memstart regions) t p →
        p.1 + p.2 ≤ fin ∨ c.memsize ≠ 0 ∧ p.1 + (c.memsize - t) ≤ fin := by
  have hclip : ∀ t (p : ℕ × ℕ), p.1 + clip c.memsize t p.2 ≤ fin ↔
      p.1 + p.2 ≤ fin ∨ c.memsize ≠ 0 ∧ p.1 + (c.memsize - t) ≤ fin := by
    intro t p
    unfold clip
    split_ifs with h0 <;> omega
  constructor
  · intro hupper t p hr
    have hpos := clip_pos (mem_parts regions hw (memstart_lt hc) (mem_of_reached hr)).2.1 hr
    have hlast := hupper (p.1 + (clip c.memsize t p.2 - 1))
      ((claimed_iff hc hw htotal _).mpr ⟨t, p, hr, le_add_right _ _, by omega⟩)
    exact (hclip t p).mp (by omega)
  · intro htop x hx
    obtain ⟨t, p, hr, -, hlt⟩ := (claimed_iff hc hw htotal x).mp hx
    exact hlt.trans_le ((hclip t p).mpr (htop t p hr))

theorem lower_of_claimed {x : ℕ} (hx : Claimed (createAllFromMemoryNode c regions).claims x) :
    c.memstart ≤ x := by
  obtain ⟨t, p, hr, hle, -⟩ := (claimed_iff hc hw htotal x).mp hx
  exact (mem_parts regions hw (memstart_lt hc) (mem_of_reached hr)).1.trans hle

end

/-- A given size is kept exactly when no running total overflows and the limit or the parts are
within it. -/
theorem size_iff (hc : IsWord c) (hw : Words regions) (h0 : c.fwMemsize.getD 0 ≠ 0) :
    bytes (createAllFromMemoryNode c regions).claims ≤ c.fwMemsize.getD 0 ↔
      NoOverflow c.memsize 0 (parts false c.memstart regions) ∧
        (c.memsize ≤ c.fwMemsize.getD 0 ∨ bytes (parts false c.memstart regions) ≤
        c.fwMemsize.getD 0) := by
  have hlimit : c.memsize ≠ 0 := mt (memsize_eq_zero_iff hc).mp h0
  have hpos := pos_of_ne_zero hlimit
  have hfw := hc.fwMemsize
  rw [claims_eq hc hw]
  by_cases hno : NoOverflow c.memsize 0 (parts false c.memstart regions)
  · rw [bytes_cut hlimit (memsize_lt hc) hpos hno]
    simp only [hno, true_and]
    omega
  · have hbytes := bytes_cut_of_overflow hlimit (memsize_lt hc) hpos
      (fun p hp => (mem_parts regions hw (memstart_lt hc) hp).2.2) hno
    simp only [hno, false_and, iff_false]
    omega

/-- Whether the loop gets to the first region that opens. -/
theorem memstart_of_opens (hc : IsWord c) (hw : Words (pre ++ r :: post))
    (hpre : ∀ q ∈ pre, ¬ Opens c.memstart q) (hr : Opens c.memstart r)
    (htotal : c.memsize ≠ 0 → NoOverflow c.memsize 0 (parts false c.memstart (pre ++ r :: post))) :
    (createAllFromMemoryNode c (pre ++ r :: post)).memstart =
      if c.memsize = 0 ∨ bytes (pre.filterMap (above c.memstart)) < c.memsize then r.1
      else c.memstart := by
  have hwpre : Words pre := fun q hq => hw q (mem_append_left _ hq)
  have hstart : c.memsize = 0 ∨ 0 < c.memsize := by omega
  obtain ⟨s', hs', hmem, hfound, hthen⟩ :=
    @loop_before c.memsize pre hwpre ⟨c.memstart, false, 0, []⟩
    (memstart_lt hc) rfl hpre hstart
  -- the running total after `pre` is that of its parts, cut at the limit
  have hgo : (c.memsize = 0 ∨ s'.sizeUpToNow < c.memsize) ↔
      (c.memsize = 0 ∨ bytes (pre.filterMap (above c.memstart)) < c.memsize) := by
    by_cases h0 : c.memsize = 0
    · simp [h0]
    · have hparts : parts false c.memstart (pre ++ []) = _ := parts_append hpre
      simp only [append_nil, parts] at hparts
      have hno : NoOverflow c.memsize 0 (pre.filterMap (above c.memstart)) := by
        rintro t p ⟨a, b, hab, ht, hlt⟩
        refine htotal h0 t p ⟨a, b ++ parts false c.memstart (r :: post), ?_, ht, hlt⟩
        rw [parts_append hpre, hab, append_assoc, cons_append]
      have hclaims := loop_claims pre hwpre ⟨c.memstart, false, 0, []⟩ (memstart_lt hc) hstart
      have htot := @loop_total c.memsize pre hwpre ⟨c.memstart, false, 0, []⟩ (memstart_lt hc) rfl
      rw [hclaims, hs'] at htot
      simp only [nil_append, hparts] at htot
      rw [bytes_cut h0 (memsize_lt hc) (Nat.pos_of_ne_zero h0) hno] at htot
      have hlt := memsize_lt hc
      rw [Nat.mod_eq_of_lt (by omega)] at htot
      omega
  simp only [createAllFromMemoryNode]
  split_ifs with hreach
  · rw [(hthen (r :: post)).1 (hgo.mpr hreach)]
    refine loop_opens (fun q hq => hw q (mem_append_right _ hq)) ?_ hfound (hmem.symm ▸ hr)
    exact hmem.trans_lt (memstart_lt hc)
  · rw [(hthen (r :: post)).2 (fun h => hreach (hgo.mp h)), hmem]

/-- A part that begins at the start is claimed if there is one before the first region that
opens. -/
theorem claimed_memstart (hc : IsWord c) (hw : Words (pre ++ rest))
    (hpre : ∀ q ∈ pre, ¬ Opens c.memstart q)
    (htotal : c.memsize ≠ 0 → NoOverflow c.memsize 0 (parts false c.memstart (pre ++ rest)))
    (hne : pre.filterMap (above c.memstart) ≠ []) :
    Claimed (createAllFromMemoryNode c (pre ++ rest)).claims c.memstart := by
  obtain ⟨p, tail, hp⟩ := exists_cons_of_ne_nil hne
  have hfst : p.1 = c.memstart := fst_of_mem_before hpre (by rw [hp]; simp)
  rw [← hfst]
  refine claimed_fst hc hw htotal (t := 0) ?_
  rw [parts_append hpre, hp]
  exact reached_cons.mpr (.inl ⟨rfl, rfl, by omega⟩)

theorem start_iff (hc : IsWord c) (hw : Words regions)
    (htotal : c.memsize ≠ 0 → NoOverflow c.memsize 0 (parts false c.memstart regions)) :
    (∀ x, Claimed (createAllFromMemoryNode c regions).claims x →
        IsLeast {y | Claimed (createAllFromMemoryNode c regions).claims y}
          (createAllFromMemoryNode c regions).memstart) ↔
      ∀ pre r post, regions = pre ++ r :: post → (∀ q ∈ pre, ¬ Opens c.memstart q) →
        Opens c.memstart r → pre.filterMap (above c.memstart) ≠ [] →
        (c.memsize = 0 ∨ bytes (pre.filterMap (above c.memstart)) < c.memsize) → r.1 = c.memstart := by
  constructor
  · rintro hleast pre r post rfl hpre hr hne hreach
    have hclaimed := claimed_memstart hc hw hpre htotal hne
    have hle := (hleast _ hclaimed).2 hclaimed
    rw [memstart_of_opens hc hw hpre hr htotal, if_pos hreach] at hle
    exact le_antisymm hle hr.2
  · intro hstart x hx
    rcases opens_cases c.memstart regions with hnone | ⟨pre, r, post, rfl, hpre, hr⟩
    · obtain ⟨s', hs', hmem, -⟩ := @loop_before c.memsize regions hw ⟨c.memstart, false, 0,
        []⟩ (memstart_lt hc) rfl hnone (by simp only; omega)
      have hlast : (createAllFromMemoryNode c regions).memstart = c.memstart := by
        simp only [createAllFromMemoryNode, hs', hmem]
      obtain ⟨t, p, hr, -⟩ := (claimed_iff hc hw htotal x).mp hx
      have hparts : parts false c.memstart (regions ++ []) = _ := parts_append hnone
      rw [append_nil, parts, append_nil] at hparts
      have hfst : p.1 = c.memstart := fst_of_mem_before hnone (hparts ▸ mem_of_reached hr)
      rw [hlast]
      exact ⟨hfst ▸ claimed_fst hc hw htotal hr, fun y hy => lower_of_claimed hc hw htotal hy⟩
    · rw [memstart_of_opens hc hw hpre hr htotal]
      have hparts : parts false c.memstart (pre ++ r :: post) =
          pre.filterMap (above c.memstart) ++ r :: post.filterMap (above r.1) := by
        rw [parts_append hpre, parts_opens hr]
      split_ifs with hreach
      · refine ⟨claimed_fst hc hw htotal ⟨_, _, hparts, (zero_add _).symm, hreach⟩, fun y hy => ?_⟩
        obtain ⟨t, p, hrp, hle, -⟩ := (claimed_iff hc hw htotal y).mp hy
        have hp := mem_of_reached hrp
        rw [hparts, mem_append, mem_cons] at hp
        rcases hp with hp | rfl | hp
        · rw [hstart pre r post rfl hpre hr (ne_nil_of_mem hp) hreach]
          exact lower_of_claimed hc hw htotal hy
        · exact hle
        · obtain ⟨q, -, hq⟩ := mem_filterMap.mp hp
          exact (le_above hq).trans hle
      · have hne : pre.filterMap (above c.memstart) ≠ [] := by
          intro hnil
          rw [hnil, bytes_nil] at hreach
          omega
        exact ⟨claimed_memstart hc hw hpre htotal hne, fun y hy => lower_of_claimed hc hw htotal hy⟩

/-- The claims of the chosen node. -/
theorem chosen_iff (hc : IsWord c) (hstart : c.fwMemstart.isSome) (hsize : c.fwMemsize.isSome) :
    (∀ d, createAllFromChosenNode c = some d → Respects c d) ↔
      (c.physMemRangeMax = 0 ∨ c.fwMemsize.getD 0 = 0 ∨ c.memstart < c.physMemRangeMax ∧
        (c.fwMemsize.getD 0 ≤ c.physMemRangeMax - c.memstart ∨ c.memstart = 0)) := by
  have hlow := memstart_ge c
  have hsome : createAllFromChosenNode c = some ⟨[(c.memstart, c.memsize)], c.memstart, c.memsize⟩ :=
    if_pos ⟨hstart, hsize⟩
  have hclaimed : ∀ x, Claimed [(c.memstart, c.memsize)] x ↔
      c.memstart ≤ x ∧ x < c.memstart + c.memsize := by
    intro x
    simp [Claimed]
  rw [hsome]
  constructor
  · intro h
    have hr := h _ rfl
    by_contra hnot
    push Not at hnot
    obtain ⟨hmax, h0, hover⟩ := hnot
    have hpos : c.memsize ≠ 0 := mt (memsize_eq_zero_iff hc).mp h0
    have hupper := hr.upper hmax (c.memstart + (c.memsize - 1)) ((hclaimed _).mpr ⟨by omega, by omega⟩)
    rcases memsize_cases hc with hcase | hcase <;> omega
  · rintro hadmits d hd
    cases hd
    refine ⟨fun x hx => ?_, fun hmax x hx => ?_, fun h0 => ?_, fun x hx => ?_⟩
    · have := (hclaimed x).mp hx
      omega
    · have := (hclaimed x).mp hx
      rcases memsize_cases hc with hcase | hcase <;> omega
    · simp only [bytes_cons, bytes_nil]
      rcases memsize_cases hc with hcase | hcase <;> omega
    · have := (hclaimed x).mp hx
      exact ⟨(hclaimed _).mpr ⟨le_rfl, by simp only; omega⟩, fun y hy => ((hclaimed y).mp hy).1⟩

/-- Both functions keep the limits exactly on the inputs that `Admits` describes. -/
theorem discovery_respects_iff (c : MemoryLimits) (regions : List (ℕ × ℕ)) (hc : IsWord c)
    (hw : Words regions) : (Respects c (createAllFromMemoryNode c regions) ∧
    ∀ d, createAllFromChosenNode c = some d → Respects c d) ↔
      Admits c regions := by
  constructor
  · rintro ⟨hmemory, hchosen⟩
    have htotal : c.memsize ≠ 0 → NoOverflow c.memsize 0 (parts false c.memstart regions) := by
      intro h0
      have hfw : c.fwMemsize.getD 0 ≠ 0 := mt (memsize_eq_zero_iff hc).mpr h0
      exact ((size_iff hc hw hfw).mp (hmemory.size hfw)).1
    refine ⟨fun hmax => (upper_iff hc hw htotal _).mp (hmemory.upper hmax), htotal, ?_,
      (start_iff hc hw htotal).mp hmemory.start, fun h1 h2 => (chosen_iff hc h1 h2).mp hchosen⟩
    by_cases hfw : c.fwMemsize.getD 0 = 0
    · exact Or.inl (((memsize_eq_zero_iff hc).mpr hfw).le.trans (zero_le _))
    · exact ((size_iff hc hw hfw).mp (hmemory.size hfw)).2
  · intro h
    refine ⟨⟨fun x hx => ?_, fun hmax => (upper_iff hc hw h.total _).mpr (h.top hmax),
      fun hfw => ?_, (start_iff hc hw h.total).mpr h.start⟩, ?_⟩
    · have hlow := memstart_ge c
      have := lower_of_claimed hc hw h.total hx
      omega
    · exact (size_iff hc hw hfw).mpr ⟨h.total (mt (memsize_eq_zero_iff hc).mp hfw), h.size⟩
    · intro d hd
      have hgiven : c.fwMemstart.isSome ∧ c.fwMemsize.isSome := by
        by_contra hnot
        rw [createAllFromChosenNode, if_neg hnot] at hd
        cases hd
      exact (chosen_iff hc hgiven.1 hgiven.2).mpr (h.chosen hgiven.1 hgiven.2) d hd

/-- A region that begins below the firmware's start and is longer than its size. -/
theorem discovery_respects_iff_of_one_region :
    createAllFromMemoryNode ⟨some 0x1000, some 0x8000, 0, 0x20000⟩ [(0, 0x10000)] =
        ⟨[(0x1000, 0x8000)], 0x1000, 0x8000⟩ ∧
      Respects ⟨some 0x1000, some 0x8000, 0, 0x20000⟩
        (createAllFromMemoryNode ⟨some 0x1000, some 0x8000, 0, 0x20000⟩ [(0, 0x10000)]) := by
  refine ⟨by decide, ?_⟩
  have hparts : parts false 0x1000 [(0, 0x10000)] = [(0x1000, 0xf000)] := by decide
  have hreached : ∀ t p, Reached 0x8000 0 (parts false 0x1000 [(0, 0x10000)]) t p →
      p = (0x1000, 0xf000) ∧ t = 0 := by
    intro t p hr
    rw [hparts, reached_cons] at hr
    rcases hr with ⟨hp, ht, -⟩ | hr
    · exact ⟨hp, ht⟩
    · exact absurd hr not_reached_nil
  refine ((discovery_respects_iff ⟨some 0x1000, some 0x8000, 0,
    0x20000⟩ [(0, 0x10000)] ⟨by decide, by decide, by decide,
    by decide⟩ (by decide)).mpr ⟨fun _ t p hr => ?_, fun _ t p hr => ?_, Or.inl (by decide), ?_,
    fun _ _ => ?_⟩).1
  · obtain ⟨rfl, rfl⟩ := hreached t p hr
    decide
  · obtain ⟨rfl, rfl⟩ := hreached t p hr
    decide
  · rintro pre r post hsplit - - hne
    cases pre with
    | nil => exact absurd rfl hne
    | cons q pre => simp at hsplit
  · decide

/-- A range of 256 MB and a firmware size of 512 MB: `memsize` becomes the end of the range, and a
region of 1 GB is claimed as a whole. -/
theorem memsize_set_to_range_end : ¬ ∀ (c : MemoryLimits) (regions : List (ℕ × ℕ)),
    IsWord c → Words regions →
      Respects c (createAllFromMemoryNode c regions) ∧ ∀ d, createAllFromChosenNode c = some d →
      Respects c d := by
  intro hall
  have hrespects := (hall ⟨none, some 0x20000000, 0x80000000, 0x90000000⟩ [(0x80000000, 0x40000000)]
    ⟨by decide, by decide, by decide, by decide⟩ (by decide)).1
  have hclaims : (createAllFromMemoryNode ⟨none, some 0x20000000, 0x80000000, 0x90000000⟩
      [(0x80000000, 0x40000000)]).claims = [(0x80000000, 0x40000000)] := by decide
  have hupper := hrespects.upper (by decide) 0x90000000
    ⟨(0x80000000, 0x40000000), by rw [hclaims]; exact mem_singleton.mpr rfl, by decide, by decide⟩
  exact absurd hupper (by decide)

end Toddler.MemoryNode
