import Mathlib.Algebra.BigOperators.Group.List.Basic
import Mathlib.Algebra.BigOperators.Ring.Finset
import Mathlib.Order.Interval.Finset.Nat
import Toddler.Lib.Cover

/-! Buddy systems in the abstract. The pages of a region are tiled by aligned blocks whose sizes are
powers of two. A block is either on the free list of its order or held by someone; the operations
move blocks between the lists and the holders and cut or join them, and each keeps the tiling. -/

namespace Toddler

open Function List Nat

variable {R : Type*}

/-- The pages `[start, start + 2 ^ order)` of a region. -/
structure DyBlock (R : Type*) where
  start : ℕ
  order : ℕ
  region : R
  deriving DecidableEq, Repr

def DyBlock.fin (b : DyBlock R) : ℕ := b.start + 2 ^ b.order

/-- Aligned blocks of orders below `n` that cover exactly `[lo, hi)`, each page once. -/
structure Tiling (n lo hi : ℕ) (l : List (DyBlock R)) : Prop where
  tiles : ∀ x, cover DyBlock.start DyBlock.fin l x = if lo ≤ x ∧ x < hi then 1 else 0
  dyadic : ∀ b ∈ l, b.order < n ∧ 2 ^ b.order ∣ b.start

variable {n lo hi : ℕ} {l l' : List (DyBlock R)} {b c : DyBlock R}

theorem DyBlock.start_mem (b : DyBlock R) : b.start ≤ b.start ∧ b.start < b.fin :=
  ⟨le_rfl, Nat.lt_add_of_pos_right (Nat.two_pow_pos _)⟩

theorem Tiling.perm (h : Tiling n lo hi l) (hp : l.Perm l') : Tiling n lo hi l' :=
  ⟨fun x => (cover_perm hp.symm x).trans (h.tiles x), fun b hb => h.dyadic b (hp.mem_iff.mpr hb)⟩

variable {x : ℕ}

theorem Tiling.inside (h : Tiling n lo hi l) (hb : b ∈ l) (hx : b.start ≤ x ∧ x < b.fin) :
    lo ≤ x ∧ x < hi := by
  have hpos := cover_mem_pos hb hx.1 hx.2
  rw [h.tiles] at hpos
  by_contra hno
  simp [hno] at hpos

theorem Tiling.exists_block (h : Tiling n lo hi l) (hx : lo ≤ x ∧ x < hi) :
    ∃ b ∈ l, b.start ≤ x ∧ x < b.fin := by
  rw [← cover_pos, h.tiles, if_pos hx]
  exact one_pos

theorem Tiling.pairwise (h : Tiling n lo hi l) : l.Pairwise (Apart DyBlock.start DyBlock.fin) := by
  refine (pairwise_apart_iff l).mpr fun x => ?_
  rw [h.tiles]
  split_ifs <;> omega

theorem Tiling.head_apart (h : Tiling n lo hi (b :: l)) (hc : c ∈ l)
    (hx : b.start ≤ x ∧ x < b.fin) : ¬ (c.start ≤ x ∧ x < c.fin) :=
  fun hcx => (pairwise_cons.mp h.pairwise).1 c hc x ⟨hx, hcx⟩

theorem Tiling.unique (h : Tiling n lo hi l) (hb : b ∈ l) (hc : c ∈ l)
    (hbx : b.start ≤ x ∧ x < b.fin) (hcx : c.start ≤ x ∧ x < c.fin) : b = c := by
  obtain ⟨s, t, rfl⟩ := append_of_mem hb
  rcases mem_cons.mp (perm_middle.mem_iff.mp hc) with rfl | hc'
  · rfl
  · exact absurd hcx ((h.perm perm_middle).head_apart hc' hbx)

theorem Tiling.nodup (h : Tiling n lo hi l) : l.Nodup := h.pairwise.imp fun {a b} hab heq => by
    subst heq
    exact hab a.start ⟨a.start_mem, a.start_mem⟩

def pageSum (l : List (DyBlock R)) : ℕ := (l.map fun b => 2 ^ b.order).sum

@[simp] theorem pageSum_cons (b : DyBlock R) (l : List (DyBlock R)) :
    pageSum (b :: l) = 2 ^ b.order + pageSum l := by
  simp [pageSum]

@[simp] theorem pageSum_append (l l' : List (DyBlock R)) :
    pageSum (l ++ l') = pageSum l + pageSum l' := by
  simp [pageSum]

theorem pageSum_perm (hp : l.Perm l') : pageSum l = pageSum l' := (hp.map _).sum_eq

theorem le_pageSum (hb : b ∈ l) : 2 ^ b.order ≤ pageSum l :=
  single_le_sum (fun _ _ => zero_le _) _ (mem_map_of_mem hb)

variable {m : ℕ}

theorem sum_cover (l : List (DyBlock R)) (hm : ∀ b ∈ l, b.fin ≤ m) :
    ∑ x ∈ Finset.range m, cover DyBlock.start DyBlock.fin l x = pageSum l := by
  induction l with
  | nil => simp [pageSum]
  | cons b l ih =>
    have hb : (Finset.range m).filter (fun x => b.start ≤ x ∧ x < b.fin) = Finset.Ico b.start b.fin := by
      ext x
      have := hm b (by simp)
      simp only [Finset.mem_filter, Finset.mem_range, Finset.mem_Ico]
      omega
    simp only [cover_cons, Finset.sum_add_distrib]
    rw [ih fun c hc => hm c (by simp [hc]), Finset.sum_boole, hb]
    simp [DyBlock.fin]

theorem Tiling.pageSum_eq (h : Tiling n lo hi l) : pageSum l = hi - lo := by
  have hm : ∀ b ∈ l, b.fin ≤ hi := by
    intro b hb
    have hpos := Nat.two_pow_pos b.order
    have := h.inside hb (x := b.fin - 1) (by simp only [DyBlock.fin]; omega)
    omega
  have hf : (Finset.range hi).filter (fun x => lo ≤ x ∧ x < hi) = Finset.Ico lo hi := by
    ext x
    simp only [Finset.mem_filter, Finset.mem_range, Finset.mem_Ico]
    omega
  rw [← sum_cover l hm, Finset.sum_congr rfl fun x _ => h.tiles x, Finset.sum_boole, hf, card_Ico]
  rfl

theorem fin_succ : (⟨p, k + 1, r⟩ : DyBlock R).fin = (⟨p + 2 ^ k, k, r⟩ : DyBlock R).fin := by
  simp only [DyBlock.fin]
  omega

theorem cover_halves (p k : ℕ) (r : R) (l : List (DyBlock R)) (x : ℕ) :
    cover DyBlock.start DyBlock.fin (⟨p, k, r⟩ :: ⟨p + 2 ^ k, k, r⟩ :: l) x =
      cover DyBlock.start DyBlock.fin (⟨p, k + 1, r⟩ :: l) x := by
  rw [cover_cons, cover_cons, cover_cons, fin_succ]
  simp only [DyBlock.fin]
  by_cases h1 : p ≤ x <;> by_cases h2 : x < p + 2 ^ k <;> by_cases h3 : x < p + 2 ^ k + 2 ^ k <;>
    simp [h1, h2, h3] <;> omega

variable {r : R} {k p : ℕ}

theorem Tiling.split (h : Tiling n lo hi (⟨p, k + 1, r⟩ :: l)) :
    Tiling n lo hi (⟨p, k, r⟩ :: ⟨p + 2 ^ k, k, r⟩ :: l) := by
  obtain ⟨hk, hp⟩ : k + 1 < n ∧ 2 ^ (k + 1) ∣ p := h.dyadic ⟨p, k + 1, r⟩ (by simp)
  have hdvd : 2 ^ k ∣ p := (pow_dvd_pow 2 (le_succ k)).trans hp
  refine ⟨fun x => (cover_halves p k r l x).trans (h.tiles x), fun b hb => ?_⟩
  simp only [mem_cons] at hb
  rcases hb with rfl | rfl | hb
  · exact ⟨by simp only; omega, hdvd⟩
  · exact ⟨by simp only; omega, hdvd.add (dvd_refl _)⟩
  · exact h.dyadic b (by simp [hb])

theorem Tiling.join (h : Tiling n lo hi (⟨p, k, r⟩ :: ⟨p + 2 ^ k, k, r⟩ :: l))
    (hk : k + 1 < n) (hp : 2 ^ (k + 1) ∣ p) : Tiling n lo hi (⟨p, k + 1, r⟩ :: l) := by
  refine ⟨fun x => (cover_halves p k r l x).symm.trans (h.tiles x), fun b hb => ?_⟩
  rcases mem_cons.mp hb with rfl | hb
  · exact ⟨hk, hp⟩
  · exact h.dyadic b (by simp [hb])

theorem Tiling.extend (h : Tiling n lo p l) (hlo : lo ≤ p) (hk : k < n)
    (hp : 2 ^ k ∣ p) : Tiling n lo (p + 2 ^ k) (⟨p, k, r⟩ :: l) := by
  refine ⟨fun x => ?_, fun b hb => ?_⟩
  · rw [cover_cons, h.tiles]
    simp only [DyBlock.fin]
    by_cases h1 : lo ≤ x <;> by_cases h2 : p ≤ x <;> by_cases h3 : x < p + 2 ^ k <;>
      simp [h1, h2, h3] <;> omega
  · rcases mem_cons.mp hb with rfl | hb
    · exact ⟨hk, hp⟩
    · exact h.dyadic b hb

/-- The page at which the other half of the parent of block `(p, k)` starts. -/
def buddy (p k : ℕ) : ℕ := if p % 2 ^ (k + 1) = 0 then p + 2 ^ k else p - 2 ^ k

def parent (p k : ℕ) : ℕ := if p % 2 ^ (k + 1) = 0 then p else p - 2 ^ k

/-- The two halves are the parent's start and that start plus the size of a half. -/
theorem buddy_cases (hp : 2 ^ k ∣ p) : 2 ^ (k + 1) ∣ parent p k ∧
      ((p = parent p k ∧ buddy p k = parent p k + 2 ^ k) ∨
      (buddy p k = parent p k ∧ p = parent p k + 2 ^ k)) := by
  obtain ⟨m, rfl⟩ := hp
  unfold parent buddy
  by_cases h : 2 ^ k * m % 2 ^ (k + 1) = 0
  · simp only [if_pos h]
    exact ⟨dvd_of_mod_eq_zero h, .inl ⟨trivial, trivial⟩⟩
  · simp only [if_neg h]
    have hodd : m % 2 = 1 := by
      rw [pow_succ, mul_mod_mul_left] at h
      by_contra hm
      exact h (by rw [show m % 2 = 0 by omega, mul_zero])
    have hm : 2 ^ k * m = 2 ^ (k + 1) * (m / 2) + 2 ^ k := by
      conv_lhs => rw [← Nat.div_add_mod m 2, hodd]
      ring
    rw [hm, Nat.add_sub_cancel]
    exact ⟨Dvd.intro _ rfl, .inr ⟨trivial, rfl⟩⟩

/-- An interval `[a, a + d)` that meets `[c, c + m)` lies in it, when `d` divides `a`, `c` and
`m`. -/
theorem multiples_nested {d a c y : ℕ} (ha : d ∣ a) (hc : d ∣ c) (hm : d ∣ m)
    (hcy : c ≤ y ∧ y < c + m) (hay : a ≤ y ∧ y < a + d) : c ≤ a ∧ a + d ≤ c + m := by
  obtain ⟨u, rfl⟩ := ha
  obtain ⟨v, rfl⟩ := hc
  obtain ⟨w, rfl⟩ := hm
  have h1 : d * v < d * (u + 1) := by
    rw [mul_add]
    omega
  have h2 : d * u < d * (v + w) := by
    rw [Nat.mul_add]
    omega
  have hvu : v ≤ u := Nat.lt_succ_iff.mp (Nat.lt_of_mul_lt_mul_left h1)
  have huw : u + 1 ≤ v + w := Nat.lt_of_mul_lt_mul_left h2
  refine ⟨Nat.mul_le_mul_left d hvu, ?_⟩
  calc d * u + d = d * (u + 1) := by ring
    _ ≤ d * (v + w) := Nat.mul_le_mul_left d huw
    _ = d * v + d * w := by ring

section

variable (h : Tiling n lo hi l) (hb : ⟨p, k, r⟩ ∈ l) (hc : c ∈ l)
  (hx : c.start ≤ buddy p k ∧ buddy p k < c.fin)
include h hb hc hx

/-- In a tiling with the block `(p, k)`, the block over its buddy is not larger: it would contain
`p` too. -/
theorem Tiling.buddy_order : c.order ≤ k := by
  obtain ⟨-, hp⟩ : k < n ∧ 2 ^ k ∣ p := h.dyadic _ hb
  obtain ⟨hpar, hcases⟩ := buddy_cases hp
  obtain ⟨-, hcs⟩ := h.dyadic c hc
  by_contra hgt
  have hlt : k < c.order := by omega
  have hcoarse : 2 ^ (k + 1) ∣ 2 ^ c.order := pow_dvd_pow 2 hlt
  have hcp := multiples_nested hpar (hcoarse.trans hcs) hcoarse hx (by omega)
  have heq := h.unique hc hb (by simp only [DyBlock.fin]; omega) (DyBlock.start_mem ⟨p, k, r⟩)
  subst heq
  simp at hlt

/-- In a tiling with the block `(p, k)`, the block over its buddy starts there. -/
theorem Tiling.buddy_start : c.start = buddy p k := by
  have hge := h.buddy_order hb hc hx
  obtain ⟨-, hp⟩ : k < n ∧ 2 ^ k ∣ p := h.dyadic _ hb
  obtain ⟨hpar, hcases⟩ := buddy_cases hp
  obtain ⟨-, hcs⟩ := h.dyadic c hc
  simp only [DyBlock.fin] at hx
  -- a block no larger than the buddy is aligned at most as coarsely
  have hbd : 2 ^ c.order ∣ buddy p k := by
    refine (pow_dvd_pow 2 hge).trans ?_
    have hpk : 2 ^ k ∣ parent p k := (pow_dvd_pow 2 (le_succ k)).trans hpar
    rcases hcases with ⟨-, h2⟩ | ⟨h1, -⟩
    · rw [h2]
      exact hpk.add (dvd_refl _)
    · rw [h1]
      exact hpk
  have hdiff : 2 ^ c.order ∣ buddy p k - c.start := dvd_sub hbd hcs
  have hzero := eq_zero_of_dvd_of_lt hdiff (by omega)
  omega

end

/-- No block of an order that could grow has its buddy in the list. -/
def ReducedBlocks (n : ℕ) (l : List (DyBlock R)) : Prop :=
  ∀ b ∈ l, b.order + 1 < n → ⟨buddy b.start b.order, b.order, b.region⟩ ∉ l

/-- The part of a tiling inside a larger aligned block is not reduced: follow the buddy of a block
down to a pair. -/
theorem Tiling.buddies_inside (h : Tiling n lo hi l) (hr : ∀ b ∈ l, b.region = r)
    (hred : ReducedBlocks n l) (hm : m < n) (hp : 2 ^ m ∣ p)
    (hin : ∀ x, p ≤ x ∧ x < p + 2 ^ m → lo ≤ x ∧ x < hi) (k : ℕ) :
    ∀ b ∈ l, b.order = k → k < m → ¬ (p ≤ b.start ∧ b.start < p + 2 ^ m) := by
  induction k using Nat.strong_induction_on with
  | _ k ih =>
    intro b hb hk hlt hbp
    obtain ⟨q, k', r'⟩ := b
    obtain rfl : k' = k := hk
    obtain ⟨-, hq⟩ : k' < n ∧ 2 ^ k' ∣ q := h.dyadic _ hb
    obtain ⟨hpar, hcases⟩ := buddy_cases hq
    have hcoarse : 2 ^ (k' + 1) ∣ 2 ^ m := pow_dvd_pow 2 hlt
    simp only at hbp
    have hnest := multiples_nested hpar (hcoarse.trans hp) hcoarse hbp (by omega)
    obtain ⟨e, he, hex⟩ := h.exists_block (hin (buddy q k') (by omega))
    have hestart := h.buddy_start hb he hex
    rcases lt_or_eq_of_le (h.buddy_order hb he hex) with hsmall | hsame
    · exact ih e.order hsmall e he rfl (by omega) (by omega)
    · have heq : e = ⟨buddy q k', k', r'⟩ := by
        obtain ⟨a, j, t⟩ := e
        obtain rfl := (hr _ he).trans (hr _ hb).symm
        simp_all
      exact hred _ hb (by simp only; omega) (heq ▸ he)

theorem Tiling.subset_of_reduced (h : Tiling n lo hi l) (h' : Tiling n lo hi l')
    (hr : ∀ b ∈ l, b.region = r) (hr' : ∀ b ∈ l', b.region = r) (hred : ReducedBlocks n l)
    (hred' : ReducedBlocks n l') : ∀ b ∈ l, b ∈ l' := by
  intro b hb
  obtain ⟨c, hc, hcx⟩ := h'.exists_block (h.inside hb b.start_mem)
  obtain ⟨hbn, hbd⟩ := h.dyadic b hb
  obtain ⟨hcn, hcd⟩ := h'.dyadic c hc
  rcases Nat.lt_trichotomy b.order c.order with hlt | heq | hgt
  · exact absurd hcx (h.buddies_inside hr hred hcn hcd (fun x hx => h'.inside hc hx) _ b hb rfl hlt)
  · have hnest := multiples_nested hbd (heq ▸ hcd) (heq ▸ dvd_refl _) hcx ⟨le_rfl, by omega⟩
    have hregion := (hr b hb).trans (hr' c hc).symm
    obtain ⟨q, j, t⟩ := b
    obtain ⟨q', j', t'⟩ := c
    simp only at heq hnest
    subst heq hregion
    obtain rfl : q = q' := by omega
    exact hc
  · have hcoarse : 2 ^ c.order ∣ 2 ^ b.order := pow_dvd_pow 2 hgt.le
    have hnest := multiples_nested hcd (hcoarse.trans hbd) hcoarse ⟨le_rfl, by omega⟩ hcx
    exact absurd ⟨hnest.1, by omega⟩ (h'.buddies_inside hr' hred' hbn hbd (fun x hx =>
      h.inside hb hx) _ c hc rfl hgt)

variable {fr : R → ℕ → List ℕ} {held : List (DyBlock R)}

def listBlocks (n : ℕ) (fr : R → ℕ → List ℕ) (r : R) : List (DyBlock R) :=
  (List.range n).flatMap fun k => (fr r k).map fun p => ⟨p, k, r⟩

theorem mem_listBlocks : b ∈ listBlocks n fr r ↔
    b.order < n ∧ b.start ∈ fr r b.order ∧ b.region = r := by
  obtain ⟨p, k, r'⟩ := b
  simp only [listBlocks, mem_flatMap, mem_range, mem_map, DyBlock.mk.injEq]
  constructor
  · rintro ⟨k', hk', p', hp', rfl, rfl, rfl⟩
    exact ⟨hk', hp', rfl⟩
  · rintro ⟨hk, hp, rfl⟩
    exact ⟨k, hk, p, hp, rfl, rfl, rfl⟩

variable [DecidableEq R]

def setList (fr : R → ℕ → List ℕ) (r : R) (k : ℕ) (l : List ℕ) : R → ℕ → List ℕ :=
  update fr r (update (fr r) k l)

@[simp] theorem setList_self (fr : R → ℕ → List ℕ) (r : R) (k : ℕ) (l : List ℕ) :
    setList fr r k l r k = l := by
  simp [setList]

theorem setList_of_ne {r' : R} {k' : ℕ} (l : List ℕ) (h : r' ≠ r ∨ k' ≠ k) :
    setList fr r k l r' k' = fr r' k' := by
  by_cases hr : r' = r
  · subst hr
    have hk : k' ≠ k := by simpa using h
    simp [setList, hk]
  · simp [setList, hr]

theorem setList_region_of_ne {r' : R} (l : List ℕ) (h : r' ≠ r) : setList fr r k l r' = fr r' := by
  simp [setList, h]

@[simp] theorem setList_setList (fr : R → ℕ → List ℕ) (r : R) (k : ℕ) (l l' : List ℕ) :
    setList (setList fr r k l) r k l' = setList fr r k l' := by
  simp [setList]

@[simp] theorem setList_eq_self (fr : R → ℕ → List ℕ) (r : R) (k : ℕ) :
    setList fr r k (fr r k) = fr := by
  simp [setList]

variable {pre post : List ℕ}

/-- Taking an entry off a list takes its block out of the region's blocks. -/
theorem listBlocks_take (hk : k < n) (hl : fr r k = pre ++ p :: post) :
    (listBlocks n fr r).Perm (⟨p, k, r⟩ :: listBlocks n (setList fr r k (pre ++ post)) r) := by
  obtain ⟨s, t, hst⟩ := append_of_mem (mem_range.mpr hk)
  have hnd : (s ++ k :: t).Nodup := hst ▸ nodup_range
  have hks : k ∉ s ++ t := (nodup_cons.mp (perm_middle.nodup_iff.mp hnd)).1
  -- the lists of the other orders are untouched
  have hcongr : ∀ j ∈ s ++ t, (setList fr r k (pre ++ post) r j).map (fun q =>
    (⟨q, j, r⟩ : DyBlock R)) =
      (fr r j).map fun q => ⟨q, j, r⟩ := by
    intro j hj
    rw [setList_of_ne _ (.inr fun hjk : j = k => hks (hjk ▸ hj))]
  unfold listBlocks
  simp only [hst, flatMap_append, flatMap_cons, hl, setList_self]
  rw [flatMap_congr fun j hj => hcongr j (mem_append_left t hj),
    flatMap_congr fun j hj => hcongr j (mem_append_right s hj)]
  simp only [map_append, append_assoc]
  generalize s.flatMap _ = before, pre.map _ = front
  rw [← append_assoc, ← append_assoc before]
  exact perm_middle

def regionBlocks (n : ℕ) (fr : R → ℕ → List ℕ) (held : List (DyBlock R)) (r : R) :
    List (DyBlock R) :=
  listBlocks n fr r ++ held.filter fun b => b.region = r

theorem mem_regionBlocks : b ∈ regionBlocks n fr held r ↔
    b.region = r ∧ ((b.order < n ∧ b.start ∈ fr r b.order) ∨ b ∈ held) := by
  simp only [regionBlocks, mem_append, mem_listBlocks, mem_filter, decide_eq_true_eq]
  tauto

/-- The free lists and the held blocks tile every region, and no page is in two regions. -/
structure Tiled (n : ℕ) (lo hi : R → ℕ) (fr : R → ℕ → List ℕ) (held : List (DyBlock R)) : Prop where
  tiling : ∀ r, Tiling n (lo r) (hi r) (regionBlocks n fr held r)
  bounded : ∀ r k, n ≤ k → fr r k = []
  apart : ∀ r r' x, lo r ≤ x ∧ x < hi r → lo r' ≤ x ∧ x < hi r' → r = r'

variable {lo hi : R → ℕ} {r r' : R} {p q k k' : ℕ}

theorem Tiled.order_lt (h : Tiled n lo hi fr held) (hp : p ∈ fr r k) : k < n := by
  by_contra hk
  simp [h.bounded r k (by omega)] at hp

theorem Tiled.free_mem (h : Tiled n lo hi fr held) (hp : p ∈ fr r k) :
    (⟨p, k, r⟩ : DyBlock R) ∈ regionBlocks n fr held r :=
  mem_regionBlocks.mpr ⟨rfl, .inl ⟨h.order_lt hp, hp⟩⟩

theorem held_mem (hb : b ∈ held) : b ∈ regionBlocks n fr held b.region :=
  mem_regionBlocks.mpr ⟨rfl, .inr hb⟩

theorem Tiled.free_inside (h : Tiled n lo hi fr held) (hp : p ∈ fr r k)
    (hx : p ≤ x ∧ x < p + 2 ^ k) : lo r ≤ x ∧ x < hi r :=
  (h.tiling r).inside (h.free_mem hp) hx

theorem Tiled.held_inside (h : Tiled n lo hi fr held) (hb : b ∈ held)
    (hx : b.start ≤ x ∧ x < b.fin) : lo b.region ≤ x ∧ x < hi b.region :=
  (h.tiling b.region).inside (held_mem hb) hx

/-- A page on two lists is one list entry. -/
theorem Tiled.free_unique (h : Tiled n lo hi fr held) (hp : p ∈ fr r k) (hp' : p ∈ fr r' k') :
    r = r' ∧ k = k' := by
  have hx : ∀ j, p ≤ p ∧ p < p + 2 ^ j :=
    fun j => ⟨le_rfl, Nat.lt_add_of_pos_right (Nat.two_pow_pos j)⟩
  obtain rfl := h.apart r r' p (h.free_inside hp (hx k)) (h.free_inside hp' (hx k'))
  have heq := (h.tiling r).unique (h.free_mem hp) (h.free_mem hp') (hx k) (hx k')
  exact ⟨rfl, congrArg DyBlock.order heq⟩

theorem regionBlocks_cons_self (n : ℕ) (fr : R → ℕ → List ℕ) (b : DyBlock R)
    (held : List (DyBlock R)) : (regionBlocks n fr (b :: held) b.region).Perm (b ::
    regionBlocks n fr held b.region) := by
  simp [regionBlocks]

theorem regionBlocks_cons_of_ne (h : b.region ≠ r) :
    regionBlocks n fr (b :: held) r = regionBlocks n fr held r := by
  simp [regionBlocks, h]

variable {held' : List (DyBlock R)}

theorem Tiled.perm (h : Tiled n lo hi fr held) (hp : held.Perm held') : Tiled n lo hi fr held' :=
  ⟨fun r => (h.tiling r).perm ((hp.filter _).append_left _), h.bounded, h.apart⟩

theorem Tiled.head_apart (h : Tiled n lo hi fr (b :: held)) (hc : c ∈ regionBlocks n fr held r)
    (hx : b.start ≤ x ∧ x < b.fin) : ¬ (c.start ≤ x ∧ x < c.fin) := by
  intro hcx
  by_cases hr : b.region = r
  · subst hr
    exact ((h.tiling _).perm (regionBlocks_cons_self n fr b held)).head_apart hc hx hcx
  · rw [← regionBlocks_cons_of_ne hr] at hc
    have hin := (h.tiling r).inside hc hcx
    exact hr (h.apart b.region r x (h.held_inside (by simp) hx) hin)

theorem Tiled.held_not_free (h : Tiled n lo hi fr held) (hb : b ∈ held)
    (hx : b.start ≤ x ∧ x < b.fin) : x ∉ fr r k := by
  obtain ⟨s, t, rfl⟩ := append_of_mem hb
  intro hxf
  have hmem : ⟨x, k, r⟩ ∈ regionBlocks n fr (s ++ t) r :=
    mem_regionBlocks.mpr ⟨rfl, .inl ⟨h.order_lt hxf, hxf⟩⟩
  exact (h.perm perm_middle).head_apart hmem hx (DyBlock.start_mem _)

theorem Tiled.held_apart (h : Tiled n lo hi fr (held ++ held'))
    (hb : b ∈ held) (hc : c ∈ held') (hx : b.start ≤ x ∧ x < b.fin) :
    ¬ (c.start ≤ x ∧ x < c.fin) := by
  obtain ⟨s, t, rfl⟩ := append_of_mem hb
  have hperm : (s ++ b :: t ++ held').Perm (b :: (s ++ t ++ held')) := by
    rw [append_assoc, append_assoc]
    exact perm_middle
  exact (h.perm hperm).head_apart (held_mem (by simp [hc])) hx

theorem Tiled.held_pairwise (h : Tiled n lo hi fr held) :
    held.Pairwise (Apart DyBlock.start DyBlock.fin) := by
  refine pairwise_iff_forall_sublist.mpr fun {a b} hsub => ?_
  obtain ⟨l, hl⟩ := hsub.exists_perm_append
  intro x hx
  exact (h.perm hl).head_apart (held_mem (by simp)) hx.1 hx.2

theorem Tiled.free_nodup (h : Tiled n lo hi fr held) (r : R) (k : ℕ) : (fr r k).Nodup := by
  by_cases hk : k < n
  · have hlist : (listBlocks n fr r).Nodup := (nodup_append.mp (h.tiling r).nodup).1
    exact List.Nodup.of_map _ ((nodup_flatMap.mp hlist).1 k (mem_range.mpr hk))
  · simp [h.bounded r k (by omega)]

theorem regionBlocks_take (hk : k < n) (hl : fr r k = pre ++ p :: post) (r' : R) :
    (regionBlocks n fr held r').Perm
      (regionBlocks n (setList fr r k (pre ++ post)) (⟨p, k, r⟩ :: held) r') := by
  by_cases hr : r' = r
  · subst hr
    exact (((listBlocks_take hk hl).append_right _).trans (regionBlocks_cons_self _ _ _ _).symm)
  · rw [regionBlocks_cons_of_ne (Ne.symm hr)]
    simp only [regionBlocks, listBlocks, setList_region_of_ne _ hr]
    exact List.Perm.refl _

theorem Tiled.take (h : Tiled n lo hi fr held) (hl : fr r k = pre ++ p :: post) :
    Tiled n lo hi (setList fr r k (pre ++ post)) (⟨p, k, r⟩ :: held) := by
  have hk : k < n := h.order_lt (p := p) (by rw [hl]; simp)
  refine ⟨fun r' => (h.tiling r').perm (regionBlocks_take hk hl r'), fun r' k' hk' => ?_, h.apart⟩
  rw [setList_of_ne _ (.inr (by omega))]
  exact h.bounded r' k' hk'

theorem Tiled.give (h : Tiled n lo hi fr (⟨p, k, r⟩ :: held)) :
    Tiled n lo hi (setList fr r k (p :: fr r k)) held := by
  have hk : k < n := ((h.tiling r).dyadic ⟨p, k, r⟩ (held_mem (by simp))).1
  refine ⟨fun r' => ?_, fun r' k' hk' => ?_, h.apart⟩
  · have hself : setList fr r k (p :: fr r k) r k = [] ++ p :: fr r k := setList_self _ _ _ _
    have hperm : (regionBlocks n _ held r').Perm _ := regionBlocks_take hk hself r'
    rw [nil_append, setList_setList, setList_eq_self] at hperm
    exact (h.tiling r').perm hperm.symm
  · rw [setList_of_ne _ (.inr (by omega))]
    exact h.bounded r' k' hk'

theorem Tiled.split (h : Tiled n lo hi fr (⟨p, k + 1, r⟩ :: held)) :
    Tiled n lo hi fr (⟨p, k, r⟩ :: ⟨p + 2 ^ k, k, r⟩ :: held) := by
  refine ⟨fun r' => ?_, h.bounded, h.apart⟩
  by_cases hr : r = r'
  · subst hr
    refine (((h.tiling r).perm (regionBlocks_cons_self n fr ⟨p, k + 1, r⟩ held)).split).perm ?_
    exact ((regionBlocks_cons_self n fr ⟨p, k, r⟩ _).trans
      ((regionBlocks_cons_self n fr ⟨p + 2 ^ k, k, r⟩ held).cons _)).symm
  · rw [regionBlocks_cons_of_ne hr,
      regionBlocks_cons_of_ne hr, ← regionBlocks_cons_of_ne (b := ⟨p, k + 1, r⟩) hr]
    exact h.tiling r'

theorem Tiled.join (h : Tiled n lo hi fr (⟨p, k, r⟩ :: ⟨p + 2 ^ k, k, r⟩ :: held)) (hk : k + 1 < n)
    (hp : 2 ^ (k + 1) ∣ p) : Tiled n lo hi fr (⟨p, k + 1, r⟩ :: held) := by
  refine ⟨fun r' => ?_, h.bounded, h.apart⟩
  by_cases hr : r = r'
  · subst hr
    refine Tiling.perm (Tiling.join ((h.tiling r).perm ?_) hk hp) (regionBlocks_cons_self n fr ⟨p,
      k + 1, r⟩ held).symm
    exact (regionBlocks_cons_self n fr ⟨p, k, r⟩ _).trans ((regionBlocks_cons_self n fr ⟨p + 2 ^ k,
      k, r⟩ held).cons _)
  · rw [regionBlocks_cons_of_ne hr]
    have := h.tiling r'
    rwa [regionBlocks_cons_of_ne hr, regionBlocks_cons_of_ne hr] at this

theorem Tiled.extend (h : Tiled n lo hi fr held) (hlo : lo r ≤ hi r) (hk : k < n)
    (hp : 2 ^ k ∣ hi r) (hapart : ∀ r' x, r' ≠ r → hi r ≤ x ∧ x < hi r + 2 ^ k →
    ¬ (lo r' ≤ x ∧ x < hi r')) :
    Tiled n lo (update hi r (hi r + 2 ^ k)) fr (⟨hi r, k, r⟩ :: held) := by
  refine ⟨fun r' => ?_, h.bounded, fun r₁ r₂ x h₁ h₂ => ?_⟩
  · by_cases hr : r' = r
    · subst hr
      rw [update_self]
      exact ((h.tiling r').extend hlo hk hp).perm (regionBlocks_cons_self n fr ⟨hi r', k, r'⟩ held).symm
    · rw [update_of_ne hr, regionBlocks_cons_of_ne (Ne.symm hr)]
      exact h.tiling r'
  · -- a page in the new part is in no other region
    by_cases hr₁ : r₁ = r <;> by_cases hr₂ : r₂ = r
    · rw [hr₁, hr₂]
    · subst hr₁
      rw [update_self] at h₁
      rw [update_of_ne hr₂] at h₂
      by_cases hx : x < hi r₁
      · exact h.apart r₁ r₂ x ⟨h₁.1, hx⟩ h₂
      · exact absurd h₂ (hapart r₂ x hr₂ ⟨by omega, h₁.2⟩)
    · subst hr₂
      rw [update_self] at h₂
      rw [update_of_ne hr₁] at h₁
      by_cases hx : x < hi r₂
      · exact h.apart r₁ r₂ x h₁ ⟨h₂.1, hx⟩
      · exact absurd h₁ (hapart r₁ x hr₁ ⟨by omega, h₂.2⟩)
    · rw [update_of_ne hr₁] at h₁
      rw [update_of_ne hr₂] at h₂
      exact h.apart r₁ r₂ x h₁ h₂

/-- The buddy of a free block, when it lies in the region, is the start of a block. -/
theorem Tiled.buddy_block (h : Tiled n lo hi fr held) (hp : p ∈ fr r k)
    (hin : lo r ≤ buddy p k ∧ buddy p k < hi r) :
    (∃ j, buddy p k ∈ fr r j) ∨ ∃ b ∈ held, b.start = buddy p k := by
  obtain ⟨c, hc, hcx⟩ := (h.tiling r).exists_block hin
  have hstart := (h.tiling r).buddy_start (h.free_mem hp) hc hcx
  obtain ⟨-, ⟨-, hcf⟩ | hcf⟩ := mem_regionBlocks.mp hc
  · exact .inl ⟨c.order, hstart ▸ hcf⟩
  · exact .inr ⟨c, hcf, hstart⟩

theorem buddy_ne (p k : ℕ) : buddy p k ≠ p := by
  unfold buddy
  split_ifs with h
  · omega
  · have hp : p ≠ 0 := fun h0 => h (by rw [h0, Nat.zero_mod])
    omega

theorem buddy_buddy (hp : 2 ^ k ∣ p) : buddy (buddy p k) k = p := by
  obtain ⟨⟨m, hpar⟩, ⟨h1, h2⟩ | ⟨h1, h2⟩⟩ := buddy_cases hp
  · have hmod : buddy p k % 2 ^ (k + 1) = 2 ^ k := by
      rw [h2, hpar, Nat.mul_add_mod, Nat.mod_eq_of_lt (by omega)]
    rw [buddy, if_neg (by omega)]
    omega
  · have hmod : buddy p k % 2 ^ (k + 1) = 0 := by rw [h1, hpar, mul_mod_right]
    rw [buddy, if_pos hmod]
    omega

/-- No list of an order that could grow holds a block and its buddy. -/
def Reduced (n : ℕ) (fr : R → ℕ → List ℕ) : Prop :=
  ∀ r k, k + 1 < n → ∀ p ∈ fr r k, buddy p k ∉ fr r k

/-- The pairs of buddies on the lists all involve block `(p, k)` of region `r`. -/
def ReducedBut (n : ℕ) (fr : R → ℕ → List ℕ) (r : R) (k p : ℕ) : Prop :=
  ∀ r' j, j + 1 < n → ∀ q ∈ fr r' j, buddy q j ∈ fr r' j → r' = r ∧ j = k ∧ (q = p ∨ buddy q j = p)

variable {fr' : R → ℕ → List ℕ}

omit [DecidableEq R] in
theorem Reduced.mono (h : Reduced n fr) (hs : ∀ r k, fr' r k ⊆ fr r k) : Reduced n fr' :=
  fun r k hk p hp hq => h r k hk p (hs r k hp) (hs r k hq)

omit [DecidableEq R] in
theorem Reduced.blocks (h : Reduced n fr) (r : R) : ReducedBlocks n (listBlocks n fr r) := by
  intro b hb hk hbuddy
  obtain ⟨-, hstart, -⟩ := mem_listBlocks.mp hb
  obtain ⟨-, hother, -⟩ := mem_listBlocks.mp hbuddy
  exact h r b.order hk b.start hstart hother

/-- One list may be replaced by any list without a pair. -/
theorem Reduced.set (h : Reduced n (setList fr r k [])) {l : List ℕ}
    (hl : k + 1 < n → ∀ p ∈ l, buddy p k ∉ l) : Reduced n (setList fr r k l) := by
  intro r' j hj p hp hq
  by_cases he : r' = r ∧ j = k
  · obtain ⟨rfl, rfl⟩ := he
    rw [setList_self] at hp hq
    exact hl hj p hp hq
  · have hne : r' ≠ r ∨ j ≠ k := by tauto
    rw [setList_of_ne l hne] at hp hq
    have := h r' j hj p
    rw [setList_of_ne [] hne] at this
    exact this hp hq

theorem setList_subset {l : List ℕ} (hl : l ⊆ fr r k) (r' : R) (j : ℕ) :
    setList fr r k l r' j ⊆ fr r' j := by
  by_cases he : r' = r ∧ j = k
  · obtain ⟨rfl, rfl⟩ := he
    rwa [setList_self]
  · rw [setList_of_ne l (by tauto)]
    exact List.Subset.refl _

theorem mem_give {q j : ℕ} (h : q ∈ setList fr r k (p :: fr r k) r' j) :
    q ∈ fr r' j ∨ (r' = r ∧ j = k ∧ q = p) := by
  by_cases he : r' = r ∧ j = k
  · obtain ⟨rfl, rfl⟩ := he
    rw [setList_self] at h
    rcases mem_cons.mp h with h | h
    · exact .inr ⟨rfl, rfl, h⟩
    · exact .inl h
  · rw [setList_of_ne _ (by tauto)] at h
    exact .inl h

theorem Tiled.mem_take {q j : ℕ} (h : Tiled n lo hi fr held)
    (hl : fr r k = pre ++ p :: post) (hq : q ∈ setList fr r k (pre ++ post) r' j) :
    q ∈ fr r' j ∧ ¬ (r' = r ∧ j = k ∧ q = p) := by
  by_cases he : r' = r ∧ j = k
  · obtain ⟨rfl, rfl⟩ := he
    rw [setList_self] at hq
    have hnodup := h.free_nodup r' j
    rw [hl, nodup_middle] at hnodup
    refine ⟨?_, fun hp => (nodup_cons.mp hnodup).1 (hp.2.2 ▸ hq)⟩
    rw [hl]
    exact perm_middle.mem_iff.mpr (mem_cons_of_mem p hq)
  · rw [setList_of_ne _ (by tauto)] at hq
    exact ⟨hq, fun hp => he ⟨hp.1, hp.2.1⟩⟩

theorem Reduced.push (h : Reduced n fr) : ReducedBut n (setList fr r k (p :: fr r k)) r k p := by
  intro r' j hj q hq hb
  rcases mem_give hq with hq | ⟨h1, h2, h3⟩
  · rcases mem_give hb with hb | ⟨h1, h2, h3⟩
    · exact absurd hb (h r' j hj q hq)
    · exact ⟨h1, h2, .inr h3⟩
  · exact ⟨h1, h2, .inl h3⟩

omit [DecidableEq R] in
/-- The block was combined with its buddy. -/
theorem ReducedBut.combine (h : ReducedBut n fr r k p)
    (hfr : ∀ r' j q, q ∈ fr' r' j → (q ∈ fr r' j ∧ ¬ (r' = r ∧ j = k ∧ (q = p ∨ q = buddy p k))) ∨
      (r' = r ∧ j = k + 1 ∧ q = parent p k)) : ReducedBut n fr' r (k + 1) (parent p k) := by
  intro r' j hj q hq hb
  rcases hfr r' j q hq with ⟨hq, hqp⟩ | ⟨h1, h2, h3⟩
  · rcases hfr r' j _ hb with ⟨hb, hbp⟩ | ⟨h1, h2, h3⟩
    · obtain ⟨h1, h2, h3⟩ := h r' j hj q hq hb
      rcases h3 with h3 | h3
      · exact absurd ⟨h1, h2, .inl h3⟩ hqp
      · exact absurd ⟨h1, h2, .inl h3⟩ hbp
    · exact ⟨h1, h2, .inr h3⟩
  · exact ⟨h1, h2, .inl h3⟩

omit [DecidableEq R] in
/-- A block whose buddy is not on the list ends the combining. -/
theorem ReducedBut.done (h : ReducedBut n fr r k p) (hd : ∀ q ∈ fr r k, 2 ^ k ∣ q)
    (hb : k + 1 < n → buddy p k ∉ fr r k) : Reduced n fr := by
  intro r' j hj q hq hq'
  obtain ⟨rfl, rfl, h3⟩ := h r' j hj q hq hq'
  rcases h3 with rfl | h3
  · exact hb hj hq'
  · apply hb hj
    rw [← h3, buddy_buddy (hd q hq)]
    exact hq

/-- Free lists that tile the regions and hold no buddies are determined by the regions. -/
theorem Tiled.canonical (h : Tiled n lo hi fr []) (h' : Tiled n lo hi fr' [])
    (hred : Reduced n fr) (hred' : Reduced n fr') (hp : p ∈ fr r k) : p ∈ fr' r k := by
  have ht := h.tiling r
  have ht' := h'.tiling r
  simp only [regionBlocks, filter_nil, append_nil] at ht ht'
  have hmem : ⟨p, k, r⟩ ∈ listBlocks n fr r := mem_listBlocks.mpr ⟨h.order_lt hp, hp, rfl⟩
  have := ht.subset_of_reduced ht' (fun b hb => (mem_listBlocks.mp hb).2.2)
    (fun b hb => (mem_listBlocks.mp hb).2.2) (hred.blocks r) (hred'.blocks r) _ hmem
  exact (mem_listBlocks.mp this).2.1

/-- A region filled from below with the largest block that fits holds no buddies: the lower one
would have been larger. -/
theorem Tiled.reduced_of_greedy (h : Tiled n lo hi fr held)
    (hg : ∀ k, k + 1 < n → ∀ p ∈ fr r k, ¬ (2 ^ (k + 1) ∣ p ∧ p + 2 ^ (k + 1) ≤ hi r)) :
    ∀ k, k + 1 < n → ∀ p ∈ fr r k, buddy p k ∉ fr r k := by
  intro k hk p hp hb
  have hdvd : 2 ^ k ∣ p := ((h.tiling r).dyadic _ (h.free_mem hp)).2
  obtain ⟨hpar, hcases⟩ := buddy_cases hdvd
  have hin := h.free_inside hp (x := p + 2 ^ k - 1) (by omega)
  have hin' := h.free_inside hb (x := buddy p k + 2 ^ k - 1) (by omega)
  have hmem : parent p k ∈ fr r k := by
    rcases hcases with ⟨h1, -⟩ | ⟨h1, -⟩
    · exact h1 ▸ hp
    · exact h1 ▸ hb
  have hend : parent p k + 2 ^ (k + 1) ≤ hi r := by
    rcases hcases with ⟨h1, h2⟩ | ⟨h1, h2⟩ <;> omega
  exact hg k hk _ hmem ⟨hpar, hend⟩

end Toddler
