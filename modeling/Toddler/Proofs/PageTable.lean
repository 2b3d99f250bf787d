import Toddler.Lib.Radix
import Toddler.Spec.PageTable

/-! What `map_page` and `unmap_page` do to the tree of tables: it stays a tree of separate tables in
which only the root may be empty, and the valid leaves change in one block only. -/

namespace Toddler.PageTable

open Function Option Nat

open Radix

variable {A : FrameAllocator} {s s' : PageMem A} {root v t f j k : ℕ} {e : PageTableEntry}
  {p q : ℕ → Fin pageTableEntryCount}

def path (vaddr : ℕ) : ℕ → Fin pageTableEntryCount := fun k => pteIndex (k + 1) vaddr

def nextTable (k : ℕ) (e : PageTableEntry) : Option ℕ :=
  if e.present && !pageIsPteLeaf e (k + 1) then some e.pfn.toNat else none

def ValidLeaf (k : ℕ) (e : PageTableEntry) : Prop :=
  e.present = true ∧ pageIsPteLeaf e (k + 1) = true

def PageMem.radix (s : PageMem A) (root : ℕ) : Radix (Fin pageTableEntryCount) PageTableEntry :=
  ⟨nextTable, root, s.mem⟩

theorem nextTable_leaf {k : ℕ} {e : PageTableEntry} (h : ValidLeaf k e) : nextTable k e = none := by
  simp [nextTable, h.2]

theorem nextTable_invalid (h : e.present = false) : nextTable k e = none := by
  simp [nextTable, h]

theorem nextTable_link (h : e.present = true) (hl : pageIsPteLeaf e (k + 1) = false) :
    nextTable k e = some e.pfn.toNat := by
  simp [nextTable, h, hl]

theorem pageIsPteLeaf_last (e : PageTableEntry) (hk : 3 ≤ k) : pageIsPteLeaf e (k + 1) = true := by
  rw [pageIsPteLeaf, if_neg (by omega), if_neg (by omega)]

theorem not_validLeaf_top (hk : k < 2) : ¬ ValidLeaf k e := by
  rintro ⟨-, h⟩
  rw [pageIsPteLeaf, if_pos (by omega)] at h
  cases h

def Leaf (s : PageMem A) (root : ℕ) (p : ℕ → Fin pageTableEntryCount) (k : ℕ)
    (e : PageTableEntry) : Prop :=
  HasLeaf ValidLeaf (s.radix root) p k e

theorem leaf_depth (h : Leaf s root p k e) : k ≤ 3 := by
  by_contra hk
  have hnone : (s.radix root).tableAt p 4 = none := by
    rw [tableAt_succ]
    cases (s.radix root).entryAt p 3 with
    | none => rfl
    | some x =>
      change nextTable 3 x = none
      simp [nextTable, pageIsPteLeaf_last x le_rfl]
  have hentry := h.1
  rw [entryAt, tableAt_none_of_le hnone (by omega)] at hentry
  cases hentry

theorem leaf_congr (h : SamePath (k + 1) p q) : Leaf s root p k e ↔ Leaf s root q k e := by
  rw [Leaf, Leaf, HasLeaf, HasLeaf, entryAt_congr h]

theorem findLeaf_iff {l : ℕ} : ∀ (k depth table : ℕ), depth + k = 3 →
    (s.radix root).tableAt (path v) depth = some table →
    (findLeaf s v k (depth + 1) table = some (l, e) ↔ ∃ j, depth ≤ j ∧ l = j + 1 ∧
      Leaf s root (path v) j e) := by
  intro k
  induction k with
  | zero =>
    intro depth table hd ht
    have hentry := entryAt_of_tableAt ht
    change (s.radix root).entryAt (path v) depth = some (s.mem table (pteIndex (depth + 1) v)) at hentry
    have hlast := pageIsPteLeaf_last (s.mem table (pteIndex (depth + 1) v)) (show 3 ≤ depth by omega)
    simp only [findLeaf, hlast, Bool.and_true]
    constructor
    · intro h
      split_ifs at h with hp
      obtain ⟨rfl, rfl⟩ := h
      exact ⟨depth, le_rfl, rfl, hentry, hp, hlast⟩
    · rintro ⟨j, hj, rfl, hleaf⟩
      obtain rfl : j = depth := le_antisymm ((leaf_depth hleaf).trans (by omega)) hj
      obtain rfl := Option.some.inj (hentry.symm.trans hleaf.1)
      rw [if_pos hleaf.2.1]
  | succ k ih =>
    intro depth table hd ht
    have hentry := entryAt_of_tableAt ht
    change (s.radix root).entryAt (path v) depth = some (s.mem table (pteIndex (depth + 1) v)) at hentry
    rw [findLeaf]
    generalize s.mem table (pteIndex (depth + 1) v) = pte at hentry
    cases hp : pte.present with
    | false =>
      simp only [Bool.not_false, if_true, reduceCtorEq, false_iff, not_exists, not_and]
      rintro j hj - hleaf
      rcases eq_or_lt_of_le hj with rfl | hlt
      · obtain rfl := Option.some.inj (hentry.symm.trans hleaf.1)
        simp [hleaf.2.1] at hp
      · have := entryAt_deeper hentry (nextTable_invalid hp) hlt
        rw [hleaf.1] at this
        cases this
    | true =>
      cases hl : pageIsPteLeaf pte (depth + 1) with
      | true =>
        simp only [Bool.not_true, Bool.false_eq_true, if_false, if_true, Option.some.injEq, Prod.mk.injEq]
        constructor
        · rintro ⟨rfl, rfl⟩
          exact ⟨depth, le_rfl, rfl, hentry, hp, hl⟩
        · rintro ⟨j, hj, rfl, hleaf⟩
          rcases eq_or_lt_of_le hj with rfl | hlt
          · exact ⟨rfl, Option.some.inj (hentry.symm.trans hleaf.1)⟩
          · have := entryAt_deeper hentry (nextTable_leaf ⟨hp, hl⟩) hlt
            rw [hleaf.1] at this
            cases this
      | false =>
        have hnext : (s.radix root).tableAt (path v) (depth + 1) = some pte.pfn.toNat := by
          rw [tableAt_succ, hentry]
          exact nextTable_link hp hl
        simp only [Bool.not_true, Bool.false_eq_true, if_false]
        rw [ih (depth + 1) pte.pfn.toNat (by omega) hnext]
        constructor
        · rintro ⟨j, hj, hrest⟩
          exact ⟨j, by omega, hrest⟩
        · rintro ⟨j, hj, rfl, hleaf⟩
          rcases eq_or_lt_of_le hj with rfl | hlt
          · obtain rfl := Option.some.inj (hentry.symm.trans hleaf.1)
            rw [hleaf.2.2] at hl
            cases hl
          · exact ⟨j, hlt, rfl, hleaf⟩

theorem leafEntry_iff {l : ℕ} :
    leafEntry s root v = some (l, e) ↔ ∃ j, l = j + 1 ∧ Leaf s root (path v) j e := by
  rw [leafEntry, show pageLevels - 1 = 3 from rfl, findLeaf_iff 3 0 root rfl rfl]
  simp

theorem leafEntry_eq_none : leafEntry s root v = none ↔ ∀ j e, ¬ Leaf s root (path v) j e := by
  rw [eq_none_iff_forall_ne_some]
  constructor
  · intro h j e hleaf
    exact h (j + 1, e) (leafEntry_iff.mpr ⟨j, rfl, hleaf⟩)
  · rintro h ⟨l, e⟩ hsome
    obtain ⟨j, -, hleaf⟩ := leafEntry_iff.mp hsome
    exact h j e hleaf

/-- `generic_translate` reads the leaf entry. -/
theorem translateLoop_eq : ∀ (k level table : ℕ), level + k = pageLevels →
    translateLoop s v k level table = match findLeaf s v k level table with
    | none => some 0
    | some (l, e) => pageGetPteDestPaddr e l v := by
  intro k
  induction k with
  | zero =>
    intro level table hlevel
    have hlast : pageIsPteLeaf (s.mem table (pteIndex level v)) level = true := by
      obtain rfl : level = 3 + 1 := hlevel
      exact pageIsPteLeaf_last _ le_rfl
    simp only [translateLoop, findLeaf, hlast]
    cases (s.mem table (pteIndex level v)).present <;> rfl
  | succ k ih =>
    intro level table hlevel
    have hnext := ih (level + 1) (s.mem table (pteIndex level v)).pfn.toNat (by omega)
    simp only [translateLoop, findLeaf]
    cases (s.mem table (pteIndex level v)).present with
    | false => rfl
    | true =>
      cases pageIsPteLeaf (s.mem table (pteIndex level v)) level with
      | true => rfl
      | false => simpa using hnext

theorem genericTranslate_eq (s : PageMem A) (root v : ℕ) :
    genericTranslate s root v = match leafEntry s root v with
    | none => some 0
    | some (l, e) => pageGetPteDestPaddr e l v := translateLoop_eq 3 1 root rfl

def GoodEntry (k : ℕ) (e : PageTableEntry) : Prop :=
  e = .zero ∨ (e.present = true ∧ (k = 2 → e.largePage = true → 512 ∣ e.pfn.toNat))

structure Shape (root : ℕ) (s : PageMem A) : Prop where
  separate : (s.radix root).Separate
  used : ∀ p k f, (s.radix root).tableAt p k = some f → f ∈ A.used s.frames
  entries : ∀ p k f i, (s.radix root).tableAt p k = some f → GoodEntry k (s.mem f i)

/-- No table but the root and `t` is empty. -/
def FullBut (root t : ℕ) (s : PageMem A) : Prop :=
  ∀ p k f, (s.radix root).tableAt p (k + 1) = some f → f ≠ t → ∃ i, s.mem f i ≠ .zero

def Full (root : ℕ) (s : PageMem A) : Prop :=
  ∀ p k f, (s.radix root).tableAt p (k + 1) = some f → ∃ i, s.mem f i ≠ .zero

theorem Full.fullBut (h : Full root s) (t : ℕ) : FullBut root t s := fun p k f hf _ => h p k f hf

theorem FullBut.full (h : FullBut root t s) (ht : ∃ i, s.mem t i ≠ .zero) : Full root s := by
  intro p k f hf
  by_cases hft : f = t
  · rw [hft]
    exact ht
  · exact h p k f hf hft

theorem FullBut.full_of_root (h : FullBut root root s) (hs : Shape root s) : Full root s := by
  intro p k f hf
  apply h p k f hf
  rintro rfl
  exact succ_ne_zero k (hs.separate.root_depth hf)

theorem ne_zero_of_present (h : e.present = true) : e ≠ .zero := by
  rintro rfl
  cases h

theorem EmptyTable.shape (h : EmptyTable root s) : Shape root s ∧ Full root s := by
  have hnone : ∀ p k, (s.radix root).tableAt p (k + 1) = none := by
    intro p k
    refine tableAt_none_of_le (k := 1) ?_ (by omega)
    change nextTable 0 (s.mem root (p 0)) = none
    rw [h.empty]
    rfl
  have hroot : ∀ p k f, (s.radix root).tableAt p k = some f → k = 0 ∧ f = root := by
    rintro p (_ | k) f hf
    · exact ⟨rfl, (Option.some.inj hf).symm⟩
    · rw [hnone] at hf
      cases hf
  refine ⟨⟨?_, ?_, ?_⟩, ?_⟩
  · intro p q j k f hp hq
    obtain ⟨rfl, -⟩ := hroot p j f hp
    obtain ⟨rfl, -⟩ := hroot q k f hq
    exact ⟨rfl, fun i hi => absurd hi (not_lt_zero i)⟩
  · intro p k f hf
    rw [(hroot p k f hf).2]
    exact h.used
  · intro p k f i hf
    rw [(hroot p k f hf).2]
    exact .inl (h.empty i)
  · intro p k f hf
    rw [hnone] at hf
    cases hf

section Write

variable (hs : Shape root s) (ht : (s.radix root).tableAt p k = some t)

include hs ht

/-- Writing an entry that does not lead to a table. -/
theorem Shape.setPte (he : nextTable k e = none) (hgood : GoodEntry k e) :
    Shape root (s.setPte t (p k) e) := by
  have hsub : ∀ q j f, ((s.setPte t (p k) e).radix root).tableAt q j = some f →
      (s.radix root).tableAt q j = some f :=
    fun q j f h => tableAt_set_subset hs.separate ht he h
  refine ⟨hs.separate.of_subset hsub, fun q j f h => hs.used q j f (hsub q j f h),
    fun q j f i h => ?_⟩
  have hold := hsub q j f h
  by_cases hi : f = t ∧ i = p k
  · obtain ⟨rfl, rfl⟩ := hi
    obtain ⟨rfl, -⟩ := hs.separate p q k j f ht hold
    rw [show (s.setPte f (p k) e).mem f (p k) = e from set_mem_self (s.radix root) f (p k) e]
    exact hgood
  · rw [show (s.setPte t (p k) e).mem f i =
      s.mem f i from set_mem_of_ne (s.radix root) (not_and_or.mp hi) e]
    exact hs.entries q j f i hold

theorem FullBut.setPte (hfull : FullBut root t s) (he : nextTable k e = none) :
    FullBut root t (s.setPte t (p k) e) := by
  intro q j g hg hgt
  obtain ⟨i, hi⟩ := hfull q j g (tableAt_set_subset hs.separate ht he hg) hgt
  refine ⟨i, ?_⟩
  rwa [show (s.setPte t (p k) e).mem g i = s.mem g i from set_mem_of_ne (s.radix root) (.inl hgt) e]

end Write

theorem setPte_self (i : Fin pageTableEntryCount) : (s.setPte t i e).mem t i = e :=
  set_mem_self (s.radix 0) t i e

variable {n : ℕ}

theorem pfn_toNat_of_lt (h : n < 2 ^ 51) : (BitVec.ofNat 51 n).toNat = n := by
  rw [BitVec.toNat_ofNat, mod_eq_of_lt h]

theorem nextTable_pageSetPteNextTable (hk : k < 3) (hf : f < 2 ^ 51) :
    nextTable k (pageSetPteNextTable f) = some f := by
  have hleaf : pageIsPteLeaf (pageSetPteNextTable f) (k + 1) = false := by
    rw [pageIsPteLeaf]
    split_ifs with h1 h2
    · rfl
    · rfl
    · omega
  rw [nextTable_link rfl hleaf]
  exact congrArg some (pfn_toNat_of_lt hf)

def linked (s : PageMem A) (t : ℕ) (i : Fin pageTableEntryCount) : PageMem A :=
  (pageAllocTable s).2.setPte t i (pageSetPteNextTable (pageAllocTable s).1)

section NewTable

variable (hs : Shape root s) (ht : (s.radix root).tableAt p k = some t)
  (hne : (pageAllocTable s).1 ≠ 0)

include hs hne

theorem newTable_fresh (q : ℕ → Fin pageTableEntryCount) (j : ℕ) :
    (s.radix root).tableAt q j ≠ some (pageAllocTable s).1 := by
  intro h
  exact A.palloc_fresh s.frames hne (hs.used q j _ h)

include ht

theorem tableAt_linked (hk : k < 3) :
    ((linked s t (p k)).radix root).tableAt p (k + 1) = some (pageAllocTable s).1 :=
  tableAt_link_on hs.separate ht (newTable_fresh hs hne)
    (nextTable_pageSetPteNextTable hk (A.palloc_lt s.frames)) (SamePath.refl _ p)

theorem tableAt_of_linked (hk : k < 3) {g : ℕ}
    (h : ((linked s t (p k)).radix root).tableAt q j = some g) :
    (s.radix root).tableAt q j = some g ∨ (g = (pageAllocTable s).1 ∧ j = k + 1 ∧
    SamePath (k + 1) p q) :=
  tableAt_link hs.separate ht (newTable_fresh hs hne)
    (nextTable_pageSetPteNextTable hk (A.palloc_lt s.frames)) rfl h

omit ht in
theorem linked_mem_old {g : ℕ} (hg : (s.radix root).tableAt q j = some g)
    {i : Fin pageTableEntryCount} (hi : g ≠ t ∨ i ≠ p k) :
    (linked s t (p k)).mem g i = s.mem g i := by
  have hgf : g ≠ (pageAllocTable s).1 := fun h => newTable_fresh hs hne q j (h ▸ hg)
  exact (set_mem_of_ne ((s.radix root).clear _ _) hi _).trans (clear_mem_of_ne _ hgf _ i)

theorem Shape.linked (hk : k < 3) : Shape root (linked s t (p k)) := by
  have hcases := fun q j g => tableAt_of_linked (q := q) (j := j) hs ht hne hk (g := g)
  refine ⟨?_, ?_, ?_⟩
  · exact link_separate hs.separate ht (newTable_fresh hs hne)
      (nextTable_pageSetPteNextTable hk (A.palloc_lt s.frames)) rfl
  · intro q j g hg
    change g ∈ A.used (A.palloc s.frames).2
    rw [A.palloc_used s.frames hne]
    rcases hcases q j g hg with hold | ⟨rfl, -, -⟩
    · exact Set.mem_insert_of_mem _ (hs.used q j g hold)
    · exact Set.mem_insert _ _
  · intro q j g i hg
    rcases hcases q j g hg with hold | ⟨rfl, -, -⟩
    · by_cases hi : g = t ∧ i = p k
      · obtain ⟨rfl, rfl⟩ := hi
        rw [linked, setPte_self]
        exact .inr ⟨rfl, fun _ h => absurd h Bool.false_ne_true⟩
      · rw [linked_mem_old hs hne hold (not_and_or.mp hi)]
        exact hs.entries q j g i hold
    · exact .inl (link_mem_fresh (r := s.radix root) ht (newTable_fresh hs hne) i)

theorem FullBut.linked (hk : k < 3) (hfull : FullBut root t s) :
    FullBut root (pageAllocTable s).1 (linked s t (p k)) := by
  intro q j g hg hgf
  rcases tableAt_of_linked hs ht hne hk hg with hold | ⟨rfl, -, -⟩
  · by_cases hgt : g = t
    · refine ⟨p k, ?_⟩
      rw [hgt, PageTable.linked, setPte_self]
      exact ne_zero_of_present rfl
    · obtain ⟨i, hi⟩ := hfull q j g hold hgt
      exact ⟨i, by rwa [linked_mem_old hs hne hold (.inl hgt)]⟩
  · exact absurd rfl hgf

theorem leaf_linked (hk : k < 3) (hp : (s.mem t (p k)).present = false) :
    Leaf (linked s t (p k)) root q j e ↔ Leaf s root q j e := by
  have hno : ¬ ValidLeaf k (s.mem t (p k)) := fun h => by
    rw [ValidLeaf, hp] at h
    exact absurd h.1 Bool.false_ne_true
  exact hasLeaf_link nextTable_leaf hs.separate ht (newTable_fresh hs hne) (nextTable_invalid hp)
    hno (nextTable_pageSetPteNextTable hk (A.palloc_lt s.frames)) rfl fun h =>
    absurd h.1 Bool.false_ne_true

end NewTable

theorem FrameAllocator.Supplies.mono {m : ℕ} {a : A.State} (h : A.Supplies n a) (hmn : m ≤ n) :
    A.Supplies m a := by
  induction m generalizing n a with
  | zero => trivial
  | succ m ih =>
    obtain ⟨n, rfl⟩ : ∃ n', n = n' + 1 := ⟨n - 1, by omega⟩
    exact ⟨h.1, ih h.2 (by omega)⟩

/-- The loop of `map_page` has arrived at the table `t'` at depth `depth`. -/
structure Arrived (root v depth : ℕ) (s : PageMem A) (t' : ℕ) (s' : PageMem A) : Prop where
  shape : Shape root s'
  full : FullBut root t' s'
  table : (s'.radix root).tableAt (path v) depth = some t'
  leaves : ∀ q j e, Leaf s' root q j e ↔ Leaf s root q j e

/-- Without a leaf on the way the loop arrives, when there are frames for the tables. -/
theorem mapDown_spec (root v ppfn : ℕ) (a : MapAttri) (k : ℕ) :
    ∀ (depth : ℕ) {table : ℕ} {s : PageMem A},
    depth + k ≤ 3 → Shape root s → FullBut root table s →
    (s.radix root).tableAt (path v) depth = some table →
    (∀ j e, j < depth + k → ¬ Leaf s root (path v) j e) →
    (A.Supplies k s.frames → (mapDown v ppfn a k (depth + 1) table s).isSome) ∧
      ∀ t' s', mapDown v ppfn a k (depth + 1) table s = some (t', s') →
      Arrived root v (depth + k) s t' s' ∧
        ∀ n, A.Supplies (k + n) s.frames → A.Supplies n s'.frames := by
  induction k with
  | zero =>
    intro depth table s _ hs hfull ht _
    refine ⟨fun _ => rfl, fun t' s' h => ?_⟩
    cases h
    exact ⟨⟨hs, hfull, ht, fun _ _ _ => Iff.rfl⟩, fun n hn => by rwa [zero_add] at hn⟩
  | succ k ih =>
    intro depth table s hd hs hfull ht hno
    have hentry : (s.radix root).entryAt (path v) depth = some (s.mem table (pteIndex (depth + 1) v)) :=
      entryAt_of_tableAt ht
    cases hp : (s.mem table (pteIndex (depth + 1) v)).present with
    | false =>
      simp only [mapDown, hp]
      by_cases hne : (pageAllocTable s).1 = 0
      · rw [if_pos hne]
        exact ⟨fun hsup => absurd hne hsup.1, fun _ _ h => by cases h⟩
      rw [if_neg hne]
      have hstep := ih (depth + 1) (by omega)
        (Shape.linked hs ht hne (by omega)) (FullBut.linked hs ht hne (by omega) hfull)
        (tableAt_linked hs ht hne (by omega)) fun j e hj => by
          rw [leaf_linked hs ht hne (by omega) hp]
          exact hno j e (by omega)
      refine ⟨fun hsup => hstep.1 hsup.2, fun t' s' h => ?_⟩
      obtain ⟨harr, hsup⟩ := hstep.2 t' s' h
      refine ⟨⟨harr.shape, harr.full, ?_, fun q j e => ?_⟩, fun n hn => hsup n ?_⟩
      · rw [← harr.table, add_right_comm, add_assoc]
      · rw [harr.leaves, leaf_linked hs ht hne (by omega) hp]
      · rw [add_right_comm] at hn
        exact hn.2
    | true =>
      have hl : pageIsPteLeaf (s.mem table (pteIndex (depth + 1) v)) (depth + 1) = false := by
        rw [← Bool.not_eq_true]
        intro hl
        exact hno depth _ (by omega) ⟨hentry, hp, hl⟩
      simp only [mapDown, hp, hl]
      have hnext : (s.radix root).tableAt (path v) (depth + 1) =
          some (s.mem table (pteIndex (depth + 1) v)).pfn.toNat := by
        rw [tableAt_succ, hentry]
        exact nextTable_link hp hl
      have hfull' := (hfull.full ⟨_, ne_zero_of_present hp⟩).fullBut
        (s.mem table (pteIndex (depth + 1) v)).pfn.toNat
      have hstep := ih (depth + 1) (by omega) hs hfull' hnext fun j e hj => hno j e (by omega)
      refine ⟨fun hsup => hstep.1 (hsup.mono (le_succ k)), fun t' s' h => ?_⟩
      obtain ⟨harr, hsup⟩ := hstep.2 t' s' h
      refine ⟨⟨harr.shape, harr.full, ?_, harr.leaves⟩, fun n hn => hsup n (hn.mono (by omega))⟩
      rw [← harr.table, add_right_comm, add_assoc]

def newEntry (block paddr : ℕ) (a : MapAttri) : PageTableEntry :=
  pageSetPteAttri block (paddr >>> pageBits) { a with cache := a.exec }

theorem newEntry_pfn (block paddr : ℕ) (a : MapAttri) :
    (newEntry block paddr a).pfn.toNat = paddr / pageSize % 2 ^ 51 := by
  change (BitVec.ofNat 51 (paddr >>> 12)).toNat = paddr / 2 ^ 12 % 2 ^ 51
  rw [BitVec.toNat_ofNat, shiftRight_eq_div_pow]

structure LeafBlock (block paddr : ℕ) : Prop where
  level : block = 3 ∨ block = 4
  aligned : block = 3 → 512 * pageSize ∣ paddr

section MapPage

variable {block paddr : ℕ} (hb : LeafBlock block paddr) (a : MapAttri)

include hb

theorem newEntry_leaf : ValidLeaf (block - 1) (newEntry block paddr a) := by
  refine ⟨rfl, ?_⟩
  rcases hb.level with rfl | rfl
  · rfl
  · rfl

theorem newEntry_good : GoodEntry (block - 1) (newEntry block paddr a) := by
  refine .inr ⟨rfl, fun hk _ => ?_⟩
  rw [newEntry_pfn]
  obtain ⟨c, rfl⟩ := hb.aligned (by omega)
  have hdiv : 512 * pageSize * c / pageSize = 512 * c := by
    rw [Nat.mul_right_comm, Nat.mul_div_cancel _ (by decide)]
  rw [hdiv]
  exact (Nat.dvd_mod_iff (by norm_num)).mpr (Nat.dvd_mul_right 512 c)

def LeavesMapped (root v block paddr : ℕ) (a : MapAttri) (s s' : PageMem A) : Prop :=
  ∀ q j e, Leaf s' root q j e ↔ (SamePath block (path v) q ∧ j = block - 1 ∧
    e = newEntry block paddr a) ∨
      (¬ SamePath block (path v) q ∧ Leaf s root q j e)

theorem LeafBlock.depth : block - 1 + 1 = block ∧ block - 1 ≤ 3 := by
  have := hb.level
  omega

variable {s₁ : PageMem A}

theorem Arrived.write (h : Arrived root v (block - 1) s t s₁) :
    Shape root (s₁.setPte t (path v (block - 1)) (newEntry block paddr a)) ∧
      Full root (s₁.setPte t (path v (block - 1)) (newEntry block paddr a)) ∧
      LeavesMapped root v block paddr a s
        (s₁.setPte t (path v (block - 1)) (newEntry block paddr a)) := by
  have hleaf := newEntry_leaf hb a
  have hend := nextTable_leaf hleaf
  refine ⟨Shape.setPte h.shape h.table hend (newEntry_good hb a), ?_, fun q j e => ?_⟩
  · apply (FullBut.setPte h.shape h.table h.full hend).full
    refine ⟨path v (block - 1), ?_⟩
    rw [setPte_self]
    exact ne_zero_of_present rfl
  · have hset := hasLeaf_set (q := q) (j := j) (x := e) nextTable_leaf h.shape.separate
      h.table hend
    rw [hb.depth.1] at hset
    refine hset.trans ?_
    simp only [hleaf, and_true]
    rw [show HasLeaf ValidLeaf (s₁.radix root) q j e ↔ Leaf s root q j e from h.leaves q j e]

/-- In a block without leaves the entry is invalid: a table in its place would have an entry. -/
theorem Arrived.invalid (h : Arrived root v (block - 1) s t s₁)
    (hfree : ∀ q j e, SamePath block (path v) q → ¬ Leaf s root q j e) :
    (s₁.mem t (path v (block - 1))).present = false := by
  rw [← Bool.not_eq_true]
  intro hp
  have hentry := entryAt_of_tableAt h.table
  cases hl : pageIsPteLeaf (s₁.mem t (path v (block - 1))) (block - 1 + 1) with
  | true => exact hfree (path v) _ _ (SamePath.refl _ _) ((h.leaves _ _ _).mp ⟨hentry, hp, hl⟩)
  | false =>
    have hblock : block = 3 := by
      refine hb.level.resolve_right ?_
      rintro rfl
      cases hl
    subst hblock
    have hnext : (s₁.radix root).tableAt (path v) 3 = some (s₁.mem t (path v 2)).pfn.toNat := by
      rw [tableAt_succ, hentry]
      exact nextTable_link hp hl
    have hne : (s₁.mem t (path v 2)).pfn.toNat ≠ t := by
      intro heq
      rw [heq] at hnext
      exact absurd (h.shape.separate _ _ _ _ t h.table hnext).1 (by decide)
    obtain ⟨i, hi⟩ := h.full (path v) 2 _ hnext hne
    have hvalid := (h.shape.entries (path v) 3 _ i hnext).resolve_left hi
    have hsame : SamePath 3 (path v) (update (path v) 3 i) := by
      intro j hj
      rw [update_of_ne (by omega)]
    have hentry' := entryAt_of_tableAt ((tableAt_congr hsame).symm.trans hnext)
    exact hfree _ 3 _ hsame ((h.leaves _ _ _).mp ⟨hentry', hvalid.1, pageIsPteLeaf_last _ le_rfl⟩)

theorem mapPage_eq (hv : ¬ (v = 0 ∧ paddr ≠ 0))
    (hdown : mapDown v (paddr >>> pageBits) a (block - 1) 1 root s = some (t, s₁)) :
    mapPage root v paddr block a s = if (s₁.mem t (path v (block - 1))).present then
        if pageComparePteAttri (s₁.mem t (path v (block - 1))) (paddr >>> pageBits) a then some s₁
          else none
      else some (s₁.setPte t (path v (block - 1)) (newEntry block paddr a)) := by
  simp only [mapPage, if_neg hv]
  rw [hdown, path, hb.depth.1]
  rfl

/-- `map_page` leaves a full tree. It changes nothing that a walk can see, or maps the block. -/
theorem mapPage_keeps (hs : Shape root s) (hfull : Full root s)
    (hno : ∀ j e, j < block - 1 → ¬ Leaf s root (path v) j e)
    (h : mapPage root v paddr block a s = some s') : Shape root s' ∧ Full root s' ∧
      ((∀ q j e, Leaf s' root q j e ↔ Leaf s root q j e) ∨ LeavesMapped root v block paddr a s s') := by
  have hspec := mapDown_spec root v (paddr >>> pageBits) a (block - 1) 0
    (by rw [zero_add]; exact hb.depth.2) hs (hfull.fullBut root) rfl fun j e hj =>
    hno j e (by omega)
  simp only [zero_add] at hspec
  by_cases hv : v = 0 ∧ paddr ≠ 0
  · rw [mapPage, if_pos hv] at h
    cases h
  cases hdown : mapDown v (paddr >>> pageBits) a (block - 1) 1 root s with
  | none =>
    simp only [mapPage, if_neg hv] at h
    rw [hdown] at h
    cases h
  | some r =>
    obtain ⟨t, s₁⟩ := r
    have harr := (hspec.2 t s₁ hdown).1
    rw [mapPage_eq hb a hv hdown] at h
    cases hp : (s₁.mem t (path v (block - 1))).present with
    | true =>
      split_ifs at h
      cases h
      exact ⟨harr.shape, harr.full.full ⟨_, ne_zero_of_present hp⟩, .inl harr.leaves⟩
    | false =>
      rw [hp] at h
      cases h
      obtain ⟨hshape, hfull', hleaves⟩ := harr.write hb a
      exact ⟨hshape, hfull', .inr hleaves⟩

theorem mapPage_maps (hs : Shape root s) (hfull : Full root s) (hv : v ≠ 0)
    (hsup : A.Supplies (3 + n) s.frames)
    (hfree : ∀ q j e, SamePath block (path v) q → ¬ Leaf s root q j e) :
    ∃ s', mapPage root v paddr block a s = some s' ∧ Shape root s' ∧ Full root s' ∧
      LeavesMapped root v block paddr a s s' ∧ A.Supplies n s'.frames := by
  have hspec := mapDown_spec root v (paddr >>> pageBits) a (block - 1) 0
    (by rw [zero_add]; exact hb.depth.2) hs (hfull.fullBut root) rfl
    fun j e _ => hfree (path v) j e (SamePath.refl _ _)
  simp only [zero_add] at hspec
  have hdepth := hb.depth.2
  obtain ⟨⟨t, s₁⟩, hdown⟩ := isSome_iff_exists.mp (hspec.1 (hsup.mono (by omega)))
  obtain ⟨harr, hrest⟩ := hspec.2 t s₁ hdown
  have hp := harr.invalid hb hfree
  obtain ⟨hshape, hfull', hleaves⟩ := harr.write hb a
  refine ⟨_, ?_, hshape, hfull', hleaves, hrest n (hsup.mono (by omega))⟩
  rw [mapPage_eq hb a (fun h => hv h.1) hdown, hp, if_neg Bool.false_ne_true]

end MapPage

/-- The tables above a table on the path `p`, the nearest first. -/
def Uppers (r : Radix (Fin pageTableEntryCount) PageTableEntry) (p : ℕ → Fin pageTableEntryCount) :
    List ℕ → Prop
  | [] => True
  | prev :: upper => r.tableAt p upper.length = some prev ∧ Uppers r p upper

theorem unmapDown_spec {upper' : List ℕ} (k : ℕ) : ∀ {depth table : ℕ} {upper : List ℕ},
    (s.radix root).tableAt (path v) depth = some table → Uppers (s.radix root)
    (path v) upper → upper.length = depth →
    unmapDown s v k (depth + 1) table upper = some (t, upper') →
    (s.radix root).tableAt (path v) (depth + k) = some t ∧ Uppers (s.radix root) (path v) upper' ∧
      upper'.length = depth + k := by
  induction k with
  | zero =>
    intro depth table upper ht hup hlen h
    cases h
    exact ⟨ht, hup, hlen⟩
  | succ k ih =>
    intro depth table upper ht hup hlen h
    rw [unmapDown] at h
    split_ifs at h with hbad
    rw [Bool.or_eq_true, not_or, Bool.not_eq_true', Bool.not_eq_false, Bool.not_eq_true] at hbad
    have hnext : (s.radix root).tableAt (path v) (depth + 1) =
        some (s.mem table (pteIndex (depth + 1) v)).pfn.toNat := by
      rw [tableAt_succ, entryAt_of_tableAt ht]
      exact nextTable_link hbad.1 hbad.2
    have hup' : Uppers (s.radix root) (path v) (table :: upper) := ⟨by rw [hlen, ht], hup⟩
    have hstep := ih hnext hup' (by rw [List.length_cons, hlen]) h
    rwa [add_right_comm] at hstep

theorem Uppers.set {r : Radix (Fin pageTableEntryCount) PageTableEntry} {upper : List ℕ}
    (hs : r.Separate) (ht : r.tableAt p k = some t) (hlen : upper.length ≤
    k) (h : Uppers r p upper) :
    Uppers (r.set t (p k) e) p upper := by
  induction upper with
  | nil => trivial
  | cons prev upper ih =>
    rw [List.length_cons] at hlen
    refine ⟨?_, ih (by omega) h.2⟩
    rw [tableAt_set hs ht (.inl (by omega)), h.1]

/-- Freeing the empty table `t` behind the entry of `prev`. -/
theorem Shape.cut {prev : ℕ} (hs : Shape root s) (hprev : (s.radix root).tableAt p k = some prev)
    (ht : (s.radix root).tableAt p (k + 1) = some t) (hfull : FullBut root t s) {frames : A.State}
    (hused : A.used frames = A.used s.frames \ {t}) :
    Shape root ({ s with frames := frames }.setPte prev (p k) .zero) ∧
      FullBut root prev ({ s with frames := frames }.setPte prev (p k) .zero) := by
  have hgone : ∀ q j, ((s.setPte prev (p k) .zero).radix root).tableAt q j ≠ some t := by
    intro q j h
    have hold := tableAt_set_subset hs.separate hprev rfl h
    obtain ⟨rfl, hsame⟩ := hs.separate _ _ _ _ t ht hold
    have hnone := tableAt_set_end (e := PageTableEntry.zero) hs.separate hprev hsame rfl (lt_succ_self k)
    rw [show (s.setPte prev (p k) .zero).radix root = (s.radix root).set prev (p k) .zero from rfl,
      hnone] at h
    cases h
  obtain ⟨hsep, hmem, hent⟩ := Shape.setPte hs hprev rfl (.inl rfl)
  refine ⟨⟨hsep, fun q j f h => ?_, hent⟩, fun q j f h hne => ?_⟩
  · change f ∈ A.used frames
    rw [hused]
    exact ⟨hmem q j f h, fun heq => hgone q j (heq ▸ h)⟩
  · have hold := tableAt_set_subset hs.separate hprev rfl h
    obtain ⟨i, hi⟩ := hfull q j f hold fun heq => hgone q (j + 1) (heq ▸ h)
    refine ⟨i, ?_⟩
    rwa [show (({ s with frames := frames } : PageMem A).setPte prev (p k) .zero).mem f i =
      s.mem f i from set_mem_of_ne (s.radix root) (.inl hne) _]

theorem freeTables_keeps (upper : List ℕ) :
    ∀ {t : ℕ} {s : PageMem A}, Shape root s → FullBut root t s →
    (s.radix root).tableAt (path v) upper.length = some t → Uppers (s.radix root) (path v) upper →
    freeTables v upper t s = some s' → Shape root s' ∧ Full root s' := by
  induction upper with
  | nil =>
    intro t s hs hfull ht _ h
    cases h
    cases ht
    exact ⟨hs, hfull.full_of_root hs⟩
  | cons prev upper ih =>
    intro t s hs hfull ht hup h
    rw [freeTables] at h
    by_cases hempty : pageIsEmptyTable s t
    · rw [if_pos hempty] at h
      simp only at h
      split_ifs at h with hppfn hcount
      rw [not_not] at hppfn
      rw [hppfn] at h
      obtain ⟨hs', hfull'⟩ := Shape.cut hs hup.1 ht hfull (A.pfree_used s.frames t)
      refine ih hs' hfull' ?_ ?_ h
      · exact (tableAt_set hs.separate hup.1 (.inl le_rfl)).trans hup.1
      · exact Uppers.set hs.separate hup.1 le_rfl hup.2
    · rw [if_neg hempty] at h
      cases h
      exact ⟨hs, hfull.full (not_forall.mp hempty)⟩

theorem unmapPage_keeps {block paddr : ℕ} (hblock : 0 < block) (hs : Shape root s)
    (hfull : Full root s) (h : unmapPage root v paddr block s = some s') : Shape root s' ∧
    Full root s' := by
  obtain ⟨⟨t, upper⟩, hdown, h⟩ := bind_eq_some_iff.mp h
  obtain ⟨ht, hup, hlen⟩ := unmapDown_spec (block - 1) (show (s.radix root).tableAt (path v) 0 =
    some root from rfl) (show Uppers (s.radix root) (path v) [] from trivial) rfl hdown
  rw [Nat.zero_add] at ht hlen
  simp only [show pteIndex block v = path v (block - 1) by
    rw [path, Nat.sub_add_cancel hblock]] at h
  split_ifs at h with hbad
  obtain ⟨old, -, h⟩ := bind_eq_some_iff.mp h
  split_ifs at h
  have hfull' : FullBut root t (s.setPte t (path v (block - 1)) .zero) :=
    FullBut.setPte hs ht (hfull.fullBut t) rfl
  refine freeTables_keeps upper (Shape.setPte hs ht rfl (.inl rfl)) hfull' ?_ ?_ h
  · rw [hlen]
    exact (tableAt_set hs.separate ht (.inl le_rfl)).trans ht
  · exact Uppers.set hs.separate ht hlen.le hup

end Toddler.PageTable
