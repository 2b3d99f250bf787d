import Toddler.Proofs.MapRange
import Toddler.Spec.UserAccess

/-! The kernel reads through a user pointer what the process has there exactly if the pages are
there: mapped for `SYSCALL_PUTS`, and adjacent in physical memory for a futex word or a path that
crosses a page. -/

namespace Toddler.UserAccess

open PageTable Radix List Nat

variable {A : FrameAllocator} {k : Kernel A} {pageTable : ℕ}

theorem or_add_low {n r : ℕ} (a b : ℕ) (hr : r < 2 ^ n) :
    2 ^ n * a ||| (2 ^ n * b + r) = (2 ^ n * a ||| 2 ^ n * b) + r := by
  have hor : 2 ^ n * a ||| 2 ^ n * b = 2 ^ n * (a ||| b) := by
    rw [Nat.mul_comm, Nat.mul_comm _ b, Nat.mul_comm _ (a ||| b), ← Nat.shiftLeft_eq, ← Nat.shiftLeft_eq,
      ← Nat.shiftLeft_eq, Nat.shiftLeft_or_distrib]
  rw [Nat.two_pow_add_eq_or_of_lt hr, ← Nat.or_assoc, hor, Nat.two_pow_add_eq_or_of_lt hr]

variable {v : ℕ}

theorem destPaddr_of_leaf {e : PageTableEntry} {l : ℕ}
    (h : leafEntry k.tables pageTable v = some (l, e)) :
    ∃ n, 12 ≤ n ∧ n ≤ 21 ∧ ∀ x, pageGetPteDestPaddr e l x =
    some (2 ^ 12 * e.pfn.toNat ||| x % 2 ^ n) := by
  obtain ⟨j, rfl, hleaf⟩ := leafEntry_iff.mp h
  have htop : 2 ≤ j := not_lt.mp fun hlt => not_validLeaf_top hlt hleaf.2
  have hlast := leaf_depth hleaf
  have hdest (n x : ℕ) (hmask : pageGetBlockVmask (j + 1) = some (2 ^ n - 1)) :
      pageGetPteDestPaddr e (j + 1) x = some (2 ^ 12 * e.pfn.toNat ||| x % 2 ^ n) := by
    rw [pageGetPteDestPaddr, hmask]
    change some (_ ||| x &&& (2 ^ n - 1)) = _
    rw [and_two_pow_sub_one_eq_mod, shiftLeft_eq, mul_comm]
    rfl
  obtain rfl | rfl : j = 2 ∨ j = 3 := by omega
  · exact ⟨21, by norm_num, le_rfl, fun x => hdest 21 x rfl⟩
  · exact ⟨12, le_rfl, by norm_num, fun x => hdest 12 x rfl⟩

theorem mapped_uniform (k : Kernel A) (pageTable : ℕ) :
    PageUniform pageSize (k.mapped pageTable) := by
  intro v
  have hpage : leafEntry k.tables pageTable (v / pageSize * pageSize) = leafEntry k.tables pageTable v :=
    leafEntry_page (Nat.mul_div_cancel _ (by decide))
  unfold Kernel.mapped
  rw [hpage]
  cases h : leafEntry k.tables pageTable v with
  | none => rfl
  | some leaf =>
    obtain ⟨n, hlo, hhi, hdest⟩ := destPaddr_of_leaf h
    have hpow : 2 ^ n = 2 ^ 12 * 2 ^ (n - 12) := by rw [← pow_add, Nat.add_sub_cancel' hlo]
    have hoff : v % 2 ^ n = 2 ^ 12 * (v / 2 ^ 12 % 2 ^ (n - 12)) + v % 2 ^ 12 := by
      rw [hpow, Nat.mod_mul, Nat.add_comm]
    have hstart : v / pageSize * pageSize % 2 ^ n = 2 ^ 12 * (v / 2 ^ 12 % 2 ^ (n - 12)) := by
      rw [hpow, Nat.mul_comm, show pageSize = 2 ^ 12 from rfl, Nat.mul_mod_mul_left]
    simp only [Option.bind_some, hdest, Option.map_some, Option.some.injEq]
    rw [hoff, hstart, or_add_low _ _ (Nat.mod_lt _ (Nat.two_pow_pos 12))]
    rfl

/-- The tables do not see the address bits from 48 on. -/
theorem mapped_mod (k : Kernel A) (pageTable v : ℕ) :
    k.mapped pageTable (v % word) = k.mapped pageTable v := by
  have hsame : SamePath 4 (path (v % word)) (path v) := by
    rw [samePath_iff le_rfl]
    simp only [word, pageSize]
    omega
  unfold Kernel.mapped
  rw [leafEntry_of_samePath hsame]
  cases h : leafEntry k.tables pageTable v with
  | none => rfl
  | some leaf =>
    obtain ⟨n, -, hhi, hdest⟩ := destPaddr_of_leaf h
    have hdvd : 2 ^ n ∣ word := pow_dvd_pow 2 (by omega)
    simp only [Option.bind_some, hdest]
    rw [mod_mod_of_dvd _ hdvd]

theorem mapped_add64 (v i : ℕ) : k.mapped pageTable (add64 v i) = k.mapped pageTable (v + i) :=
  mapped_mod k pageTable (v + i)

/-- The translation of an unmapped address is 0. -/
theorem genericTranslate_mapped (v : ℕ) :
    genericTranslate k.tables pageTable v = some ((k.mapped pageTable v).getD 0) := by
  rw [genericTranslate_eq, Kernel.mapped]
  cases h : leafEntry k.tables pageTable v with
  | none => rfl
  | some leaf =>
    obtain ⟨n, -, -, hdest⟩ := destPaddr_of_leaf h
    simp only [Option.bind_some, hdest, Option.getD_some]

theorem mapped_of_pointer {base : ℕ} (h : k.pointer pageTable v = some base) :
    k.mapped pageTable v = some base := by
  obtain ⟨htr, hne⟩ := Option.filter_eq_some_iff.mp h
  rw [genericTranslate_mapped, Option.some.injEq] at htr
  cases hm : k.mapped pageTable v with
  | none =>
    rw [hm, Option.getD_none] at htr
    simp [← htr] at hne
  | some p =>
    rw [hm, Option.getD_some] at htr
    rw [htr]

/-- A window is confined as soon as it is at the page starts in it. -/
theorem window_confined_iff {base : ℕ} (hv : k.mapped pageTable v = some base) {R : ℕ → Prop}
    (hR : ∀ i j, i ≤ j → R j → R i) :
    (∀ i, R i → k.mapped pageTable (add64 v i) = some (base + i)) ↔
      ∀ i, R i → pageSize ∣ v + i → k.mapped pageTable (add64 v i) = some (base + i) := by
  simp only [mapped_add64]
  exact (mapped_uniform k pageTable).window_iff (by decide) hv hR

theorem futex_confined_iff {waitType waitObj : ℕ} :
    (∀ v p, k.ReadsFutex pageTable waitType waitObj v p → k.mapped pageTable v = some p) ↔
      (isWaitOnFutex waitType → ∀ base ∈ k.pointer pageTable waitObj, ∀ i < 8, pageSize ∣ waitObj + i →
        k.mapped pageTable (add64 waitObj i) = some (base + i)) := by
  constructor
  · intro h hfutex base hbase i hi _
    exact h _ _ ⟨hfutex, base, hbase, i, hi, rfl, rfl⟩
  · rintro h v p ⟨hfutex, base, hbase, i, hi, rfl, rfl⟩
    exact (window_confined_iff (mapped_of_pointer hbase) fun i j hij hj =>
      hij.trans_lt hj).mpr (h hfutex base hbase) i hi

/-- A found character is among the bytes, and the string ends among them if there is none. -/
theorem strpbrk_done {path : List UInt8} {r : Option ℕ} (h : strpbrk path = .done r) :
    (∀ len ∈ r, len < path.length) ∧ (r = none → 0 ∈ path) := by
  induction path generalizing r with
  | nil => cases h
  | cons b bs ih =>
    simp only [strpbrk] at h
    split_ifs at h with hnul hfound
    · cases h
      exact ⟨by simp, fun _ => by simp [hnul]⟩
    · cases h
      exact ⟨by simp, by simp⟩
    · cases hrest : strpbrk bs with
      | more =>
        rw [hrest] at h
        cases h
      | done q =>
        rw [hrest] at h
        cases h
        obtain ⟨hlen, hmem⟩ := ih hrest
        refine ⟨fun len hr => ?_, fun hnone => ?_⟩
        · obtain ⟨m, hm, rfl⟩ := Option.map_eq_some_iff.mp hr
          have := hlen m hm
          rw [length_cons]
          omega
        · exact mem_cons_of_mem _ (hmem (Option.map_eq_none_iff.mp hnone))

theorem strpbrk_stable : Scan.Stable strpbrk := by
  intro l
  induction l with
  | nil => intro r h; cases h
  | cons b bs ih =>
    intro r h l'
    rw [cons_append]
    simp only [strpbrk] at h ⊢
    split_ifs at h ⊢ with hnul hfound
    · exact h
    · exact h
    · cases hrest : strpbrk bs with
      | more =>
        rw [hrest] at h
        cases h
      | done q =>
        rw [hrest] at h
        rw [ih q hrest l']
        exact h

theorem takeWhile_append_of_mem {l l' : List UInt8} (h : 0 ∈ l) :
    (l ++ l').takeWhile (· ≠ 0) = l.takeWhile (· ≠ 0) := by
  induction l with
  | nil => cases h
  | cons b bs ih =>
    by_cases hb : b = 0
    · simp [hb]
    · have hmem : 0 ∈ bs := (mem_cons.mp h).resolve_left (Ne.symm hb)
      have htest : decide (b ≠ 0) = true := decide_eq_true hb
      rw [cons_append, takeWhile_cons, takeWhile_cons, htest, if_pos rfl, if_pos rfl, ih hmem]

theorem devtreeWalkLoop_append {root : DevtreeNode} {path : List UInt8}
    {cur : Option DevtreeNode} {name : List UInt8} {r : Option (Option DevtreeNode)}
    (h : devtreeWalkLoop root path cur name = .done r) (l : List UInt8) :
    devtreeWalkLoop root (path ++ l) cur name = .done r := by
  -- a component that ends among the bytes is the same one with more bytes behind it
  have hcomp {b : UInt8} {bs : List UInt8} {r : Option ℕ} (hstr : strpbrk (b :: bs) = .done r) :
      strpbrk (b :: (bs ++ l)) = .done r := strpbrk_stable _ _ hstr l
  fun_induction devtreeWalkLoop root path cur name with
  | case1 => cases h
  | case2 cur name b bs hend =>
    rw [cons_append, devtreeWalkLoop, if_pos hend, h]
  | case3 => cases h
  | case4 cur name b bs hend hstr =>
    rw [cons_append, devtreeWalkLoop, if_neg hend, hcomp hstr]
    rw [← cons_append, takeWhile_append_of_mem ((strpbrk_done hstr).2 rfl)]
    exact h
  | case5 cur name b bs hend len hstr hroot =>
    rw [cons_append, devtreeWalkLoop, if_neg hend, hcomp hstr]
    simp only [if_pos hroot]
    exact h
  | case6 cur name b bs hend len hstr hroot hbig =>
    rw [cons_append, devtreeWalkLoop, if_neg hend, hcomp hstr]
    simp only [if_neg hroot, if_pos hbig]
    exact h
  | case7 cur name b bs hend len hstr hroot hbig name' hchild =>
    have hlen := (strpbrk_done hstr).1 len rfl
    have hnone : devtreeFindChildNode root cur
        (if len ≠ 0 then (b :: bs).take len else name) = none := hchild
    rw [cons_append, devtreeWalkLoop, if_neg hend, hcomp hstr]
    simp only [if_neg hroot, if_neg hbig]
    rw [← cons_append, take_append_of_le_length hlen.le, hnone]
    exact h
  | case8 cur name b bs hend len hstr hroot hbig name' node hchild ih =>
    have hlen := (strpbrk_done hstr).1 len rfl
    have hsome : devtreeFindChildNode root cur
        (if len ≠ 0 then (b :: bs).take len else name) = some node := hchild
    rw [cons_append, devtreeWalkLoop, if_neg hend, hcomp hstr]
    simp only [if_neg hroot, if_neg hbig]
    rw [← cons_append, take_append_of_le_length hlen.le, hsome, drop_append_of_le_length hlen]
    exact ih h

theorem devtreeWalk_stable (root : DevtreeNode) (name : List UInt8) :
    Scan.Stable (devtreeWalk root name) := by
  intro path r h l
  cases path with
  | nil => cases h
  | cons b bs =>
    rw [cons_append]
    simp only [devtreeWalk] at h ⊢
    split_ifs at h ⊢ with hslash
    · exact h
    · exact devtreeWalkLoop_append h l

theorem path_confined_iff {fwPathVaddr : ℕ} :
    (∀ v p, k.ReadsPath pageTable fwPathVaddr v p → k.mapped pageTable v = some p) ↔
      ∀ base ∈ k.fwPath pageTable fwPathVaddr, ∀ i,
        devtreeWalk k.devtree k.name (k.mem.load base i) = .more → pageSize ∣ fwPathVaddr + i →
        k.mapped pageTable (add64 fwPathVaddr i) = some (base + i) := by
  constructor
  · intro h base hbase i hi _
    exact h _ _ ⟨base, hbase, i, hi, rfl, rfl⟩
  · rintro h v p ⟨base, hbase, i, hi, rfl, rfl⟩
    obtain ⟨_, -, hpointer⟩ := Option.bind_eq_some_iff.mp hbase
    refine (window_confined_iff (mapped_of_pointer hpointer) fun i j hij hj => ?_).mpr (h base hbase) i hi
    obtain ⟨d, rfl⟩ := Nat.exists_eq_add_of_le hij
    rw [ByteMem.load_add] at hj
    exact (devtreeWalk_stable _ _).more_of_append hj

def Window.bytes (w : Window) : List ℕ := (range w.len).map (add64 w.vaddr)

def Window.InPage (w : Window) : Prop := 0 < w.len ∧ w.vaddr % pageSize + w.len ≤ pageSize

theorem add64_add64 (a b c : ℕ) : add64 (add64 a b) c = add64 a (b + c) := by
  unfold add64
  rw [mod_add_mod, add_assoc]

theorem map_add64_range_add (v m n : ℕ) : (range (m + n)).map (add64 v) =
    (range m).map (add64 v) ++ (range n).map (add64 (add64 v m)) := by
  rw [range_add, map_append, map_map]
  congr 1
  exact map_congr_left fun i _ => (add64_add64 v m i).symm

variable {vaddr curLen : ℕ}

/-- The test for one page, and the length of the first part. -/
theorem putsChunk_eq (hv : vaddr < word) (hpos : 0 < curLen) (hlen : curLen ≤ putsBufSize) :
    putsChunk vaddr curLen = if vaddr % pageSize + curLen ≤ pageSize then [⟨vaddr, curLen⟩]
      else [⟨vaddr, pageSize - vaddr % pageSize⟩,
        ⟨add64 vaddr (pageSize - vaddr % pageSize), curLen - (pageSize - vaddr % pageSize)⟩] := by
  have hlast : alignDownPage vaddr = alignDownPage (sub64 (add64 vaddr curLen) 1) ↔
      vaddr % pageSize + curLen ≤ pageSize := by
    simp only [alignDownPage, sub64, add64, word, pageSize, putsBufSize] at *
    omega
  simp only [putsChunk, hlast]
  split_ifs with hpage
  · rfl
  · have hpart : sub64 (alignUpPage vaddr) vaddr = pageSize - vaddr % pageSize := by
      simp only [alignUpPage, sub64, add64, word, pageSize, putsBufSize] at *
      omega
    have hrest : sub64 curLen (pageSize - vaddr % pageSize) = curLen - (pageSize - vaddr % pageSize) := by
      apply sub64_of_le
      · omega
      · simp only [word, putsBufSize] at *
        omega
    rw [hpart, hrest]

/-- A chunk is read in its order, page by page. -/
theorem putsChunk_spec (hv : vaddr < word) (hpos : 0 < curLen) (hlen : curLen ≤ putsBufSize) :
    (putsChunk vaddr curLen).flatMap Window.bytes = (range curLen).map (add64 vaddr) ∧
      ∀ w ∈ putsChunk vaddr curLen, w.InPage := by
  rw [putsChunk_eq hv hpos hlen]
  have hoff := mod_lt vaddr (show 0 < pageSize by decide)
  split_ifs with hpage
  · refine ⟨by simp [Window.bytes], fun w hw => ?_⟩
    rw [mem_singleton.mp hw]
    exact ⟨hpos, hpage⟩
  · generalize hm : pageSize - vaddr % pageSize = m at *
    obtain ⟨n, rfl⟩ : ∃ n, curLen = m + n := ⟨curLen - m, by omega⟩
    refine ⟨?_, fun w hw => ?_⟩
    · rw [map_add64_range_add]
      simp [Window.bytes]
    · rcases mem_pair.mp hw with rfl | rfl
      · exact ⟨by simp only; omega, by simp only; omega⟩
      · have hstart : add64 vaddr m % pageSize = 0 := by
          rw [add64, mod_mod_of_dvd _ (by decide)]
          simp only [pageSize] at *
          omega
        refine ⟨by simp only; omega, ?_⟩
        simp only [hstart, putsBufSize, pageSize] at *
        omega

theorem putsLoop_spec (len vaddr : ℕ) (fuel : ℕ) : ∀ copiedLen, len ≤ copiedLen + fuel →
    (putsLoop len fuel (add64 vaddr copiedLen) copiedLen).flatMap Window.bytes =
        (range (len - copiedLen)).map (add64 (add64 vaddr copiedLen)) ∧
      ∀ w ∈ putsLoop len fuel (add64 vaddr copiedLen) copiedLen, w.InPage := by
  induction fuel with
  | zero =>
    intro c hc
    rw [show len - c = 0 by omega]
    exact ⟨rfl, by simp [putsLoop]⟩
  | succ fuel ih =>
    intro c hc
    have hword : add64 vaddr c < word := mod_lt _ (by decide)
    rw [putsLoop]
    split_ifs with hlt hfull
    · obtain ⟨hbytes, hpages⟩ := putsChunk_spec hword (show 0 < putsBufSize by decide) le_rfl
      obtain ⟨hrest, hpagesRest⟩ := ih (c + putsBufSize) (by simp only [putsBufSize]; omega)
      rw [add64_add64, flatMap_append, hbytes, hrest]
      refine ⟨?_, fun w hw => ?_⟩
      · rw [show len - c = putsBufSize + (len - (c + putsBufSize)) by omega, map_add64_range_add,
          add64_add64]
      · rcases mem_append.mp hw with hw | hw
        · exact hpages w hw
        · exact hpagesRest w hw
    · -- the last chunk
      obtain ⟨hbytes, hpages⟩ := putsChunk_spec hword (show 0 < len - c by omega) (show len - c ≤
        putsBufSize by omega)
      obtain ⟨hrest, hpagesRest⟩ := ih (c + putsBufSize) (by simp only [putsBufSize]; omega)
      rw [add64_add64, flatMap_append, hbytes, hrest, show len - (c + putsBufSize) = 0 by omega]
      refine ⟨by simp, fun w hw => ?_⟩
      rcases mem_append.mp hw with hw | hw
      · exact hpages w hw
      · exact hpagesRest w hw
    · rw [show len - c = 0 by omega]
      exact ⟨rfl, by simp⟩

theorem putsWindows_spec (hv : vaddr < word) (len : ℕ) :
    (putsWindows vaddr len).flatMap Window.bytes = (range (putsLen len)).map (add64 vaddr) ∧
      ∀ w ∈ putsWindows vaddr len, w.InPage := by
  have hzero : add64 vaddr 0 = vaddr := Nat.mod_eq_of_lt hv
  have hspec := putsLoop_spec (putsLen len) vaddr (putsLen len) 0 (by omega)
  rwa [hzero] at hspec

variable {len : ℕ}

theorem mem_range_putsWindows {i : ℕ} (hv : vaddr < word) (hi : i < putsLen len) :
    ∃ w ∈ putsWindows vaddr len, ∃ j < w.len, add64 vaddr i = add64 w.vaddr j := by
  have hmem : add64 vaddr i ∈ (putsWindows vaddr len).flatMap Window.bytes := by
    rw [(putsWindows_spec hv len).1]
    exact mem_map_of_mem (mem_range.mpr hi)
  obtain ⟨w, hw, hbytes⟩ := mem_flatMap.mp hmem
  obtain ⟨j, hj, heq⟩ := mem_map.mp hbytes
  exact ⟨w, hw, j, mem_range.mp hj, heq.symm⟩

variable {w : Window}

theorem mem_bytes_putsWindows {j : ℕ} (hv : vaddr < word) (hw : w ∈ putsWindows vaddr len)
    (hj : j < w.len) : ∃ i < putsLen len, add64 w.vaddr j = add64 vaddr i := by
  have hmem : add64 w.vaddr j ∈ (putsWindows vaddr len).flatMap Window.bytes :=
    mem_flatMap.mpr ⟨w, hw, mem_map_of_mem (mem_range.mpr hj)⟩
  rw [(putsWindows_spec hv len).1] at hmem
  obtain ⟨i, hi, heq⟩ := mem_map.mp hmem
  exact ⟨i, mem_range.mp hi, heq.symm⟩

/-- The bytes of a window in a mapped page. -/
theorem Window.InPage.mapped (h : w.InPage) {j : ℕ} (hj : j < w.len) :
    k.mapped pageTable (add64 w.vaddr j) = (k.mapped pageTable w.vaddr).map (· + j) := by
  rw [mapped_add64]
  apply (mapped_uniform k pageTable).add_eq_map
  have := h.2
  omega

theorem puts_reads_iff (hv : vaddr < word) :
    (∀ v p, k.Reads pageTable (.puts vaddr len) v p → k.mapped pageTable v = some p) ↔
      ∀ i < putsLen len, (k.mapped pageTable (add64 vaddr i)).isSome := by
  constructor
  · intro h i hi
    obtain ⟨w, hw, j, hj, heq⟩ := mem_range_putsWindows hv hi
    rw [heq, h _ _ ⟨w, hw, _, genericTranslate_mapped w.vaddr, j, hj, rfl, rfl⟩]
    rfl
  · rintro h v p ⟨w, hw, base, hbase, j, hj, rfl, rfl⟩
    obtain ⟨i, hi, heq⟩ := mem_bytes_putsWindows hv hw hj
    have hsome := h i hi
    rw [← heq, ((putsWindows_spec hv len).2 w hw).mapped hj] at hsome
    obtain ⟨q, hq⟩ := Option.isSome_iff_exists.mp (Option.isSome_map.symm.trans hsome)
    rw [genericTranslate_mapped, hq, Option.getD_some, Option.some.injEq] at hbase
    rw [((putsWindows_spec hv len).2 w hw).mapped hj, hq, Option.map_some, hbase]

def printed (k : Kernel A) (pageTable : ℕ) (w : Window) : List UInt8 :=
  (k.mem.load ((k.mapped pageTable w.vaddr).getD 0) w.len).takeWhile (· ≠ 0)

theorem syscallHandlerPuts_eq : k.syscallHandlerPuts pageTable vaddr len =
    some ((putsWindows vaddr len).flatMap (printed k pageTable), putsLen len) := by
  have hwindow : k.putsWindow pageTable = fun w => some (printed k pageTable w) := by
    funext w
    rw [Kernel.putsWindow, genericTranslate_mapped]
    rfl
  have hmap : (putsWindows vaddr len).mapM (k.putsWindow pageTable) =
      some ((putsWindows vaddr len).map (printed k pageTable)) := by
    rw [hwindow]
    exact mapM_pure
  rw [Kernel.syscallHandlerPuts, hmap]
  rfl

theorem length_printed_le (w : Window) : (printed k pageTable w).length ≤ w.bytes.length := by
  have :=
    (takeWhile_sublist (· ≠ 0) (l := k.mem.load ((k.mapped pageTable w.vaddr).getD 0) w.len)).length_le
  simpa [printed, Window.bytes] using this

theorem length_flatMap_printed_le (ws : List Window) :
    (ws.flatMap (printed k pageTable)).length ≤ (ws.flatMap Window.bytes).length := by
  induction ws with
  | nil => rfl
  | cons w ws ih =>
    rw [flatMap_cons, flatMap_cons, length_append, length_append]
    exact Nat.add_le_add (length_printed_le w) ih

/-- The window is printed in full if its bytes are there and none is NUL. -/
theorem printed_eq (hw : w.InPage)
    (h : ∀ v ∈ w.bytes, ∃ b, k.userByte pageTable v = some b ∧ b ≠ 0) :
    (printed k pageTable w).map some = w.bytes.map (k.userByte pageTable) := by
  have hmem {j : ℕ} (hj : j < w.len) : add64 w.vaddr j ∈ w.bytes :=
    mem_map_of_mem (mem_range.mpr hj)
  obtain ⟨b, hb, -⟩ := h _ (hmem hw.1)
  obtain ⟨base', hbase', -⟩ := Option.map_eq_some_iff.mp hb
  rw [hw.mapped hw.1] at hbase'
  obtain ⟨base, hbase, -⟩ := Option.map_eq_some_iff.mp hbase'
  have hbyte {j : ℕ} (hj : j < w.len) : k.userByte pageTable (add64 w.vaddr j) =
      some (k.mem (base + j)) := by
    rw [Kernel.userByte, hw.mapped hj, hbase]
    rfl
  have hall : (k.mem.load base w.len).takeWhile (· ≠ 0) = k.mem.load base w.len := by
    rw [takeWhile_eq_self_iff]
    intro c hc
    obtain ⟨j, hj, rfl⟩ := mem_map.mp hc
    obtain ⟨b, hb, hne⟩ := h _ (hmem (mem_range.mp hj))
    rw [hbyte (mem_range.mp hj), Option.some.injEq] at hb
    simpa [hb] using hne
  rw [printed, hbase, Option.getD_some, hall, ByteMem.load, Window.bytes, map_map, map_map]
  exact map_congr_left fun j hj => (hbyte (mem_range.mp hj)).symm

theorem flatMap_printed_eq {ws : List Window} (hws : ∀ w ∈ ws, w.InPage)
    (h : ∀ v ∈ ws.flatMap Window.bytes, ∃ b, k.userByte pageTable v = some b ∧ b ≠ 0) :
    (ws.flatMap (printed k pageTable)).map some =
      (ws.flatMap Window.bytes).map (k.userByte pageTable) := by
  induction ws with
  | nil => rfl
  | cons w ws ih =>
    rw [flatMap_cons, flatMap_cons, map_append, map_append]
    rw [printed_eq (hws w mem_cons_self) fun v hv => h v (mem_append_left _ hv),
      ih (fun w' hw' => hws w' (mem_cons_of_mem _ hw')) fun v hv => h v (mem_append_right _ hv)]

/-- `SYSCALL_PUTS` prints a range that is no longer than the limit, mapped and without NUL. -/
theorem puts_output (hv : vaddr < word) (hlen : len ≤ putsMaxLen) {data : List UInt8}
    (hdata : data.length = len) (huser : ∀ i < len, k.userByte pageTable (add64 vaddr i) = data[i]?)
    (hnul : 0 ∉ data) : (k.syscallHandlerPuts pageTable vaddr len).map Prod.fst = some data := by
  obtain ⟨hbytes, hpages⟩ := putsWindows_spec hv len
  have hputs : putsLen len = len := if_neg (not_lt.mpr hlen)
  rw [hputs] at hbytes
  have hsome : ∀ i < len, ∃ b, data[i]? = some b ∧ b ≠ 0 := by
    intro i hi
    refine ⟨data[i], getElem?_eq_getElem (by omega), fun h0 => hnul ?_⟩
    rw [← h0]
    exact getElem_mem _
  have hprint : ((putsWindows vaddr len).flatMap (printed k pageTable)).map some =
      ((putsWindows vaddr len).flatMap Window.bytes).map (k.userByte pageTable) := by
    refine flatMap_printed_eq hpages fun v hvmem => ?_
    rw [hbytes] at hvmem
    obtain ⟨i, hi, rfl⟩ := mem_map.mp hvmem
    rw [huser i (mem_range.mp hi)]
    exact hsome i (mem_range.mp hi)
  have hdata' : (range len).map (fun i => k.userByte pageTable (add64 vaddr i)) = data.map some := by
    refine ext_getElem (by simp [hdata]) fun i h1 h2 => ?_
    rw [getElem_map, getElem_range, getElem_map, huser i (by simpa using h1)]
    exact getElem?_eq_getElem _
  rw [hbytes, map_map] at hprint
  rw [syscallHandlerPuts_eq, Option.map_some, Option.some.injEq]
  exact map_injective_iff.mpr (Option.some_injective _) (hprint.trans hdata')

/-- A longer range is cut off, unless it has a NUL or a hole. -/
theorem puts_cut (hv : vaddr < word) (hlen : putsMaxLen < len)
    (hout : ∀ data : List UInt8, data.length = len →
      (∀ i < len, k.userByte pageTable (add64 vaddr i) = data[i]?) → 0 ∉ data →
      (k.syscallHandlerPuts pageTable vaddr len).map Prod.fst = some data) :
    ∃ i < len, k.userByte pageTable (add64 vaddr i) = none ∨
      k.userByte pageTable (add64 vaddr i) = some 0 := by
  by_contra hno
  push Not at hno
  have hbyte : ∀ i < len, ∃ b, k.userByte pageTable (add64 vaddr i) = some b ∧ b ≠ 0 := by
    intro i hi
    obtain ⟨hne, h0⟩ := hno i hi
    obtain ⟨b, hb⟩ := Option.ne_none_iff_exists'.mp hne
    exact ⟨b, hb, fun hz => h0 (hz ▸ hb)⟩
  obtain ⟨data, hdata⟩ : ∃ data : List UInt8,
      data = (range len).map fun i => (k.userByte pageTable (add64 vaddr i)).getD 0 := ⟨_, rfl⟩
  have hlength : data.length = len := by simp [hdata]
  have hprinted := hout data hlength (fun i hi => ?_) fun hmem => ?_
  · rw [syscallHandlerPuts_eq, Option.map_some, Option.some.injEq] at hprinted
    change (putsWindows vaddr len).flatMap (printed k pageTable) = data at hprinted
    have hle : ((putsWindows vaddr len).flatMap (printed k pageTable)).length ≤
        ((putsWindows vaddr len).flatMap Window.bytes).length := length_flatMap_printed_le _
    rw [hprinted, (putsWindows_spec hv len).1, length_map, length_range, hlength, putsLen,
      if_pos hlen] at hle
    omega
  · obtain ⟨b, hb, -⟩ := hbyte i hi
    simp [hdata, hi, hb]
  · rw [hdata] at hmem
    obtain ⟨i, hi, heq⟩ := mem_map.mp hmem
    obtain ⟨b, hb, hne⟩ := hbyte i (mem_range.mp hi)
    rw [hb, Option.getD_some] at heq
    exact hne heq

/-- What the kernel reads through the pointer of a call is what the process has there, and
`SYSCALL_PUTS` prints it, exactly if the pages are there. -/
theorem user_access_confined_iff (A : FrameAllocator) (k : Kernel A) (pageTable : ℕ) (c : UserCall)
    (hc : c.Words) : k.Confined pageTable c ↔ k.Backed pageTable c := by
  cases c with
  | puts vaddr len =>
    obtain ⟨hv, -⟩ := hc
    constructor
    · intro h
      refine ⟨(puts_reads_iff hv).mp h.reads, ?_⟩
      rcases lt_or_ge putsMaxLen len with hlt | hle
      · exact Or.inr (puts_cut hv hlt fun data => h.output vaddr len data rfl)
      · exact Or.inl hle
    · rintro ⟨hmapped, hlen⟩
      refine ⟨(puts_reads_iff hv).mpr hmapped, trivial, ?_⟩
      rintro _ _ data ⟨⟩ hdata huser hnul
      rcases hlen with hlen | ⟨i, hi, hbad⟩
      · exact puts_output hv hlen hdata huser hnul
      · have hget : data[i]? = some data[i] := getElem?_eq_getElem (by omega)
        rw [huser i hi, hget] at hbad
        rcases hbad with hbad | hbad
        · cases hbad
        · exact absurd (Option.some.inj hbad ▸ getElem_mem _) hnul
  | intRegister2 fwPathVaddr fwPos entry =>
    exact ⟨fun h => ⟨h.names, path_confined_iff.mp h.reads⟩,
      fun h => ⟨path_confined_iff.mpr h.2, h.1, by simp⟩⟩
  | wait waitType waitObj waitValue =>
    exact ⟨fun h => futex_confined_iff.mp h.reads, fun h => ⟨futex_confined_iff.mpr h, trivial, by simp⟩⟩
  | wake waitType waitObj waitValue =>
    exact ⟨fun h => futex_confined_iff.mp h.reads, fun h => ⟨futex_confined_iff.mpr h, trivial, by simp⟩⟩

def onePage : PageMem framesAbove where
  mem f i :=
    if f = 4 then if i.val = 1 then pageSetPteAttri 4 9 userAttri else .zero
    else if i.val = 0 then pageSetPteNextTable (f + 1) else .zero
  frames := []

def kernelWith (tables : PageMem framesAbove) : Kernel framesAbove :=
  ⟨tables, fun _ => 0x78, fun _ => false, .mk [] [], []⟩

theorem user_access_confined_iff_in_one_page :
    (kernelWith onePage).Confined 1 (.puts 0x1fc0 64) := by
  refine (user_access_confined_iff framesAbove (kernelWith onePage) 1 (.puts 0x1fc0 64)
    ⟨by decide, by decide⟩).mpr ⟨?_, ?_⟩
  · decide +kernel
  · exact Or.inl (by decide)

/-- For an unmapped address, the byte at the physical address 0 is read. -/
theorem puts_reads_unmapped :
    ¬ ∀ (A : FrameAllocator) (k : Kernel A) (pageTable : ℕ) (c : UserCall),
    c.Words → k.Confined pageTable c := by
  intro h
  have hconf := h framesAbove (kernelWith zeroFrames) 1022 (.puts 0x1000 1) ⟨by decide, by decide⟩
  have hsome := (puts_reads_iff (by decide)).mp hconf.reads 0 (by decide)
  have hnone : (kernelWith zeroFrames).mapped 1022 (add64 0x1000 0) = none := by decide +kernel
  rw [hnone] at hsome
  cases hsome

end Toddler.UserAccess
