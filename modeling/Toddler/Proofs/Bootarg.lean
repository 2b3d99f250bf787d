import Toddler.Spec.Bootarg

/-! Boot argument lookup against the documented format. The code looks for the first text that reads
like the key, and after it for the first text that reads like the subkey, wherever these stand. -/

namespace Toddler

open List

namespace Bootarg

variable {s needle rest : List Char} {str i j : ℕ}

theorem strstrLoop_match_iff {ch : Char} (hne : needle ≠ []) (hs : s.drop str = ch :: rest) :
    (needle.head? = some ch ∧ (ch :: rest).take needle.length = needle) ↔
    OccursAt needle s str := by
  rw [OccursAt, hs, prefix_iff_eq_take]
  constructor
  · rintro ⟨_, htake⟩
    exact ⟨hne, htake.symm⟩
  · rintro ⟨_, htake⟩
    refine ⟨?_, htake.symm⟩
    obtain ⟨c, t, rfl⟩ := exists_cons_of_ne_nil hne
    rw [length_cons, take_succ_cons, List.cons.injEq] at htake
    rw [head?_cons, htake.1]

theorem not_firstAt_of_short (h : s.length < str + needle.length) : ¬FirstAt needle s str i := by
  rintro ⟨hle, hocc, _⟩
  have hlen := hocc.add_length_le
  omega

theorem strstrLoop_eq_some_iff (hne : needle ≠ []) : ∀ {str : ℕ}, s.drop str = rest →
    (strstrLoop needle rest str = some i ↔ FirstAt needle s str i) := by
  have hpos := length_pos_iff.mpr hne
  induction rest with
  | nil =>
    intro str hs
    have hlen := drop_eq_nil_iff.mp hs
    have hno : ¬FirstAt needle s str i := not_firstAt_of_short (by omega)
    simp [strstrLoop, hno]
  | cons ch rest ih =>
    intro str hs
    have hrest : s.drop (str + 1) = rest := by rw [← tail_drop, hs, tail_cons]
    have hlen : s.length - str = (ch :: rest).length := by rw [← hs, length_drop]
    rw [strstrLoop]
    split_ifs with hshort hmatch
    · have hno : ¬FirstAt needle s str i := not_firstAt_of_short (by omega)
      simp [hno]
    · have hfirst := ((strstrLoop_match_iff hne hs).mp hmatch).firstAt
      rw [Option.some.injEq]
      exact ⟨fun he => he ▸ hfirst, fun hi => hfirst.unique hi⟩
    · rw [ih hrest]
      exact (firstAt_succ_iff fun hocc => hmatch ((strstrLoop_match_iff hne hs).mpr hocc)).symm

theorem strstr_of_firstAt (h : FirstAt needle s str i) : strstr s str needle = .arg i := by
  have hloop := (strstrLoop_eq_some_iff h.2.1.1 rfl).mpr h
  rw [strstr, if_neg h.2.1.1, hloop]

theorem strstr_of_not_firstAt (h : ∀ i, ¬FirstAt needle s str i) : strstr s str needle = .null := by
  rw [strstr]
  split_ifs with hne
  · rfl
  · cases hloop : strstrLoop needle (s.drop str) str with
    | none => rfl
    | some i => exact absurd ((strstrLoop_eq_some_iff hne rfl).mp hloop) (h i)

def BlankIn (s : List Char) (a j : ℕ) : Prop := ∃ k, a ≤ k ∧ k ≤ j ∧ ∃ c, s[k]? = some c ∧ isBlank c

theorem isBlank_iff {ch : Char} : isBlank ch ↔ ch ∈ [' ', '\t'] := by simp [isBlank]

theorem strpbrkLoop_le_iff : ∀ {a : ℕ}, s.drop a = rest →
    ((∃ v, strpbrkLoop [' ', '\t'] rest a = some v ∧ v ≤ j) ↔ BlankIn s a j) := by
  induction rest with
  | nil =>
    intro a hs
    have hlen := drop_eq_nil_iff.mp hs
    constructor
    · rintro ⟨v, hv, _⟩
      cases hv
    · rintro ⟨k, hk, _, c, hc, _⟩
      rw [getElem?_eq_none (by omega)] at hc
      cases hc
  | cons ch rest ih =>
    intro a hs
    have hrest : s.drop (a + 1) = rest := by rw [← tail_drop, hs, tail_cons]
    have hch : s[a]? = some ch := by rw [← Nat.add_zero a, ← getElem?_drop, hs, getElem?_cons_zero]
    rw [strpbrkLoop]
    split_ifs with hblank
    · constructor
      · rintro ⟨v, hv, hle⟩
        cases hv
        exact ⟨a, le_rfl, hle, ch, hch, isBlank_iff.mpr hblank⟩
      · rintro ⟨k, hk, hle, _⟩
        exact ⟨a, rfl, hk.trans hle⟩
    · rw [ih hrest]
      constructor
      · rintro ⟨k, hk, hle, hc⟩
        exact ⟨k, by omega, hle, hc⟩
      · rintro ⟨k, hk, hle, c, hc, hcb⟩
        have hne : k ≠ a := by
          rintro rfl
          rw [hch] at hc
          cases hc
          exact hblank (isBlank_iff.mp hcb)
        exact ⟨k, by omega, hle, c, hc, hcb⟩

variable {a : ℕ}

theorem strpbrk_le_iff :
    (strpbrk s a [' ', '\t'] ≠ .null ∧ (Ptr.arg j).ge (strpbrk s a [' ', '\t'])) ↔
    BlankIn s a j := by
  rw [← strpbrkLoop_le_iff rfl, strpbrk]
  cases strpbrkLoop [' ', '\t'] (s.drop a) a with
  | none => simp
  | some v => simp [Ptr.null, Ptr.ge]

theorem null_not_ge_strpbrk : ¬(strpbrk s a [' ', '\t'] ≠ .null ∧
    Ptr.null.ge (strpbrk s a [' ', '\t'])) := by
  rw [strpbrk]
  cases strpbrkLoop [' ', '\t'] (s.drop a) a with
  | none => simp
  | some v => simp [Ptr.null, Ptr.ge]

variable {bootargs key : CString} {subkey : Option CString}

theorem hasSubkey_eq_true_iff : hasSubkey subkey = true ↔ subText subkey ≠ [] := by
  cases subkey <;> simp [hasSubkey, subText]

/-- The first text that reads like the key ends at `e`; with a subkey, the first text after it that
reads like the subkey ends there, in the same item. -/
def FoundAt (bootargs key : CString) (subkey : Option CString) (e : ℕ) : Prop :=
  ∃ i, FirstAt key.chars bootargs.chars 0 i ∧
    (hasSubkey subkey = false → e = i + key.chars.length) ∧
    (hasSubkey subkey = true → ∃ j, FirstAt (subText subkey) bootargs.chars (i +
    key.chars.length) j ∧
      ¬BlankIn bootargs.chars (i + key.chars.length) j ∧ e = j + (subText subkey).length)

/-- No text reads like the key, or the first text after it that reads like the subkey is in a later
item. -/
def NotFound (bootargs key : CString) (subkey : Option CString) : Prop :=
  (∀ i, ¬FirstAt key.chars bootargs.chars 0 i) ∨ hasSubkey subkey = true ∧
    ∃ i j, FirstAt key.chars bootargs.chars 0 i ∧
      FirstAt (subText subkey) bootargs.chars (i + key.chars.length) j ∧
      BlankIn bootargs.chars (i + key.chars.length) j

/-- A text reads like the key, and none after it reads like the subkey. -/
def SubkeyNowhere (bootargs key : CString) (subkey : Option CString) : Prop :=
  hasSubkey subkey = true ∧ ∃ i, FirstAt key.chars bootargs.chars 0 i ∧
    ∀ j, ¬FirstAt (subText subkey) bootargs.chars (i + key.chars.length) j

variable {e : ℕ}

theorem findKeyEnd_of_foundAt (h : FoundAt bootargs key subkey e) :
    findKeyEnd bootargs key subkey = .arg e := by
  obtain ⟨i, hi, hno, hsub⟩ := h
  rw [findKeyEnd, strstr_of_firstAt hi]
  cases hs : hasSubkey subkey with
  | false => simp [hno hs]
  | true =>
    obtain ⟨j, hj, hblank, rfl⟩ := hsub hs
    simp only [if_true]
    rw [strstr_of_firstAt hj, if_neg (fun h => hblank (strpbrk_le_iff.mp h))]
    rfl

theorem findKeyEnd_of_notFound (h : NotFound bootargs key subkey) :
    findKeyEnd bootargs key subkey = .null := by
  rcases h with hno | ⟨hs, i, j, hi, hj, hblank⟩
  · rw [findKeyEnd, strstr_of_not_firstAt hno]
    rfl
  · rw [findKeyEnd, strstr_of_firstAt hi]
    simp only [hs, if_true]
    rw [strstr_of_firstAt hj, if_pos (strpbrk_le_iff.mpr hblank)]

theorem findKeyEnd_of_subkeyNowhere (h : SubkeyNowhere bootargs key subkey) :
    findKeyEnd bootargs key subkey = .low (subText subkey).length := by
  obtain ⟨hs, i, hi, hno⟩ := h
  rw [findKeyEnd, strstr_of_firstAt hi]
  simp only [hs, if_true]
  rw [strstr_of_not_firstAt hno, if_neg null_not_ge_strpbrk, Ptr.null, Ptr.add, Nat.zero_add]

theorem search_cases (bootargs key : CString) (subkey : Option CString) :
    (∃ e, FoundAt bootargs key subkey e) ∨ NotFound bootargs key subkey ∨
    SubkeyNowhere bootargs key subkey := by
  by_cases hkey : ∃ i, FirstAt key.chars bootargs.chars 0 i
  · obtain ⟨i, hi⟩ := hkey
    cases hs : hasSubkey subkey with
    | false => exact .inl ⟨_, i, hi, fun _ => rfl, fun h => absurd (hs.symm.trans h) (by simp)⟩
    | true =>
      by_cases hsub : ∃ j, FirstAt (subText subkey) bootargs.chars (i + key.chars.length) j
      · obtain ⟨j, hj⟩ := hsub
        by_cases hblank : BlankIn bootargs.chars (i + key.chars.length) j
        · exact .inr (.inl (.inr ⟨hs, i, j, hi, hj, hblank⟩))
        · refine .inl ⟨_, i, hi, fun h => absurd (hs.symm.trans h) (by simp),
            fun _ => ⟨j, hj, hblank, rfl⟩⟩
      · exact .inr (.inr ⟨hs, i, hi, fun j hj => hsub ⟨j, hj⟩⟩)
  · exact .inr (.inl (.inl fun i hi => hkey ⟨i, hi⟩))

theorem findKeyEnd_eq_arg_iff : findKeyEnd bootargs key subkey = .arg e ↔
    FoundAt bootargs key subkey e := by
  refine ⟨fun h => ?_, findKeyEnd_of_foundAt⟩
  rcases search_cases bootargs key subkey with ⟨e', he'⟩ | hno | hwild
  · have heq := (findKeyEnd_of_foundAt he').symm.trans h
    cases heq
    exact he'
  · cases (findKeyEnd_of_notFound hno).symm.trans h
  · cases (findKeyEnd_of_subkeyNowhere hwild).symm.trans h

theorem findKeyEnd_eq_null_iff : findKeyEnd bootargs key subkey = .null ↔
    NotFound bootargs key subkey := by
  refine ⟨fun h => ?_, findKeyEnd_of_notFound⟩
  rcases search_cases bootargs key subkey with ⟨e, he⟩ | hno | hwild
  · cases (findKeyEnd_of_foundAt he).symm.trans h
  · exact hno
  · have hlow := (findKeyEnd_of_subkeyNowhere hwild).symm.trans h
    have hlen : (subText subkey).length = 0 := Ptr.low.inj hlow
    exact absurd (length_eq_zero_iff.mp hlen) (hasSubkey_eq_true_iff.mp hwild.1)

variable {item : ℕ}

theorem subitem_spec {sub len : ℕ} {t : List Char}
    (h : labelled isSemicolon ':' ((fieldAt isBlank s item).drop (len + 1)) t = some sub) :
    OccursAt t s (item + len + 1 + sub) ∧ item + len + 1 + sub + t.length ≤
      item + (fieldAt isBlank s item).length ∧
      (':' ∈ fieldAt isSemicolon ((fieldAt isBlank s item).drop (len + 1)) sub →
        s[item + len + 1 + sub + t.length]? = some ':') := by
  obtain ⟨_, hocc, _, hmark⟩ := labelled_spec h
  have hin : OccursAt t (fieldAt isBlank s item) (len + 1 + sub) := occursAt_drop.mp hocc
  have hlen := hin.add_length_le
  have hplace : item + (len + 1 + sub) = item + len + 1 + sub := by omega
  refine ⟨hplace ▸ hin.of_fieldAt, by omega, fun hm => ?_⟩
  have hchar := hmark hm
  rw [getElem?_drop] at hchar
  rw [← getElem?_of_fieldAt hchar]
  congr 1
  omega

/-- The ways in which an item can be present: a key, and a subkey at `place` inside the item. -/
theorem presence_cases (bootargs key : CString) (subkey : Option CString) :
    presence bootargs key subkey = .absent ∨ ∃ item, itemOf bootargs key = some item ∧
      (hasSubkey subkey = false ∧ (presence bootargs key subkey = .bare ∨
          presence bootargs key subkey = .valued (item + key.chars.length + 1) ∧
            bootargs.chars[item + key.chars.length]? = some '=') ∨
        hasSubkey subkey = true ∧ ∃ place, OccursAt (subText subkey) bootargs.chars place ∧
          item + key.chars.length < place ∧
          place + (subText subkey).length ≤ item + (fieldAt isBlank bootargs.chars item).length ∧
          (presence bootargs key subkey = .bare ∨
            presence bootargs key subkey = .valued (place + (subText subkey).length + 1) ∧
              bootargs.chars[place + (subText subkey).length]? = some ':')) := by
  rw [presence]
  cases hitem : itemOf bootargs key with
  | none => exact .inl rfl
  | some item =>
    obtain ⟨_, _, _, hmark⟩ := labelled_spec hitem
    cases hs : hasSubkey subkey with
    | false =>
      refine .inr ⟨item, rfl, .inl ⟨rfl, ?_⟩⟩
      by_cases hm : '=' ∈ fieldAt isBlank bootargs.chars item
      · exact .inr ⟨by simp [hm], hmark hm⟩
      · exact .inl (by simp [hm])
    | true =>
      simp only [if_true]
      cases hsub : labelled isSemicolon ':' ((fieldAt isBlank bootargs.chars item).drop
        (key.chars.length + 1))
          (subText subkey) with
      | none => exact .inl rfl
      | some sub =>
        obtain ⟨hocc, hlen, hcolon⟩ := subitem_spec hsub
        refine .inr ⟨item, rfl, .inr ⟨trivial, item + key.chars.length + 1 + sub, hocc, by omega,
          hlen, ?_⟩⟩
        simp only
        split_ifs with hm
        · exact .inr ⟨rfl, hcolon hm⟩
        · exact .inl rfl

theorem not_blankIn_of_field (ha : item ≤ a) (hj : j < item + (fieldAt isBlank s item).length) :
    ¬BlankIn s a j := by
  rintro ⟨k, hk, hkj, c, hc, hblank⟩
  have hin : k - item < (fieldAt isBlank s item).length := by omega
  obtain ⟨c', hc', hb'⟩ := getElem?_fieldAt hin
  rw [show item + (k - item) = k by omega, hc] at hc'
  cases hc'
  rw [hblank] at hb'
  cases hb'

/-- A key that is found before its item is followed by a blank before the item. -/
theorem blankIn_of_lt_item {place : ℕ} (hitem : itemOf bootargs key = some item)
    (hi : OccursAt key.chars bootargs.chars i) (hlt : i < item) (hplace : item ≤ place) :
    BlankIn bootargs.chars (i + key.chars.length) place := by
  obtain ⟨hstart, hocc, hlen, _⟩ := labelled_spec hitem
  have hprev : ∃ c, bootargs.chars[item - 1]? = some c ∧ isBlank c := by
    have hne : item ≠ 0 := by omega
    simpa [isStart, hne, Option.any_eq_true] using hstart
  obtain ⟨c, hc, hblank⟩ := hprev
  by_cases hend : i + key.chars.length ≤ item - 1
  · exact ⟨item - 1, hend, by omega, c, hc, hblank⟩
  · -- The blank would be a character of the key, which the item has too.
    have hk : item - 1 - i < key.chars.length := by omega
    have hfirst := hi.getElem? hk
    rw [show i + (item - 1 - i) = item - 1 by omega, hc, ← hocc.getElem? hk] at hfirst
    refine absurd ⟨item + (item - 1 - i), by omega, le_rfl, c, hfirst.symm, hblank⟩
      (not_blankIn_of_field (a := item) le_rfl ?_)
    omega

section Reads

variable {low : ℕ → Option Char}

theorem add_one_ne_null (p : Ptr) : p.add 1 ≠ .null := by
  cases p <;> simp [Ptr.add, Ptr.null]

theorem mark_ne_nul : mark subkey ≠ nul := by
  rw [mark]
  split_ifs <;> decide

theorem getElem?_terminated_iff {c : Char} (hc : c ≠ nul) : (s ++ [nul])[e]? = some c ↔
    s[e]? = some c := by
  rw [getElem?_append]
  split_ifs with hlt
  · rfl
  · rw [getElem?_eq_none (not_lt.mp hlt), getElem?_singleton]
    split_ifs <;> simp [hc.symm]

theorem parseData_eq_null_iff : bootargsParseData low bootargs key subkey = some .null ↔
    ∃ c, deref low bootargs (findKeyEnd bootargs key subkey) = some c ∧ c ≠ mark subkey := by
  rw [bootargsParseData]
  cases hread : deref low bootargs (findKeyEnd bootargs key subkey) with
  | none => simp
  | some c =>
    by_cases hc : c = mark subkey
    · simp [add_one_ne_null]
    · simp [hc]

theorem parseData_eq_arg_iff {p : ℕ} : bootargsParseData low bootargs key subkey = some (.arg p) ↔
    ∃ e, FoundAt bootargs key subkey e ∧ bootargs.chars[e]? = some (mark subkey) ∧ p = e + 1 := by
  simp only [← findKeyEnd_eq_arg_iff]
  rw [bootargsParseData]
  cases hend : findKeyEnd bootargs key subkey with
  | low a =>
    cases hlow : low a with
    | none => simp [deref, hlow]
    | some c => by_cases hc : c = mark subkey <;> simp [deref, hlow, hc, Ptr.add, Ptr.null]
  | arg e =>
    have hread : (bootargs.chars ++ [nul])[e]? = some (mark subkey) ↔
        bootargs.chars[e]? = some (mark subkey) :=
      getElem?_terminated_iff mark_ne_nul
    rw [deref]
    cases hc : (bootargs.chars ++ [nul])[e]? with
    | none => simp [← hread, hc]
    | some c =>
      rw [hc, Option.some.injEq] at hread
      by_cases hm : c = mark subkey
      · simp only [hm, hread.mp hm, Ptr.add, Option.pure_def, Option.bind_eq_bind, Option.bind_some,
          if_true, Option.some.injEq, Ptr.arg.injEq, exists_eq_left', true_and]
        exact eq_comm
      · simp [hm, ← hread, Ptr.null]

theorem parseSwitch_of_null (h : bootargsParseData low bootargs key subkey = some .null)
    (set nset dflt : ℤ) : bootargsParseSwitch low bootargs key subkey set nset dflt =
      some (if findKeyEnd bootargs key subkey = .null then nset else set) := by
  rw [bootargsParseSwitch, h]
  rfl

def Presence.ptr : Presence → Ptr
  | .valued place => .arg place
  | _ => .null

/-- The lookup of a key, or of a subkey of a key, is as documented. -/
def LookupRight (low : ℕ → Option Char) (bootargs key : CString) (subkey : Option CString) : Prop :=
  bootargsParseData low bootargs key subkey = some (presence bootargs key subkey).ptr ∧
    ∀ set nset dflt : ℤ,
      (presence bootargs key subkey = .bare →
      bootargsParseSwitch low bootargs key subkey set nset dflt = some set) ∧
      (presence bootargs key subkey = .absent →
      bootargsParseSwitch low bootargs key subkey set nset dflt = some nset)

/-- A value is found if the first text that reads like the key is the key of its item, and the first
text after it that reads like the subkey is that of its subitem. A key without a value is taken for
one if no mark follows the text that is found. An absent one is reported if the search ends with
`NULL` and `NULL` can be read. -/
def LookupHolds (low : ℕ → Option Char) (bootargs key : CString) (subkey : Option CString) : Prop :=
  match presence bootargs key subkey with
  | .absent => NotFound bootargs key subkey ∧ ∃ c, low 0 = some c ∧ c ≠ mark subkey
  | .bare => ∃ e, FoundAt bootargs key subkey e ∧ bootargs.chars[e]? ≠ some (mark subkey)
  | .valued place => ∃ item, itemOf bootargs key = some item ∧ FirstAt key.chars bootargs.chars 0 item ∧
      (hasSubkey subkey = true → ∃ j, FirstAt (subText subkey) bootargs.chars (item +
      key.chars.length) j ∧
        place = j + (subText subkey).length + 1)

theorem absent_right_iff (h : presence bootargs key subkey = .absent) :
    LookupRight low bootargs key subkey ↔
      NotFound bootargs key subkey ∧ ∃ c, low 0 = some c ∧ c ≠ mark subkey := by
  simp only [LookupRight, h, reduceCtorEq, false_implies, true_and, true_implies]
  constructor
  · rintro ⟨hdata, hswitch⟩
    have hnull : findKeyEnd bootargs key subkey = .null := by
      by_contra hne
      have hset := hswitch 1 0 0
      rw [parseSwitch_of_null hdata, if_neg hne] at hset
      cases hset
    have hread := parseData_eq_null_iff.mp hdata
    rw [hnull] at hread
    exact ⟨findKeyEnd_eq_null_iff.mp hnull, hread⟩
  · rintro ⟨hno, hread⟩
    have hnull := findKeyEnd_eq_null_iff.mpr hno
    have hdata : bootargsParseData low bootargs key subkey = some .null := by
      rw [parseData_eq_null_iff, hnull]
      exact hread
    refine ⟨hdata, fun set nset dflt => ?_⟩
    rw [parseSwitch_of_null hdata, if_pos hnull]

/-- A subkey that is present is found somewhere after the key. -/
theorem not_subkeyNowhere (h : presence bootargs key subkey ≠ .absent) :
    ¬SubkeyNowhere bootargs key subkey := by
  rintro ⟨hs, i, hi, hno⟩
  obtain habsent | ⟨item, hitem, ⟨hs', _⟩ | ⟨_, place, hocc, hplace, _⟩⟩ :=
    presence_cases bootargs key subkey
  · exact h habsent
  · rw [hs] at hs'
    cases hs'
  · obtain ⟨_, hkey, _⟩ := labelled_spec hitem
    obtain ⟨i', hle, hi'⟩ := hkey.exists_firstAt (Nat.zero_le item)
    have heq := hi.unique hi'
    obtain ⟨j, _, hj⟩ := hocc.exists_firstAt (n := i + key.chars.length) (by omega)
    exact hno j hj

theorem FoundAt.le_length (h : FoundAt bootargs key subkey e) : e ≤ bootargs.chars.length := by
  obtain ⟨i, hi, hno, hsub⟩ := h
  cases hs : hasSubkey subkey with
  | false =>
    rw [hno hs]
    exact hi.2.1.add_length_le
  | true =>
    obtain ⟨j, hj, _, rfl⟩ := hsub hs
    exact hj.2.1.add_length_le

theorem read_ne_mark_iff (he : e ≤ bootargs.chars.length) :
    (∃ c, deref low bootargs (.arg e) = some c ∧ c ≠ mark subkey) ↔
    bootargs.chars[e]? ≠ some (mark subkey) := by
  have hlt : e < (bootargs.chars ++ [nul]).length := by simpa using he
  rw [← not_iff_not, not_not, ← getElem?_terminated_iff mark_ne_nul, deref, getElem?_eq_getElem hlt]
  simp

theorem bare_right_iff (h : presence bootargs key subkey = .bare) :
    LookupRight low bootargs key subkey ↔
      ∃ e, FoundAt bootargs key subkey e ∧ bootargs.chars[e]? ≠ some (mark subkey) := by
  simp only [LookupRight, h, reduceCtorEq, false_implies, and_true, true_implies]
  constructor
  · rintro ⟨hdata, hswitch⟩
    have hne : findKeyEnd bootargs key subkey ≠ .null := by
      intro hnull
      have hset := hswitch 1 0 0
      rw [parseSwitch_of_null hdata, if_pos hnull] at hset
      cases hset
    have hread := parseData_eq_null_iff.mp hdata
    rcases search_cases bootargs key subkey with ⟨e, he⟩ | hno | hwild
    · rw [findKeyEnd_of_foundAt he] at hread
      exact ⟨e, he, (read_ne_mark_iff he.le_length).mp hread⟩
    · exact absurd (findKeyEnd_of_notFound hno) hne
    · exact absurd hwild (not_subkeyNowhere (by simp [h]))
  · rintro ⟨e, he, hread⟩
    have hend := findKeyEnd_of_foundAt he
    have hdata : bootargsParseData low bootargs key subkey = some .null := by
      rw [parseData_eq_null_iff, hend]
      exact (read_ne_mark_iff he.le_length).mpr hread
    refine ⟨hdata, fun set nset dflt => ?_⟩
    rw [parseSwitch_of_null hdata, if_neg (by simp [hend, Ptr.null])]

/-- A subkey is found at its own subitem only if the key is found at its own item. -/
theorem FirstAt.eq_item (hitem : itemOf bootargs key = some item)
    (hi : FirstAt key.chars bootargs.chars 0 i) (hj : item ≤ j)
    (hblank : ¬BlankIn bootargs.chars (i + key.chars.length) j) : i = item := by
  obtain ⟨_, hkey, _⟩ := labelled_spec hitem
  obtain ⟨i', hle, hi'⟩ := hkey.exists_firstAt (Nat.zero_le item)
  have heq := hi.unique hi'
  by_contra hne
  exact hblank (blankIn_of_lt_item hitem hi.2.1 (by omega) hj)

theorem valued_right_iff {place : ℕ} (h : presence bootargs key subkey = .valued place) :
    LookupRight low bootargs key subkey ↔
      ∃ item, itemOf bootargs key = some item ∧ FirstAt key.chars bootargs.chars 0 item ∧
        (hasSubkey subkey = true → ∃ j, FirstAt (subText subkey) bootargs.chars (item +
        key.chars.length) j ∧
          place = j + (subText subkey).length + 1) := by
  simp only [LookupRight, h, Presence.ptr, reduceCtorEq, false_implies, and_true, implies_true]
  rw [parseData_eq_arg_iff]
  obtain habsent | ⟨item, hitem, ⟨hs, hkind⟩ | ⟨hs, q, hocc, hq, hqlen, hkind⟩⟩ :=
    presence_cases bootargs key subkey
  · rw [h] at habsent
    cases habsent
  · obtain hbare | ⟨hval, hmark⟩ := hkind
    · rw [h] at hbare
      cases hbare
    have hplace : place = item + key.chars.length + 1 := Presence.valued.inj (h.symm.trans hval)
    rw [mark, hs]
    constructor
    · rintro ⟨e, ⟨i, hi, hend, _⟩, _, he⟩
      have hei := hend hs
      have heq : i = item := by omega
      exact ⟨item, hitem, heq ▸ hi, fun hs' => absurd hs' (by simp)⟩
    · rintro ⟨item', hitem', hfirst, _⟩
      cases hitem.symm.trans hitem'
      exact ⟨_, ⟨item, hfirst, fun _ => rfl, fun hs' => absurd (hs.symm.trans hs') (by simp)⟩,
        hmark, hplace⟩
  · obtain hbare | ⟨hval, hmark⟩ := hkind
    · rw [h] at hbare
      cases hbare
    have hplace : place = q + (subText subkey).length + 1 := Presence.valued.inj (h.symm.trans hval)
    have hpos := length_pos_iff.mpr hocc.1
    rw [mark, hs]
    constructor
    · rintro ⟨e, ⟨i, hi, _, hsub⟩, _, he⟩
      obtain ⟨j, hj, hblank, hej⟩ := hsub hs
      have heq := FirstAt.eq_item hitem hi (by omega) hblank
      exact ⟨item, hitem, heq ▸ hi, fun _ => ⟨j, heq ▸ hj, by omega⟩⟩
    · rintro ⟨item', hitem', hfirst, hsub⟩
      cases hitem.symm.trans hitem'
      obtain ⟨j, hj, hje⟩ := hsub rfl
      have hjq : j = q := by omega
      have hin : j < item + (fieldAt isBlank bootargs.chars item).length := by omega
      have hblank : ¬BlankIn bootargs.chars (item + key.chars.length) j :=
        not_blankIn_of_field (by omega) hin
      refine ⟨q + (subText subkey).length,
        ⟨item, hfirst, fun hs' => absurd (hs.symm.trans hs') (by simp), ?_⟩, hmark, hplace⟩
      exact fun _ => ⟨j, hj, hblank, by rw [hjq]⟩

end Reads

/-- The lookup is as documented exactly where `LookupHolds`. -/
theorem bootargs_lookup_right_iff (low : ℕ → Option Char) (bootargs key : CString)
    (subkey : Option CString) : LookupRight low bootargs key subkey ↔
    LookupHolds low bootargs key subkey := by
  rw [LookupHolds]
  cases h : presence bootargs key subkey with
  | absent => exact absent_right_iff h
  | bare => exact bare_right_iff h
  | valued place => exact valued_right_iff h

def loglevelArgs : CString := ⟨"loglevel=3 level=1".toList, by decide⟩

def levelKey : CString := ⟨"level".toList, by decide⟩

/-- The value of `level` is that of the longer key before it. -/
theorem level_found_in_loglevel : presence loglevelArgs levelKey none = .valued 17 ∧
    bootargsParseData (fun _ => none) loglevelArgs levelKey none = some (.arg 9) ∧
      ¬LookupRight (fun _ => none) loglevelArgs levelKey none := by
  have hval : presence loglevelArgs levelKey none = .valued 17 := by decide
  have hdata : bootargsParseData (fun _ => none) loglevelArgs levelKey none = some (.arg 9) := rfl
  refine ⟨hval, hdata, fun h => ?_⟩
  have hright := h.1
  rw [hval] at hright
  cases hright

end Bootarg

end Toddler
