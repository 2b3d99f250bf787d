import Toddler.Lib.Chain

/-! Doubly linked lists whose ends are null. `DList next prev h l` says that the links from `h`
visit exactly the cells of `l`, each once, and that the links back agree. -/

namespace Toddler

open Function List

variable {α : Type*}

/-- The links back from the cells of a list, whose first cell leads to `p`. -/
def Back (prev : α → Option α) : Option α → List α → Prop
  | _, [] => True
  | p, a :: l => prev a = p ∧ Back prev (some a) l

structure DList (next prev : α → Option α) (h : Option α) (l : List α) : Prop where
  nodup : l.Nodup
  fwd : Chain next h l
  back : Back prev none l

variable {next prev next' prev' : α → Option α} {h p : Option α} {a b : α} {l : List α}

theorem Back.congr (hb : Back prev p l) (heq : ∀ a ∈ l, prev' a = prev a) : Back prev' p l := by
  induction l generalizing p with
  | nil => trivial
  | cons a l ih =>
    refine ⟨?_, ih hb.2 fun b hb => heq b (mem_cons_of_mem a hb)⟩
    rw [heq a (mem_cons_self ..)]
    exact hb.1

theorem back_append {l' : List α} : Back prev p (l ++ l') ↔
    Back prev p l ∧ Back prev (l.getLast?.or p) l' := by
  induction l generalizing p with
  | nil => simp [Back]
  | cons a l ih =>
    rw [cons_append, Back, Back, ih, and_assoc, getLast?_cons]
    cases l.getLast? <;> simp

theorem dlist_nil : DList next prev none [] := ⟨nodup_nil, rfl, trivial⟩

theorem DList.congr (hd : DList next prev h l) (hn : ∀ a ∈ l, next' a = next a)
    (hp : ∀ a ∈ l, prev' a = prev a) : DList next' prev' h l :=
  ⟨hd.nodup, hd.fwd.congr hn, hd.back.congr hp⟩

theorem DList.head_eq (hd : DList next prev h l) : h = l.head? := by
  cases l with
  | nil => exact hd.fwd
  | cons a l => exact hd.fwd.1

theorem DList.prev_eq {pre post : List α} (hd : DList next prev h (pre ++ a :: post)) :
    prev a = pre.getLast? := by
  have := (back_append.mp hd.back).2.1
  simpa using this

theorem Chain.next_eq {pre post : List α} (hc : Chain next h (pre ++ a :: post)) :
    Chain next (next a) post := by
  induction pre generalizing h with
  | nil => exact hc.2
  | cons b pre ih => exact ih hc.2

theorem DList.prev_eq_none_iff (hd : DList next prev h l) (ha : a ∈ l) :
    prev a = none ↔ h = some a := by
  obtain ⟨pre, post, rfl⟩ := append_of_mem ha
  rw [hd.prev_eq, hd.head_eq]
  cases pre with
  | nil => simp
  | cons b pre =>
    have hne : b ≠ a := by
      rintro rfl
      have := hd.nodup
      simp at this
    simp [hne]

variable [DecidableEq α]

/-- The links back after `a` is put in front of a list that begins with `h`. -/
def pushPrev (prev : α → Option α) (h : Option α) (a : α) : α → Option α :=
  match h with
  | none => update prev a none
  | some b => update (update prev a none) b (some a)

def unlinkNext (next prev : α → Option α) (a : α) : α → Option α :=
  match prev a with
  | none => next
  | some p => update next p (next a)

def unlinkPrev (next prev : α → Option α) (a : α) : α → Option α :=
  match next a with
  | none => prev
  | some q => update prev q (prev a)

theorem unlinkPrev_of_ne (hb : next a ≠ some b) : unlinkPrev next prev a b = prev b := by
  cases hq : next a with
  | none => simp only [unlinkPrev, hq]
  | some q =>
    have hbq : b ≠ q := fun he => hb (by rw [hq, he])
    simp only [unlinkPrev, hq, update_of_ne hbq]

theorem DList.push (hd : DList next prev h l) (ha : a ∉ l) :
    DList (update next a h) (pushPrev prev h a) (some a) (a :: l) := by
  refine ⟨nodup_cons.mpr ⟨ha, hd.nodup⟩, hd.fwd.push ha, ?_⟩
  obtain ⟨hnd, hfwd, hback⟩ := hd
  cases l with
  | nil =>
    obtain rfl : h = none := hfwd
    exact ⟨update_self .., trivial⟩
  | cons b l =>
    obtain ⟨rfl, -⟩ := hfwd
    simp only [mem_cons, not_or] at ha
    refine ⟨?_, update_self .., hback.2.congr fun c hc => ?_⟩
    · rw [pushPrev, update_of_ne ha.1, update_self]
    · have hcb : c ≠ b := fun he => (nodup_cons.mp hnd).1 (he ▸ hc)
      have hca : c ≠ a := fun he => ha.2 (he ▸ hc)
      rw [pushPrev, update_of_ne hcb, update_of_ne hca]

theorem Back.unlink {post : List α} (hfwd : Chain next (next a) post) (hnd : post.Nodup)
    (hback : Back prev (some a) post) : Back (unlinkPrev next prev a) (prev a) post := by
  cases post with
  | nil => trivial
  | cons q post =>
    obtain ⟨hq, -⟩ := hfwd
    refine ⟨?_, hback.2.congr fun c hc => ?_⟩
    · simp only [unlinkPrev, hq, update_self]
    · have hcq : c ≠ q := fun he => (nodup_cons.mp hnd).1 (he ▸ hc)
      simp only [unlinkPrev, hq, update_of_ne hcq]

theorem DList.unlink (hd : DList next prev h l) (ha : a ∈ l) :
    DList (unlinkNext next prev a) (unlinkPrev next prev a) (if h = some a then next a
    else h) (l.erase a) := by
  obtain ⟨pre, post, rfl⟩ := append_of_mem ha
  have hnd := hd.nodup
  have hpre : a ∉ pre := fun hmem => disjoint_of_nodup_append hnd hmem (mem_cons_self ..)
  have hprev := hd.prev_eq
  obtain ⟨hback, -, hpost⟩ := back_append.mp hd.back
  have hnext := hd.fwd.next_eq
  have hndpost : post.Nodup := (nodup_cons.mp (nodup_append.mp hnd).2.1).2
  have hback' := hpost.unlink hnext hndpost
  refine ⟨hnd.erase a, ?_, ?_⟩
  · rw [erase_append_right _ hpre, erase_cons_head]
    rcases eq_nil_or_concat pre with rfl | ⟨pre', p, rfl⟩
    · rw [unlinkNext, hprev]
      have hh : h = some a := hd.fwd.1
      rw [if_pos hh]
      exact hnext
    · have hfwd := hd.fwd
      rw [concat_eq_append, append_assoc] at hfwd hnd
      have hh : h ≠ some a := by
        rintro rfl
        apply hpre
        cases pre' with
        | nil => exact mem_singleton.mpr (Option.some.inj hfwd.1)
        | cons c pre' => exact mem_cons.mpr (Or.inl (Option.some.inj hfwd.1))
      rw [unlinkNext, hprev, concat_eq_append, getLast?_concat, if_neg hh, append_assoc]
      exact hfwd.unlink hnd
  · rw [erase_append_right _ hpre, erase_cons_head, back_append]
    refine ⟨hback.congr fun c hc => ?_, ?_⟩
    · refine unlinkPrev_of_ne fun hq => ?_
      have hcpost : c ∈ post := by
        cases post with
        | nil => rw [hq] at hnext; cases hnext
        | cons q post =>
          rw [hq] at hnext
          rw [Option.some.inj hnext.1]
          exact mem_cons_self ..
      exact disjoint_of_nodup_append hnd hc (mem_cons_of_mem a hcpost)
    · rw [Option.or_none, ← hprev]
      exact hback'

theorem unlinkNext_of_ne (hb : prev a ≠ some b) : unlinkNext next prev a b = next b := by
  cases hp : prev a with
  | none => simp only [unlinkNext, hp]
  | some p =>
    have hbp : b ≠ p := fun he => hb (by rw [hp, he])
    simp only [unlinkNext, hp, update_of_ne hbp]

/-- Taking a cell out leaves the links of the cells outside the list alone. -/
theorem DList.unlink_frame (hd : DList next prev h l) (ha : a ∈ l) (hb : b ∉ l) :
    unlinkNext next prev a b = next b ∧ unlinkPrev next prev a b = prev b := by
  obtain ⟨pre, post, rfl⟩ := append_of_mem ha
  refine ⟨unlinkNext_of_ne fun hp => hb ?_, unlinkPrev_of_ne fun hq => hb ?_⟩
  · rw [hd.prev_eq] at hp
    exact mem_append_left _ (mem_of_getLast? hp)
  · have hnext := hd.fwd.next_eq
    cases post with
    | nil => rw [hq] at hnext; cases hnext
    | cons q post =>
      obtain rfl : b = q := Option.some.inj (hq.symm.trans hnext.1)
      simp

/-- Putting a cell in front leaves the links of the cells outside the list alone. -/
theorem DList.push_frame (hd : DList next prev h l) (hba : b ≠ a) (hb : b ∉ l) :
    update next a h b = next b ∧ pushPrev prev h a b = prev b := by
  refine ⟨update_of_ne hba .., ?_⟩
  cases l with
  | nil =>
    obtain rfl : h = none := hd.fwd
    exact update_of_ne hba ..
  | cons c l =>
    obtain ⟨rfl, -⟩ := hd.fwd
    have hbc : b ≠ c := fun he => hb (he ▸ mem_cons_self ..)
    rw [pushPrev, update_of_ne hbc, update_of_ne hba]

/-- The list from `h` holds the cells with `P`, and perhaps some that are excepted. -/
structure DListOf (next prev : α → Option α) (h : Option α) (l : List α) (P but : α → Prop) :
    Prop where
  dlist : DList next prev h l
  mem_iff : ∀ b, ¬ but b → (b ∈ l ↔ P b)

namespace DListOf

variable {P P' but : α → Prop}

omit [DecidableEq α] in
theorem except (hl : DListOf next prev h l P but) (hbut : ∀ b, but b → b = a)
    (hP : ∀ b ≠ a, P' b ↔ P b) : DListOf next prev h l P' (· = a) := by
  refine ⟨hl.dlist, fun b hb => ?_⟩
  rw [hP b hb]
  exact hl.mem_iff b fun hbb => hb (hbut b hbb)

variable (hl : DListOf next prev h l P (· = a))
include hl

omit [DecidableEq α] in
theorem keep (ha : a ∈ l ↔ P a) : DListOf next prev h l P fun _ => False := by
  refine ⟨hl.dlist, fun b _ => ?_⟩
  by_cases hb : b = a
  · rw [hb]
    exact ha
  · exact hl.mem_iff b hb

theorem insert (hnot : a ∉ l) (ha : P a) :
    DListOf (update next a h) (pushPrev prev h a) (some a) (a :: l) P fun _ => False := by
  refine ⟨hl.dlist.push hnot, fun b _ => ?_⟩
  rw [mem_cons]
  by_cases hb : b = a
  · rw [hb]
    exact iff_of_true (Or.inl rfl) ha
  · simp only [hb, false_or]
    exact hl.mem_iff b hb

theorem remove (hmem : a ∈ l) (ha : ¬ P a) :
    DListOf (unlinkNext next prev a) (unlinkPrev next prev a) (if h = some a then next a
    else h) (l.erase a) P
      fun _ => False := by
  refine ⟨hl.dlist.unlink hmem, fun b _ => ?_⟩
  rw [hl.dlist.nodup.mem_erase_iff]
  by_cases hb : b = a
  · rw [hb]
    exact iff_of_false (fun hbb => hbb.1 rfl) ha
  · simp only [ne_eq, hb, not_false_eq_true, true_and]
    exact hl.mem_iff b hb

end DListOf

end Toddler
