import Toddler.Spec.Vm
import Mathlib.Data.List.TakeWhile
import Mathlib.Tactic

/-! The dynamic area of a process stays partitioned. A block changes lists, is cut in two or three
by an allocation, or is merged with its neighbours when it becomes available; each of these keeps
the count of blocks over every address. -/

namespace Toddler

open List Option VmBlock

/-- The blocks that are available and those that are not, with the ids below `nextId`. -/
structure Parts (c : VmConfig) (avail active : List VmBlock) (nextId : ℕ) : Prop where
  tiles : ∀ x, cover base fin (avail ++ active) x = if c.start ≤ x ∧ x < c.fin then 1 else 0
  bounds : ∀ b ∈ avail ++ active, c.start ≤ b.base ∧ b.fin ≤ c.fin
  ids : ((avail ++ active).map VmBlock.id).Nodup
  fresh : ∀ b ∈ avail ++ active, b.id < nextId

/-- No block is empty and available blocks have gaps between them. -/
structure Packed (avail active : List VmBlock) : Prop where
  pos : ∀ b ∈ avail ++ active, 0 < b.size
  gaps : avail.Pairwise fun a b => a.fin < b.base

variable {c : VmConfig} {avail active active' : List VmBlock} {nextId : ℕ} {b t n : VmBlock}

theorem Parts.perm (h : Parts c avail active nextId) (hp : active.Perm active') :
    Parts c avail active' nextId := by
  have hall : (avail ++ active).Perm (avail ++ active') := hp.append_left avail
  refine ⟨fun x => ?_, fun b hb => ?_, ?_, fun b hb => ?_⟩
  · rw [← cover_perm hall]
    exact h.tiles x
  · exact h.bounds b (hall.mem_iff.mpr hb)
  · exact (hall.map _).nodup_iff.mp h.ids
  · exact h.fresh b (hall.mem_iff.mpr hb)

theorem Parts.fin_lt (h : Parts c avail active nextId) (hb : b ∈ avail ++ active) : b.fin < word :=
  (h.bounds b hb).2.trans_lt c.fin_lt

theorem Packed.perm (h : Packed avail active) (hp : active.Perm active') : Packed avail active' :=
  ⟨fun b hb => h.pos b ((hp.append_left avail).mem_iff.mpr hb), h.gaps⟩

variable {m : ℕ}

theorem Parts.mono (h : Parts c avail active nextId) (hm : nextId ≤ m) : Parts c avail active m :=
  ⟨h.tiles, h.bounds, h.ids, fun b hb => (h.fresh b hb).trans_le hm⟩

/-- `t` is cut into the block `b` and the pieces that stay available. -/
structure Cut (t : VmBlock) (pieces : List VmBlock) (b : VmBlock) (extraId : ℕ) : Prop where
  tiles : ∀ x, cover base fin (b :: pieces) x = cover base fin [t] x
  bounds : ∀ d ∈ b :: pieces, t.base ≤ d.base ∧ d.fin ≤ t.fin
  ids : (pieces.map VmBlock.id).Sublist [t.id, extraId]

theorem cover_block (b : VmBlock) (l : List VmBlock) (x : ℕ) : cover base fin (b :: l) x =
    (if b.base ≤ x ∧ x < b.base + b.size then 1 else 0) + cover base fin l x :=
  cover_cons b l x

theorem Cut.whole (extraId : ℕ) (hb : b.base = t.base) (hs : b.size = t.size) :
    Cut t [] b extraId := by
  refine ⟨fun x => ?_, fun d hd => ?_, by simp⟩
  · simp [cover_block, hb, hs]
  · rw [mem_singleton.mp hd]
    simp only [fin]
    omega

theorem Cut.half {d : VmBlock} (extraId : ℕ) (hid : d.id = t.id)
    (h : (b.base = t.base ∧ d.base = b.fin ∧ d.fin = t.fin) ∨
    (d.base = t.base ∧ b.base = d.fin ∧ b.fin = t.fin)) : Cut t [d] b extraId := by
  simp only [VmBlock.fin] at h
  refine ⟨fun x => ?_, fun e he => ?_, by simp [hid]⟩
  · simp only [cover_block]
    split_ifs <;> omega
  · simp only [mem_cons, not_mem_nil, or_false] at he
    simp only [fin]
    rcases he with rfl | rfl <;> omega

theorem Cut.middle {d e : VmBlock} (hd : d.id = t.id) (h1 : d.base = t.base) (h2 : b.base = d.fin)
    (h3 : e.base = b.fin) (h4 : e.fin = t.fin) : Cut t [d, e] b e.id := by
  simp only [VmBlock.fin] at *
  refine ⟨fun x => ?_, fun f hf => ?_, by simp [hd]⟩
  · simp only [cover_block]
    split_ifs <;> omega
  · simp only [mem_cons, not_mem_nil, or_false] at hf
    simp only [fin]
    rcases hf with rfl | rfl | rfl <;> omega

variable {pieces pre post : List VmBlock}

theorem Cut.perm : (pre ++ pieces ++ post ++ b :: active).Perm (b :: pieces ++
    (pre ++ post ++ active)) := by
  refine perm_middle.trans (List.Perm.cons b ?_)
  rw [append_assoc pre, append_assoc, append_assoc pieces]
  refine (perm_append_comm_assoc pre pieces (post ++ active)).trans ?_
  rw [append_assoc]
  exact List.Perm.refl _

theorem Cut.ids_lt {extraId : ℕ} (hcut : Cut t pieces b extraId) (ht : t.id < m)
    (he : extraId < m) : ∀ d ∈ pieces, d.id < m := by
  intro d hd
  have := hcut.ids.mem (mem_map_of_mem hd)
  simp only [mem_cons, not_mem_nil, or_false] at this
  omega

theorem Parts.cut (h : Parts c (pre ++ t :: post) active nextId)
    (hcut : Cut t pieces b (nextId + 1)) (hb : b.id = nextId) (hm : nextId < m)
    (hpieces : ∀ d ∈ pieces, d.id < m) : Parts c (pre ++ pieces ++ post) (b :: active) m := by
  have hold : (pre ++ t :: post ++ active).Perm (t :: (pre ++ post ++ active)) := by
    rw [append_assoc, append_assoc]
    exact perm_middle
  have hmem : ∀ d ∈ pre ++ pieces ++ post ++ b :: active,
      d ∈ b :: pieces ∨ d ∈ pre ++ t :: post ++ active := by
    intro d hd
    rcases mem_append.mp (Cut.perm.mem_iff.mp hd) with hd | hd
    · exact .inl hd
    · exact .inr (hold.mem_iff.mpr (mem_cons_of_mem t hd))
  have ht : t ∈ pre ++ t :: post ++ active := by simp
  refine ⟨fun x => ?_, fun d hd => ?_, ?_, fun d hd => ?_⟩
  · rw [← h.tiles x, cover_perm Cut.perm, cover_perm hold, cover_append, hcut.tiles, cover_cons,
      cover_cons, cover_nil, Nat.add_zero]
  · rcases hmem d hd with hd | hd
    · have h1 := hcut.bounds d hd
      have h2 := h.bounds t ht
      omega
    · exact h.bounds d hd
  · -- the ids are those of before, perhaps without `t`, and two new ones
    have hnew : (nextId :: (nextId + 1) :: (pre ++ t :: post ++ active).map VmBlock.id).Nodup := by
      have hlt : ∀ i ∈ (pre ++ t :: post ++ active).map VmBlock.id, i < nextId := by
        intro i hi
        obtain ⟨d, hd, rfl⟩ := mem_map.mp hi
        exact h.fresh d hd
      refine nodup_cons.mpr ⟨?_, nodup_cons.mpr ⟨?_, h.ids⟩⟩
      · intro hi
        rcases mem_cons.mp hi with hi | hi
        · omega
        · exact absurd (hlt _ hi) (by omega)
      · exact fun hi => absurd (hlt _ hi) (by omega)
    rw [(Cut.perm.map VmBlock.id).nodup_iff, map_append, map_cons, hb]
    rw [((hold.map VmBlock.id).cons _ |>.cons _).nodup_iff] at hnew
    have hswap : (nextId :: (nextId + 1) :: t.id :: (pre ++ post ++ active).map VmBlock.id).Perm
        (nextId :: [t.id, nextId + 1] ++ (pre ++ post ++ active).map VmBlock.id) :=
      (List.Perm.swap _ _ _).cons _
    exact (hswap.nodup_iff.mp hnew).sublist ((hcut.ids.cons_cons _).append (List.Sublist.refl _))
  · rcases hmem d hd with hd | hd
    · rcases mem_cons.mp hd with rfl | hd
      · omega
      · exact hpieces d hd
    · have := h.fresh d hd
      omega

theorem Packed.cut {extraId : ℕ} (h : Packed (pre ++ t :: post) active)
    (hcut : Cut t pieces b extraId) (hpos : ∀ d ∈ b :: pieces, 0 < d.size)
    (hgaps : pieces.Pairwise fun a b => a.fin < b.base) :
      Packed (pre ++ pieces ++ post) (b :: active) := by
  obtain ⟨hpre, htail, hcross⟩ := pairwise_append.mp h.gaps
  obtain ⟨hpost, htail⟩ := pairwise_cons.mp htail
  refine ⟨fun d hd => ?_, ?_⟩
  · simp only [mem_append, mem_cons] at hd
    rcases hd with ((hd | hd) | hd) | rfl | hd
    · exact h.pos d (by simp [hd])
    · exact hpos d (by simp [hd])
    · exact h.pos d (by simp [hd])
    · exact hpos d (by simp)
    · exact h.pos d (by simp [hd])
  · rw [append_assoc]
    refine pairwise_append.mpr ⟨hpre, pairwise_append.mpr ⟨hgaps, htail, fun d hd e he => ?_⟩,
      fun d hd e he => ?_⟩
    · have h1 := (hcut.bounds d (by simp [hd])).2
      have h2 := hpost e he
      omega
    · rcases mem_append.mp he with he | he
      · have h1 := (hcut.bounds e (by simp [he])).1
        have h2 := hcross d hd t (by simp)
        omega
      · exact hcross d hd e (by simp [he])

/-- `l'` is `l` with some neighbours merged. -/
structure Merged (l l' : List VmBlock) : Prop where
  tiles : ∀ x, cover VmBlock.base VmBlock.fin l' x = cover VmBlock.base VmBlock.fin l x
  ids : (l'.map VmBlock.id).Sublist (l.map VmBlock.id)
  bounds : ∀ lo hi, (∀ d ∈ l, lo ≤ d.base ∧ d.fin ≤ hi) → ∀ d ∈ l', lo ≤ d.base ∧ d.fin ≤ hi
  pos : (∀ d ∈ l, 0 < d.size) → ∀ d ∈ l', 0 < d.size

theorem Merged.refl (l : List VmBlock) : Merged l l :=
  ⟨fun _ => rfl, List.Sublist.refl _, fun _ _ h => h, fun h => h⟩

theorem Merged.trans {l l' l'' : List VmBlock} (h : Merged l l') (h' : Merged l' l'') :
    Merged l l'' :=
  ⟨fun x => (h'.tiles x).trans (h.tiles x), h'.ids.trans h.ids,
    fun lo hi hb => h'.bounds lo hi (h.bounds lo hi hb), fun hp => h'.pos (h.pos hp)⟩

theorem Merged.append_left {l l' : List VmBlock} (pre : List VmBlock) (h : Merged l l') :
    Merged (pre ++ l) (pre ++ l') := by
  refine ⟨fun x => ?_, ?_, fun lo hi hb d hd => ?_, fun hp d hd => ?_⟩
  · rw [cover_append, cover_append, h.tiles]
  · rw [map_append, map_append]
    exact h.ids.append_left _
  · rcases mem_append.mp hd with hd | hd
    · exact hb d (mem_append_left _ hd)
    · exact h.bounds lo hi (fun e he => hb e (mem_append_right _ he)) d hd
  · rcases mem_append.mp hd with hd | hd
    · exact hp d (mem_append_left _ hd)
    · exact h.pos (fun e he => hp e (mem_append_right _ he)) d hd

theorem availListMerge_eq_some {a m : VmBlock} (ha : a.fin < word) (hb : b.fin < word) :
    availListMerge a b = some m ↔ a.fin = b.base ∧ m = { a with size := a.size + b.size } := by
  simp only [fin] at *
  rw [availListMerge, add64_of_lt ha]
  constructor
  · intro h
    split_ifs at h with he
    rw [add64_of_lt (by omega), Option.some.injEq] at h
    exact ⟨he, h.symm⟩
  · rintro ⟨he, rfl⟩
    rw [if_pos he, add64_of_lt (by omega)]

theorem availListMerge_eq_none {a : VmBlock} (ha : a.fin < word) : availListMerge a b = none ↔
    a.fin ≠ b.base := by
  simp only [fin] at *
  rw [availListMerge, add64_of_lt ha]
  split_ifs with he <;> simp [he]

theorem merged_pair (a b : VmBlock) (rest : List VmBlock) (h : a.fin = b.base) :
    Merged (a :: b :: rest) ({ a with size := a.size + b.size } :: rest) := by
  simp only [fin] at h
  refine ⟨fun x => ?_, ?_, fun lo hi hb d hd => ?_, fun hp d hd => ?_⟩
  · have hcons : ∀ d l, cover base fin (d :: l) x =
        (if d.base ≤ x ∧ x < d.base + d.size then 1 else 0) + cover base fin l x :=
      fun d l => cover_cons d l x
    simp only [hcons]
    split_ifs <;> omega
  · simp only [map_cons]
    exact (sublist_cons_self _ _).cons_cons _
  · rcases mem_cons.mp hd with rfl | hd
    · have h1 := hb a (by simp)
      have h2 := hb b (by simp)
      simp only [fin] at *
      omega
    · exact hb d (by simp [hd])
  · rcases mem_cons.mp hd with rfl | hd
    · have := hp a (by simp)
      simp only
      omega
    · exact hp d (by simp [hd])

theorem listMergeNext_merged (hw : ∀ d ∈ n :: post, d.fin < word) :
    Merged (n :: post) (listMergeNext availListMerge n post).1 := by
  cases post with
  | nil => exact Merged.refl _
  | cons next rest =>
    have hn := hw n (by simp)
    have hnext := hw next (by simp)
    rw [listMergeNext]
    cases hm : availListMerge n next with
    | none => exact Merged.refl _
    | some m =>
      obtain ⟨hadj, rfl⟩ := (availListMerge_eq_some hn hnext).mp hm
      exact merged_pair n next rest hadj

theorem listMerge_merged (hw : ∀ d ∈ pre ++ n :: post, d.fin < word) :
    Merged (pre ++ n :: post) (listMerge availListMerge pre n post).1 := by
  rcases eq_nil_or_concat pre with rfl | ⟨front, prev, rfl⟩
  · exact listMergeNext_merged hw
  rw [concat_eq_append] at hw ⊢
  have hn := hw n (by simp)
  have hp := hw prev (by simp)
  rw [listMerge, getLast?_concat, bind_some, dropLast_concat]
  cases hm : availListMerge prev n with
  | none => exact (listMergeNext_merged fun d hd => hw d (mem_append_right _ hd)).append_left _
  | some m =>
    obtain ⟨hadj, rfl⟩ := (availListMerge_eq_some hp hn).mp hm
    rw [append_assoc]
    refine ((merged_pair prev n post hadj).append_left front).trans (Merged.append_left front ?_)
    refine listMergeNext_merged (forall_mem_cons.mpr ⟨?_, fun d hd => hw d (by simp [hd])⟩)
    simp only [fin] at *
    omega

theorem listInsertMerge_merged (hw : ∀ d ∈ n :: avail, d.fin < word) :
    ∃ l, l.Perm (n :: avail) ∧ Merged l (listInsertMergeSorted baseLe availListMerge n
    avail).1 := by
  have hp := listInsertSorted_perm baseLe n avail
  exact ⟨_, hp, listMerge_merged fun d hd => hw d (hp.mem_iff.mp hd)⟩

theorem Parts.release (h : Parts c avail (n :: active) nextId) :
    Parts c (listInsertMergeSorted baseLe availListMerge n avail).1 active nextId := by
  have hperm : (avail ++ n :: active).Perm (n :: avail ++ active) := perm_middle
  have hw : ∀ d ∈ n :: avail, d.fin < word :=
    fun d hd => h.fin_lt (hperm.mem_iff.mpr (mem_append_left _ hd))
  obtain ⟨l, hl, hm⟩ := listInsertMerge_merged hw
  generalize (listInsertMergeSorted baseLe availListMerge n avail).1 = out at hm
  have hall : (l ++ active).Perm (avail ++ n :: active) := (hl.append_right active).trans hperm.symm
  have hids : ((out ++ active).map VmBlock.id).Sublist ((l ++ active).map VmBlock.id) := by
    rw [map_append, map_append]
    exact hm.ids.append_right _
  refine ⟨fun x => ?_, fun d hd => ?_, ?_, fun d hd => ?_⟩
  · rw [← h.tiles x, ← cover_perm hall, cover_append, cover_append, hm.tiles]
  · rcases mem_append.mp hd with hd | hd
    · exact hm.bounds _ _ (fun e he => h.bounds e (hall.mem_iff.mp (mem_append_left _ he))) d hd
    · exact h.bounds d (by simp [hd])
  · exact ((hall.map _).nodup_iff.mpr h.ids).sublist hids
  · have hmem := (hids.mem (mem_map_of_mem hd))
    obtain ⟨e, he, heq⟩ := mem_map.mp hmem
    rw [← heq]
    exact h.fresh e (hall.mem_iff.mp he)

/-- Merging with the next block leaves gaps, and nothing below the block. -/
theorem listMergeNext_gaps (hw : ∀ d ∈ n :: post, d.fin < word)
    (hgaps : post.Pairwise fun a b => a.fin < b.base) (hle : ∀ d ∈ post, n.fin ≤ d.base) :
    (listMergeNext availListMerge n post).1.Pairwise (fun a b => a.fin < b.base) ∧
      ∀ d ∈ (listMergeNext availListMerge n post).1, n.base ≤ d.base := by
  have hfin : n.fin = n.base + n.size := rfl
  cases post with
  | nil => simp [listMergeNext]
  | cons next rest =>
    obtain ⟨hnext, hrest⟩ := pairwise_cons.mp hgaps
    have hnf : next.fin = next.base + next.size := rfl
    have hnn := hle next (by simp)
    rw [listMergeNext]
    cases hm : availListMerge n next with
    | none =>
      have hne := (availListMerge_eq_none (hw n (by simp))).mp hm
      refine ⟨pairwise_cons.mpr ⟨fun d hd => ?_, hgaps⟩, fun d hd => ?_⟩
      · rcases mem_cons.mp hd with rfl | hd
        · omega
        · have := hnext d hd
          omega
      · rcases mem_cons.mp hd with rfl | hd
        · exact le_rfl
        · have := hle d hd
          omega
    | some m =>
      obtain ⟨hadj, rfl⟩ := (availListMerge_eq_some (hw n (by simp)) (hw next (by simp))).mp hm
      refine ⟨pairwise_cons.mpr ⟨fun d hd => ?_, hrest⟩, fun d hd => ?_⟩
      · have := hnext d hd
        simp only [fin] at *
        omega
      · rcases mem_cons.mp hd with rfl | hd
        · exact le_rfl
        · have := hnext d hd
          omega

theorem listMerge_gaps (hw : ∀ d ∈ pre ++ n :: post, d.fin < word)
    (hgaps : (pre ++ post).Pairwise fun a b => a.fin < b.base)
    (hpre : ∀ d ∈ pre, d.fin ≤ n.base) (hpost : ∀ d ∈ post, n.fin ≤ d.base) :
    (listMerge availListMerge pre n post).1.Pairwise fun a b => a.fin < b.base := by
  rcases eq_nil_or_concat pre with rfl | ⟨front, prev, rfl⟩
  · exact (listMergeNext_gaps hw hgaps hpost).1
  rw [concat_eq_append] at *
  obtain ⟨hgpre, hgpost, -⟩ := pairwise_append.mp hgaps
  obtain ⟨hgfront, -, hfront⟩ := pairwise_append.mp hgpre
  have hn := hw n (by simp)
  have hp := hw prev (by simp)
  have hle := hpre prev (by simp)
  have hnf : n.fin = n.base + n.size := rfl
  have hpf : prev.fin = prev.base + prev.size := rfl
  rw [listMerge, getLast?_concat, bind_some, dropLast_concat]
  cases hm : availListMerge prev n with
  | none =>
    have hne := (availListMerge_eq_none hp).mp hm
    obtain ⟨h1, h2⟩ := listMergeNext_gaps (fun d hd => hw d (mem_append_right _ hd)) hgpost hpost
    refine pairwise_append.mpr ⟨hgpre, h1, fun d hd e he => ?_⟩
    have := h2 e he
    -- the last block before `n` does not touch it, and the others end before the last
    rcases mem_append.mp hd with hd | hd
    · have := hfront d hd prev (by simp)
      omega
    · rw [mem_singleton.mp hd]
      omega
  | some m =>
    obtain ⟨hadj, rfl⟩ := (availListMerge_eq_some hp hn).mp hm
    have hfin : ({ prev with size := prev.size + n.size } : VmBlock).fin = n.fin := by
      simp only [fin] at *
      omega
    obtain ⟨h1, h2⟩ := listMergeNext_gaps (n := { prev with size := prev.size + n.size })
      (forall_mem_cons.mpr ⟨hfin ▸ hn, fun d hd => hw d (by simp [hd])⟩) hgpost fun d hd =>
      hfin ▸ hpost d hd
    refine pairwise_append.mpr ⟨hgfront, h1, fun d hd e he => ?_⟩
    exact (hfront d hd prev (by simp)).trans_le (h2 e he)

theorem Packed.release (h : Packed avail (n :: active))
    (hparts : Parts c avail (n :: active) nextId) :
    Packed (listInsertMergeSorted baseLe availListMerge n avail).1 active := by
  have hw : ∀ d ∈ n :: avail, d.fin < word := fun d hd =>
    hparts.fin_lt (perm_middle.mem_iff.mpr (mem_append_left active hd))
  have hposn : ∀ d ∈ n :: avail, 0 < d.size := fun d hd =>
    h.pos d (perm_middle.mem_iff.mpr (mem_append_left active hd))
  have hins := listInsertSorted_perm baseLe n avail
  -- `n` shares no address with an available block
  have hapart : ∀ d ∈ avail, Apart base fin d n := by
    have hpair := (pairwise_apart_iff (avail ++ n :: active)).mpr fun x => by
      rw [hparts.tiles]
      split_ifs <;> omega
    exact fun d hd => (pairwise_append.mp hpair).2.2 d hd n (by simp)
  have hsplit : avail.takeWhile (fun a => !baseLe n a) ++ avail.dropWhile (fun a => !baseLe n a) =
      avail :=
    takeWhile_append_dropWhile
  have hn : n.fin = n.base + n.size := rfl
  have hnpos := hposn n (by simp)
  refine ⟨fun d hd => ?_, ?_⟩
  · rcases mem_append.mp hd with hd | hd
    · obtain ⟨l, hl, hm⟩ := listInsertMerge_merged hw
      exact hm.pos (fun e he => hposn e (hl.mem_iff.mp he)) d hd
    · exact h.pos d (by simp [hd])
  · refine listMerge_gaps (fun d hd => hw d (hins.mem_iff.mp hd)) (by rw [hsplit]; exact h.gaps)
      (fun d hd => ?_) (fun d hd => ?_)
    · have hlt : d.base < n.base := by simpa [baseLe] using mem_takeWhile_imp hd
      have hmem : d ∈ avail := hsplit ▸ mem_append_left _ hd
      by_contra hno
      exact hapart d hmem n.base ⟨⟨by omega, by omega⟩, le_rfl, by omega⟩
    · have hmem : d ∈ avail := hsplit ▸ mem_append_right _ hd
      have hdpos := hposn d (by simp [hmem])
      have hdf : d.fin = d.base + d.size := rfl
      have hge : n.base ≤ d.base := by
        have hgaps := h.gaps
        rw [← hsplit] at hgaps
        have hpost := (pairwise_append.mp hgaps).2.1
        cases hdw : avail.dropWhile (fun a => !baseLe n a) with
        | nil => simp [hdw] at hd
        | cons e rest =>
          have he : n.base ≤ e.base := by
            have hhead := head?_dropWhile_not (fun a => !baseLe n a) avail
            rw [hdw] at hhead
            simpa [baseLe] using hhead
          rw [hdw] at hd hpost
          rcases mem_cons.mp hd with rfl | hd
          · exact he
          · have := (pairwise_cons.mp hpost).1 d hd
            have hef : e.fin = e.base + e.size := rfl
            omega
      by_contra hno
      exact hapart d hmem d.base ⟨⟨le_rfl, by omega⟩, hge, by omega⟩

theorem replaceFirst_some {α : Type} {p : α → Bool} {f : α → List α} {a : α} (l : List α) :
    ∀ {l' : List α}, replaceFirst p f l = some (a, l') →
      ∃ pre post, l = pre ++ a :: post ∧ p a = true ∧ l' = pre ++ f a ++ post := by
  induction l with
  | nil => intro l' h; simp [replaceFirst] at h
  | cons d l ih =>
    intro l' h
    rw [replaceFirst] at h
    split_ifs at h with hp
    · simp only [Option.some.injEq] at h
      obtain ⟨rfl, rfl⟩ := h
      exact ⟨[], l, rfl, hp, rfl⟩
    · obtain ⟨⟨a', m⟩, hr, heq⟩ := map_eq_some_iff.mp h
      simp only [Prod.mk.injEq] at heq
      obtain ⟨rfl, rfl⟩ := heq
      obtain ⟨pre, post, rfl, hpa, rfl⟩ := ih hr
      exact ⟨d :: pre, post, rfl, hpa, rfl⟩

variable {base size : ℕ}

/-- The rounded request: a page-aligned range that contains what was asked for. -/
theorem alloc_rounding (h : base + size + (pageSize - 1) < word) :
    alignDownPage base ≤ alignUpPage (add64 base size) ∧ alignUpPage (add64 base size) < word ∧
      (size ≠ 0 → alignDownPage base < alignUpPage (add64 base size)) := by
  have hps : pageSize = 4096 := rfl
  rw [alignUpPage, alignDownPage, add64_of_lt (show base + size < word by omega),
    add64_of_lt (show base + size + (pageSize - 1) < word by omega), hps]
  omega

/-- The pieces of `vm_alloc`, for a rounded request that the block fits. -/
theorem allocCarve_cut {fin : ℕ} (extraId : ℕ) (hle : base ≤ fin) (hsize : size = fin - base)
    (hfw : fin < word) (ht : t.fin < word) (hfit : allocFits base fin size t = true)
    (hbs : b.size = size) (hb : b.base = if base ≠ 0 then base else t.base) :
    Cut t (allocCarve base fin size extraId t) b extraId ∧
      (0 < size → (∀ d ∈ b :: allocCarve base fin size extraId t, 0 < d.size) ∧
        (allocCarve base fin size extraId t).Pairwise fun d e => d.fin < e.base) := by
  have htf : t.fin = t.base + t.size := rfl
  unfold allocFits at hfit
  unfold allocCarve
  rw [add64_of_lt ht] at hfit ⊢
  by_cases hbase : base ≠ 0
  · simp only [if_pos hbase] at hfit hb ⊢
    simp only [Bool.and_eq_true, decide_eq_true_eq] at hfit
    by_cases hfront : t.base = base <;> by_cases hback : t.base + t.size = fin
    · rw [if_pos hfront, if_pos hback]
      exact ⟨Cut.whole _ (by omega) (by omega), fun hpos => ⟨by simp; omega, by simp⟩⟩
    · rw [if_pos hfront, if_neg hback, add64_of_lt (show t.base + size < word by omega),
        sub64_of_le (show size ≤ t.size by omega) (by omega)]
      refine ⟨Cut.half _ rfl (.inl ?_), fun hpos => ⟨by simp; omega, by simp⟩⟩
      simp only [VmBlock.fin]
      omega
    · rw [if_neg hfront, if_pos hback, sub64_of_le (show size ≤ t.size by omega) (by omega)]
      refine ⟨Cut.half _ rfl (.inr ?_), fun hpos => ⟨by simp; omega, by simp⟩⟩
      simp only [VmBlock.fin, true_and]
      omega
    · rw [if_neg hfront, if_neg hback, sub64_of_le (show t.base ≤ base by omega) (by omega),
        sub64_of_le (show fin ≤ t.base + t.size by omega) (by omega)]
      refine ⟨Cut.middle rfl rfl ?_ ?_ ?_, fun hpos => ⟨by simp; omega, ?_⟩⟩
      all_goals
        simp only [VmBlock.fin, pairwise_cons, mem_singleton, forall_eq, not_mem_nil,
          false_implies, implies_true, List.Pairwise.nil, and_true]
        omega
  · simp only [if_neg hbase] at hfit hb ⊢
    have hfit' : size ≤ t.size := by simpa using hfit
    rw [sub64_of_le hfit' (by omega), add64_of_lt (show t.base + size < word by omega)]
    by_cases hall : t.size - size = 0
    · rw [if_pos hall]
      exact ⟨Cut.whole _ hb (by omega), fun hpos => ⟨by simp; omega, by simp⟩⟩
    · rw [if_neg hall]
      refine ⟨Cut.half _ rfl (.inl ?_), fun hpos => ⟨by simp; omega, by simp⟩⟩
      simp only [VmBlock.fin]
      omega

/-- The counter of a state. With a threshold of zero no block stays on `reuse_mapped`. -/
structure VmCount (s : Vm) : Prop where
  count : s.numActiveBlocks = s.active.length
  reuse : s.reuseMapped = []

/-- The partition of a state, and its counter. -/
structure VmInv (c : VmConfig) (s : Vm) : Prop extends VmCount s where
  parts : Parts c s.availUnmapped s.active s.nextId

theorem vmInv_create (c : VmConfig) (refCount : ℤ) :
    VmInv c (vmCreate c refCount) ∧
    Packed (vmCreate c refCount).availUnmapped (vmCreate c refCount).active := by
  have hlt := c.start_lt
  have hfin : c.start + (c.fin - c.start) = c.fin := by omega
  refine ⟨⟨⟨rfl, rfl⟩, fun x => ?_, ?_, ?_, ?_⟩, ?_, ?_⟩
  · simp only [vmCreate, Vm.active, append_nil, cover_block, hfin]
    rfl
  · simp only [vmCreate, Vm.active, append_nil, mem_singleton, forall_eq, fin]
    omega
  · simp [vmCreate, Vm.active]
  · simp [vmCreate, Vm.active]
  · simp only [vmCreate, Vm.active, append_nil, mem_singleton, forall_eq]
    omega
  · simp [vmCreate]

/-- A call that only moves blocks between lists other than `avail_unmapped`. -/
structure Moved (s s' : Vm) : Prop where
  avail : s'.availUnmapped = s.availUnmapped
  active : s'.active.Perm s.active
  count : s'.numActiveBlocks = s.numActiveBlocks
  nextId : s'.nextId = s.nextId
  reuse : s.reuseMapped = [] → s'.reuseMapped = []

variable {s s' s'' : Vm}

theorem Moved.refl (s : Vm) : Moved s s := ⟨rfl, List.Perm.refl _, rfl, rfl, fun h => h⟩

theorem Moved.trans (h : Moved s s') (h' : Moved s' s'') : Moved s s'' :=
  ⟨h'.avail.trans h.avail, h'.active.trans h.active, h'.count.trans h.count,
    h'.nextId.trans h.nextId, fun hr => h'.reuse (h.reuse hr)⟩

theorem Moved.vmCount (h : Moved s s') (hi : VmCount s) : VmCount s' :=
  ⟨by rw [h.count, hi.count, h.active.length_eq], h.reuse hi.reuse⟩

theorem Moved.keeps (h : Moved s s') (hi : VmInv c s) :
    VmInv c s' ∧ (Packed s.availUnmapped s.active → Packed s'.availUnmapped s'.active) := by
  refine ⟨⟨h.vmCount hi.toVmCount, ?_⟩, fun hp => ?_⟩
  · rw [h.avail, h.nextId]
    exact hi.parts.perm h.active.symm
  · rw [h.avail]
    exact hp.perm h.active.symm

theorem vmMoveToSanitUnmapped_moved {id : ℕ} (h : vmMoveToSanitUnmapped s id = some s') :
    Moved s s' := by
  simp only [vmMoveToSanitUnmapped, bind_eq_bind, bind_eq_some_iff, Option.some.injEq] at h
  obtain ⟨b, hb, rfl⟩ := h
  have hmem := mem_of_find?_eq_some hb
  refine ⟨rfl, ?_, rfl, rfl, fun h => h⟩
  simp only [Vm.active, append_assoc]
  refine (List.Perm.append_left _ (List.Perm.append_left _ ?_))
  rw [← append_assoc]
  refine perm_append_comm.trans ?_
  exact ((perm_cons_erase hmem).symm.append_right s.sanitUnmapped)

section

variable (hr : s.reuseMapped = [])
include hr

/-- With a threshold of zero a thread block passes through the empty `reuse_mapped`. -/
theorem vmChooseSanit_eq : vmChooseSanit s b = (s, some b) := by
  unfold vmChooseSanit
  by_cases ht : b.type = .thread
  · have hs : ({ s with reuseMapped := [] } : Vm) = s := by rw [← hr]
    simp [hr, listInsertSorted, sanitThreshold, hs]
  · rw [if_neg ht]

/-- A block taken off its list goes to `sanit_mapped`, or further with a single CPU. -/
theorem vmFreeRemovedBlock_spec (h : vmFreeRemovedBlock c s b = some s') :
    s'.availUnmapped = s.availUnmapped ∧ s'.active.Perm (b :: s.active) ∧
      s'.numActiveBlocks = s.numActiveBlocks ∧ s'.nextId = s.nextId ∧ s'.reuseMapped = [] ∧
      s'.inuseMapped = s.inuseMapped := by
  rw [vmFreeRemovedBlock, vmChooseSanit_eq hr] at h
  have hactive : ({ s with sanitMapped := listInsertSorted baseLe b s.sanitMapped } :
    Vm).active.Perm
      (b :: s.active) := by
    simp only [Vm.active, append_assoc]
    refine List.Perm.trans ?_ perm_middle
    refine List.Perm.append_left _ (List.Perm.trans ?_ perm_middle)
    exact List.Perm.append_left _ ((listInsertSorted_perm baseLe b s.sanitMapped).append_right _)
  simp only [vmRequestShootdown] at h
  split_ifs at h
  · have hmoved := vmMoveToSanitUnmapped_moved h
    refine ⟨hmoved.avail, hmoved.active.trans hactive, hmoved.count, hmoved.nextId, hmoved.reuse hr, ?_⟩
    simp only [vmMoveToSanitUnmapped, bind_eq_bind, bind_eq_some_iff, Option.some.injEq] at h
    obtain ⟨d, -, rfl⟩ := h
    rfl
  · simp only [Option.some.injEq] at h
    subst h
    exact ⟨rfl, hactive, rfl, rfl, hr, rfl⟩

theorem vmFreeBlock_moved {id : ℕ} (h : vmFreeBlock c s id = some s') : Moved s s' := by
  simp only [vmFreeBlock, bind_eq_bind, bind_eq_some_iff] at h
  obtain ⟨b, hb, h⟩ := h
  have hmem := mem_of_find?_eq_some hb
  obtain ⟨h1, h2, h3, h4, h5, -⟩ := vmFreeRemovedBlock_spec (by exact hr) h
  refine ⟨h1, h2.trans ?_, h3, h4, fun _ => h5⟩
  simp only [Vm.active, append_assoc]
  exact ((perm_cons_erase hmem).symm.append_right _)

theorem vmFree_moved (h : vmFree c s base = some s') : Moved s s' := by
  simp only [vmFree, bind_eq_bind, bind_eq_some_iff] at h
  obtain ⟨b, -, h⟩ := h
  exact vmFreeBlock_moved hr h

end

theorem vmPurge_loop (l : List VmBlock) : ∀ {s s' : Vm}, s.reuseMapped = [] →
    l.foldlM (vmFreeRemovedBlock c) s = some s' →
    s'.availUnmapped = s.availUnmapped ∧ s'.active.Perm (l ++ s.active) ∧
      s'.numActiveBlocks = s.numActiveBlocks ∧ s'.nextId = s.nextId ∧ s'.reuseMapped = [] := by
  induction l with
  | nil =>
    intro s s' hr h
    cases h
    exact ⟨rfl, List.Perm.refl _, rfl, rfl, hr⟩
  | cons b l ih =>
    intro s s' hr h
    obtain ⟨u, hu, h⟩ := bind_eq_some_iff.mp (by simpa using h)
    obtain ⟨h1, h2, h3, h4, h5, -⟩ := vmFreeRemovedBlock_spec hr hu
    obtain ⟨g1, g2, g3, g4, g5⟩ := ih h5 h
    refine ⟨g1.trans h1, g2.trans ?_, g3.trans h3, g4.trans h4, g5⟩
    exact (h2.append_left l).trans perm_middle

theorem vmPurge_moved (hr : s.reuseMapped = []) (h : vmPurge c s = some s') : Moved s s' := by
  obtain ⟨h1, h2, h3, h4, h5⟩ := vmPurge_loop s.inuseMapped (by exact hr) h
  refine ⟨h1, h2.trans ?_, h3, h4, fun _ => h5⟩
  simp only [Vm.active, append_assoc]
  exact List.Perm.refl _

/-- What the loop of `vm_move_sanit_to_avail` over the blocks `l` does apart from
`avail_unmapped`. -/
theorem vmMoveSanitToAvail_frame (l : List VmBlock) : ∀ {s : Vm},
    (l.foldl vmMoveOneToAvail s).numActiveBlocks = s.numActiveBlocks - l.length ∧
      (l.foldl vmMoveOneToAvail s).nextId = s.nextId ∧
      (l.foldl vmMoveOneToAvail s).active = s.active ∧
      (l.foldl vmMoveOneToAvail s).reuseMapped = s.reuseMapped := by
  induction l with
  | nil =>
    intro s
    exact ⟨by simp, rfl, rfl, rfl⟩
  | cons b l ih =>
    intro s
    obtain ⟨h1, h2, h3, h4⟩ := ih
    refine ⟨?_, h2, h3, h4⟩
    rw [foldl_cons, h1]
    simp only [vmMoveOneToAvail, length_cons]
    omega

theorem vmMoveSanitToAvail_loop (l : List VmBlock) : ∀ {s : Vm} {rest : List VmBlock},
    Parts c s.availUnmapped (l ++ rest) s.nextId →
    Parts c (l.foldl vmMoveOneToAvail s).availUnmapped rest s.nextId ∧
      (Packed s.availUnmapped (l ++ rest) → Packed (l.foldl vmMoveOneToAvail s).availUnmapped rest) := by
  induction l with
  | nil => exact fun h => ⟨h, fun hp => hp⟩
  | cons b l ih =>
    intro s rest h
    have hrel : Parts c (vmMoveOneToAvail s b).availUnmapped (l ++
      rest) (vmMoveOneToAvail s b).nextId := h.release
    obtain ⟨h1, h2⟩ := ih hrel
    exact ⟨h1, fun hp => h2 (hp.release h)⟩

/-- The blocks of `sanit_unmapped` and the other active ones. -/
theorem sanitUnmapped_perm (s : Vm) :
    s.active.Perm (s.sanitUnmapped ++ ({ s with sanitUnmapped := [] } : Vm).active) := by
  simp only [Vm.active, append_nil]
  exact perm_append_comm

theorem vmMoveSanitToAvail_active (s : Vm) :
    (vmMoveSanitToAvail s).active = ({ s with sanitUnmapped := [] } : Vm).active :=
  (vmMoveSanitToAvail_frame s.sanitUnmapped).2.2.1

theorem vmMoveSanitToAvail_count (hi : VmCount s) : VmCount (vmMoveSanitToAvail s) := by
  obtain ⟨h1, -, -, h4⟩ := vmMoveSanitToAvail_frame s.sanitUnmapped
  refine ⟨?_, h4.trans hi.reuse⟩
  have hcount := hi.count
  rw [(sanitUnmapped_perm s).length_eq, length_append] at hcount
  rw [vmMoveSanitToAvail_active, vmMoveSanitToAvail, h1]
  change s.numActiveBlocks - _ = _
  omega

theorem vmMoveSanitToAvail_inv (hi : VmInv c s) :
    VmInv c (vmMoveSanitToAvail s) ∧ (Packed s.availUnmapped s.active →
      Packed (vmMoveSanitToAvail s).availUnmapped (vmMoveSanitToAvail s).active) := by
  have hperm := sanitUnmapped_perm s
  obtain ⟨h1, h2⟩ := vmMoveSanitToAvail_loop s.sanitUnmapped (s :=
    { s with sanitUnmapped := [] }) (hi.parts.perm hperm)
  refine ⟨⟨vmMoveSanitToAvail_count hi.toVmCount, ?_⟩, fun hp => ?_⟩
  · rw [vmMoveSanitToAvail_active, vmMoveSanitToAvail, (vmMoveSanitToAvail_frame s.sanitUnmapped).2.1]
    exact h1
  · rw [vmMoveSanitToAvail_active]
    exact h2 (hp.perm hperm)

/-- The new block of an allocation joins the blocks in use. -/
theorem inuse_perm (s : Vm) (b : VmBlock) :
    (listInsertSorted baseLe b s.inuseMapped ++ s.reuseMapped ++ s.sanitMapped ++
    s.sanitUnmapped).Perm
      (b :: s.active) := by
  simp only [Vm.active, append_assoc]
  exact (listInsertSorted_perm baseLe b s.inuseMapped).append_right _

theorem inuse_count (hi : VmCount s) (b : VmBlock) : s.numActiveBlocks + 1 =
    (listInsertSorted baseLe b s.inuseMapped ++ s.reuseMapped ++ s.sanitMapped ++
    s.sanitUnmapped).length := by
  rw [(inuse_perm s b).length_eq, hi.count]
  rfl

theorem vmAlloc_count (hi : VmCount s) : VmCount (vmAlloc s base size).1 := by
  unfold vmAlloc
  simp only
  split
  · exact ⟨hi.count, hi.reuse⟩
  · exact ⟨inuse_count hi _, hi.reuse⟩

theorem vmAllocThread_count {blockSize : ℕ} (hi : VmCount s)
    (h : vmAllocThread s blockSize = some (s', some b)) : VmCount s' := by
  have hreuse : s.reuseMapped.getLast? = none := by simp [hi.reuse]
  unfold vmAllocThread at h
  rw [hreuse] at h
  cases hl : s.availUnmapped.getLast? with
  | none => simp [hl] at h
  | some last =>
    simp only [hl] at h
    by_cases hsmall : last.size < blockSize
    · simp [if_pos hsmall] at h
    rw [if_neg hsmall] at h
    by_cases hbase : add64 last.base (last.size - blockSize) ≠ 0
    · rw [if_pos hbase] at h
      obtain ⟨rfl, -⟩ := h
      exact ⟨inuse_count hi _, hi.reuse⟩
    · rw [if_neg hbase] at h
      simp at h

/-- The partition after `vm_alloc`, for any list of blocks that are not available. -/
theorem vmAlloc_parts (h : Parts c s.availUnmapped active s.nextId)
    (hwrap : base + size + (pageSize - 1) < word) :
    Parts c (vmAlloc s base size).1.availUnmapped ((vmAlloc s base size).2.toList ++ active)
        (vmAlloc s base size).1.nextId ∧
      (size ≠ 0 → Packed s.availUnmapped active →
        Packed (vmAlloc s base size).1.availUnmapped ((vmAlloc s base size).2.toList ++ active)) := by
  obtain ⟨hle, hfw, hlt⟩ := alloc_rounding hwrap
  unfold vmAlloc
  simp only [sub64_of_le hle hfw]
  generalize alignDownPage base = lo at *
  generalize alignUpPage (add64 base size) = top at *
  cases hr : replaceFirst (allocFits lo top (top - lo))
    (allocCarve lo top (top - lo) (s.nextId + 1))
      s.availUnmapped with
  | none => exact ⟨h.mono (by simp), fun _ hp => hp⟩
  | some r =>
    obtain ⟨t, avail'⟩ := r
    obtain ⟨pre, post, havail, hfit, rfl⟩ := replaceFirst_some _ hr
    rw [havail] at h
    have ht : t.fin < word := h.fin_lt (by simp)
    obtain ⟨hcut, hpos⟩ := allocCarve_cut (s.nextId + 1)
      (b := ⟨s.nextId, if lo ≠ 0 then lo else t.base, top - lo, .generic, .none⟩) hle rfl hfw ht
      hfit rfl rfl
    have hid := h.fresh t (by simp)
    have hnew := h.cut hcut rfl (by omega) (hcut.ids_lt (m := s.nextId + 2) (by omega) (by omega))
    refine ⟨hnew, fun hsz hp => ?_⟩
    rw [havail] at hp
    obtain ⟨h1, h2⟩ := hpos (by have := hlt hsz; omega)
    exact hp.cut hcut h1 h2

theorem vmAlloc_active (s : Vm) (base size : ℕ) :
    (vmAlloc s base size).1.active.Perm ((vmAlloc s base size).2.toList ++ s.active) := by
  unfold vmAlloc
  simp only
  split
  · exact List.Perm.refl _
  · exact inuse_perm s _

theorem vmAlloc_inv (hi : VmInv c s) (hwrap : base + size + (pageSize - 1) < word) :
    VmInv c (vmAlloc s base size).1 ∧ (size ≠ 0 → Packed s.availUnmapped s.active →
      Packed (vmAlloc s base size).1.availUnmapped (vmAlloc s base size).1.active) := by
  obtain ⟨h1, h2⟩ := vmAlloc_parts hi.parts hwrap
  have hperm := (vmAlloc_active s base size).symm
  exact ⟨⟨vmAlloc_count hi.toVmCount, h1.perm hperm⟩, fun hsz hp => (h2 hsz hp).perm hperm⟩

theorem threadCarve_cut (extraId : ℕ) (hle : size ≤ t.size)
    (hbase : b.base = t.base + (t.size - size))
    (hsize : b.size = size) (hp : pieces = if t.size - size = 0 then []
    else [{ t with size := t.size - size }]) :
    Cut t pieces b extraId ∧ (∀ d ∈ pieces, d.id = t.id) ∧
      (0 < size → (∀ d ∈ b :: pieces, 0 < d.size) ∧ pieces.Pairwise fun d e => d.fin < e.base) := by
  subst hp
  by_cases h0 : t.size - size = 0
  · rw [if_pos h0]
    refine ⟨Cut.whole _ (by omega) (by omega), by simp, fun hpos => ⟨?_, List.Pairwise.nil⟩⟩
    simpa [hsize] using hpos
  · rw [if_neg h0]
    refine ⟨Cut.half _ rfl (.inr ⟨rfl, hbase, ?_⟩), by simp, fun hpos => ⟨?_, pairwise_singleton _ _⟩⟩
    · simp only [fin]
      omega
    · exact forall_mem_cons.mpr ⟨by omega, forall_mem_singleton.mpr (Nat.pos_of_ne_zero h0)⟩

/-- What stays available when `vm_alloc_thread` takes a block off the end of `last`. -/
def threadAvail (s : Vm) (last : VmBlock) (size : ℕ) : List VmBlock :=
  s.availUnmapped.dropLast ++ if last.size - size = 0 then []
    else [{ last with size := last.size - size }]

def threadBlock (s : Vm) (last : VmBlock) (size : ℕ) : VmBlock :=
  ⟨s.nextId, last.base + (last.size - size), size, .thread, .owner⟩

/-- What `vm_alloc_thread` does when the last available block is large enough. -/
theorem vmAllocThread_fits {last : VmBlock} (h : Parts c s.availUnmapped active s.nextId)
    (hr : s.reuseMapped = []) (hl : s.availUnmapped.getLast? = some last)
    (hfit : size ≤ last.size) : vmAllocThread s size = some ({ s with
      availUnmapped := threadAvail s last size
      numActiveBlocks := s.numActiveBlocks + 1
      refCount := s.refCount + 1 - (if last.size - size = 0 then 1 else 0)
      numSallocObjs := s.numSallocObjs - (if last.size - size = 0 then 1 else 0) + 1
      nextId := s.nextId + 1
      inuseMapped := listInsertSorted baseLe (threadBlock s last size) s.inuseMapped },
        some (threadBlock s last size)) := by
  have hreuse : s.reuseMapped.getLast? = none := by simp [hr]
  have hbounds := h.bounds last (mem_append_left _ (mem_of_getLast? hl))
  have hlf : last.fin = last.base + last.size := rfl
  have hstart := c.start_pos
  have hfin := c.fin_lt
  unfold vmAllocThread
  rw [hreuse]
  simp only [hl]
  rw [if_neg (by omega), add64_of_lt (by omega), if_pos (by omega)]
  rfl

theorem vmAllocThread_parts {last : VmBlock} (h : Parts c s.availUnmapped active s.nextId)
    (hl : s.availUnmapped.getLast? = some last) (hfit : size ≤ last.size) :
    Parts c (threadAvail s last size) (threadBlock s last size :: active) (s.nextId + 1) ∧
      (size ≠ 0 → Packed s.availUnmapped active →
        Packed (threadAvail s last size) (threadBlock s last size :: active)) := by
  have havail : s.availUnmapped = s.availUnmapped.dropLast ++ last :: [] :=
    (dropLast_append_getLast? last hl).symm
  rw [havail] at h
  obtain ⟨hcut, hids, hpos⟩ := threadCarve_cut (s.nextId + 1) (b := threadBlock s last size) hfit
    rfl rfl rfl
  have hid := h.fresh last (by simp)
  have hnew := h.cut (m := s.nextId + 1) hcut rfl (by omega) fun d hd => by
    rw [hids d hd]
    omega
  rw [append_nil] at hnew
  refine ⟨hnew, fun hsz hp => ?_⟩
  rw [havail] at hp
  obtain ⟨h1, h2⟩ := hpos (Nat.pos_of_ne_zero hsz)
  have hpacked := hp.cut hcut h1 h2
  rwa [append_nil] at hpacked

theorem vmAllocThread_inv {blockSize : ℕ} {r : Option VmBlock} (hi : VmInv c s)
    (h : vmAllocThread s blockSize = some (s', r)) :
    VmInv c s' ∧ (blockSize ≠ 0 → Packed s.availUnmapped s.active →
      Packed s'.availUnmapped s'.active) := by
  have hskip : VmInv c { s with nextId := s.nextId + 1 } ∧
    (blockSize ≠ 0 → Packed s.availUnmapped s.active →
      Packed s.availUnmapped s.active) :=
    ⟨⟨⟨hi.count, hi.reuse⟩, hi.parts.mono (by simp)⟩, fun _ hp => hp⟩
  have hreuse : s.reuseMapped.getLast? = none := by simp [hi.reuse]
  cases hl : s.availUnmapped.getLast? with
  | none =>
    simp only [vmAllocThread, hreuse, hl] at h
    obtain ⟨rfl, -⟩ := h
    exact hskip
  | some last =>
    by_cases hsmall : last.size < blockSize
    · simp only [vmAllocThread, hreuse, hl, if_pos hsmall] at h
      obtain ⟨rfl, -⟩ := h
      exact hskip
    rw [vmAllocThread_fits hi.parts hi.reuse hl (by omega), Option.some.injEq] at h
    obtain ⟨rfl, -⟩ := h
    obtain ⟨hparts, hpacked⟩ := vmAllocThread_parts hi.parts hl (Nat.le_of_not_lt hsmall)
    have hperm := (inuse_perm s (threadBlock s last blockSize)).symm
    exact ⟨⟨⟨inuse_count hi.toVmCount _, hi.reuse⟩, hparts.perm hperm⟩,
      fun hsz hp => (hpacked hsz hp).perm hperm⟩

theorem vmStep_keeps {a : VmCall} (hi : VmInv c s) (hok : AllocNoWrap s a)
    (h : vmStep c s a = some s') : VmInv c s' ∧
    (AllocNonZero s a → Packed s.availUnmapped s.active → Packed s'.availUnmapped s'.active) := by
  have hmoved : Moved s s' →
      VmInv c s' ∧ (AllocNonZero s a → Packed s.availUnmapped s.active →
      Packed s'.availUnmapped s'.active) :=
    fun h => (h.keeps hi).imp_right fun hp _ => hp
  cases a with
  | alloc base size =>
    cases h
    exact (vmAlloc_inv hi hok).imp_right fun hp hnz => hp hnz.2
  | allocThread blockSize =>
    obtain ⟨⟨u, r⟩, hu, rfl⟩ := map_eq_some_iff.mp h
    exact (vmAllocThread_inv hi hu).imp_right fun hp hnz => hp hnz.2
  | freeBlock id => exact hmoved (vmFreeBlock_moved hi.reuse h)
  | free base => exact hmoved (vmFree_moved hi.reuse h)
  | purge => exact hmoved (vmPurge_moved hi.reuse h)
  | moveToSanitUnmapped id => exact hmoved (vmMoveToSanitUnmapped_moved h)
  | moveSanitToAvail =>
    cases h
    exact (vmMoveSanitToAvail_inv hi).imp_right fun hp _ => hp

theorem packed_reach {refCount : ℤ} (h : Reach (vmStep c) AllocNonZero (vmCreate c refCount) s) :
    Packed s.availUnmapped s.active :=
  (h.invariant (I := fun s => VmInv c s ∧ Packed s.availUnmapped s.active) (vmInv_create c refCount)
    fun _ _ _ hi hok hs => (vmStep_keeps hi.1 hok.1 hs).imp_right fun hp => hp hok hi.2).2

theorem VmInv.partition (hi : VmInv c s) : VmPartition c s := by
  refine ⟨?_, fun x => ?_, hi.parts.ids, hi.count⟩
  · rw [pairwise_apart_iff]
    intro x
    rw [hi.parts.tiles x]
    split_ifs <;> omega
  · rw [← cover_pos, hi.parts.tiles x]
    split_ifs with hx <;> simp [hx]

theorem pairwise_or_of_mem {α : Type*} {R : α → α → Prop} {l : List α} (h : l.Pairwise R) {a b : α}
    (ha : a ∈ l) (hb : b ∈ l) (hne : a ≠ b) : R a b ∨ R b a := by
  have hor : l.Pairwise fun a b => R a b ∨ R b a := h.imp .inl
  have : Std.Symm fun a b : α => R a b ∨ R b a := ⟨fun _ _ => Or.symm⟩
  exact hor.forall ha hb hne

theorem Packed.availSorted (h : Packed s.availUnmapped s.active) : AvailSorted s :=
  h.gaps.imp fun {a _} hab => lt_of_le_of_lt (Nat.le_add_right a.base a.size) hab

theorem Packed.availNotAdjacent (h : Packed s.availUnmapped s.active) : AvailNotAdjacent s := by
  intro a ha b hb hab
  by_contra hne
  -- one of the two comes first, and the gap after it is not empty
  rcases pairwise_or_of_mem h.gaps ha hb hne with hlt | hlt
  · omega
  · have haf : a.fin = a.base + a.size := rfl
    have hbf : b.fin = b.base + b.size := rfl
    omega

theorem vm_partition (c : VmConfig) (refCount : ℤ) (s : Vm)
    (h : Reach (vmStep c) AllocNoWrap (vmCreate c refCount) s) :
    VmPartition c s ∧ (Reach (vmStep c) AllocNonZero (vmCreate c refCount) s →
    AvailSorted s ∧ AvailNotAdjacent s) :=
  ⟨(h.invariant (vmInv_create c refCount).1 fun _ _ _ hi hok hs =>
    (vmStep_keeps hi hok hs).1).partition,
    fun hnz => ⟨(packed_reach hnz).availSorted, (packed_reach hnz).availNotAdjacent⟩⟩

def sixteenPages : VmConfig := ⟨0x10000, 0x20000, 1, by decide, by decide, by decide⟩

theorem vm_partition_of_a_run :
    ∃ s, execute (vmStep sixteenPages) AllocNonZero (vmCreate sixteenPages 1)
        [.alloc 0x14000 0x2000, .allocThread 0x3000, .alloc 0 0x1800, .free 0x14000,
        .moveSanitToAvail] = some s ∧
      s.availUnmapped.map VmBlock.base = [0x12000] ∧ s.active.map VmBlock.base = [0x10000, 0x1d000] ∧
      VmPartition sixteenPages s ∧ AvailSorted s ∧ AvailNotAdjacent s := by
  refine exists_execute (P := fun s => s.availUnmapped.map VmBlock.base = [0x12000] ∧
    s.active.map VmBlock.base = [0x10000, 0x1d000]) (by decide +kernel) fun s hs hP => ?_
  obtain ⟨hpart, hsorted⟩ := vm_partition sixteenPages 1 s (hs.mono fun _ _ h => h.1)
  exact ⟨hP.1, hP.2, hpart, hsorted hs⟩

/-- A block of size zero that comes back into the middle of an available block leaves the list
unsorted once the front of that block is allocated. -/
theorem zero_size_unsorts_avail :
    ¬ ∀ (c : VmConfig) (refCount : ℤ) (s : Vm),
    Reach (vmStep c) AllocNoWrap (vmCreate c refCount) s →
      VmPartition c s ∧ AvailSorted s ∧
        (Reach (vmStep c) AllocNonZero (vmCreate c refCount) s → AvailNotAdjacent s) := by
  intro h
  obtain ⟨s, hs, hl⟩ : ∃ s, Reach (vmStep sixteenPages) AllocNoWrap (vmCreate sixteenPages 1) s ∧
      s.availUnmapped.map base = [0x15000, 0x14000] :=
    exists_reach [.alloc 0x14000 0, .alloc 0x13000 0x1000, .free 0x13000, .moveSanitToAvail,
      .free 0x14000, .moveSanitToAvail, .alloc 0 0x5000] (by decide +kernel)
  have hsorted := pairwise_map.mpr (h sixteenPages 1 s hs).2.1
  rw [hl] at hsorted
  exact absurd hsorted (by decide)

end Toddler
