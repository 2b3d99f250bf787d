import Toddler.Spec.Palloc
import Mathlib.Tactic

/-! The buddy lists of the page allocator. `BuddyInv` ties the links and the node metadata to
abstract free lists `fr` whose blocks, with the blocks in hand and the live ones, tile the regions.
A block is in hand between the lines that take it off a list and the lines that put it somewhere
else. -/

namespace Toddler

open List Option Palloc

def PallocNode.setLink (n : PallocNode) (o : Option ℕ) : PallocNode :=
  { n with hasNext := o.isSome, next := o.getD 0 }

/-- A node without a successor has `next == 0`. -/
def PallocNode.Clean (n : PallocNode) : Prop := n.hasNext = false → n.next = 0

def PallocNode.info (n : PallocNode) : ℕ × RegionId × Bool × Bool :=
  (n.order, n.region, n.alloc, n.avail)

@[simp] theorem setLink_link (n : PallocNode) (o : Option ℕ) : (n.setLink o).link = o := by
  cases o <;> rfl

@[simp] theorem setLink_info (n : PallocNode) (o : Option ℕ) : (n.setLink o).info = n.info := rfl

theorem setLink_clean (n : PallocNode) (o : Option ℕ) : (n.setLink o).Clean := by
  cases o with
  | none => exact fun _ => rfl
  | some a => exact fun h => nomatch h

theorem setLink_of_clean {m : PallocNode} (hm : m.Clean) (n : PallocNode) :
    { n with hasNext := m.hasNext, next := m.next } = n.setLink m.link := by
  cases h : m.hasNext with
  | false => simp [PallocNode.setLink, PallocNode.link, h, hm h]
  | true => simp [PallocNode.setLink, PallocNode.link, h]

variable {n : PallocNode}

theorem link_eq_some {a : ℕ} : n.link = some a ↔ n.hasNext = true ∧ n.next = a := by
  cases h : n.hasNext <;> simp [PallocNode.link, h]

theorem link_eq_none : n.link = none ↔ n.hasNext = false := by
  cases h : n.hasNext <;> simp [PallocNode.link, h]

/-- The test of `pfree` on a header: nothing but its link is ever set. -/
theorem header_value (h : n = PallocNode.zero.setLink n.link) : n.value = 0 ↔ n.link = none := by
  rw [h, setLink_link]
  cases n.link with
  | none => simp [PallocNode.value, PallocNode.setLink, PallocNode.zero]
  | some a => simp [PallocNode.value, PallocNode.setLink]

/-- What `pfree` makes of its node is what `insert_node` makes of it. -/
theorem pfree_link {head : PallocNode} (h : head = PallocNode.zero.setLink head.link)
    (n : PallocNode) : (if head.value ≠ 0
    then { n with alloc := false, next := head.next, hasNext := true }
      else { n with alloc := false, next := 0, hasNext := false } : PallocNode) =
      ({ n with alloc := false } : PallocNode).setLink head.link := by
  cases hl : head.link with
  | none => simp [(header_value h).mpr hl, PallocNode.setLink]
  | some a =>
    have hv : head.value ≠ 0 := fun hv => by simp [(header_value h).mp hv] at hl
    simp [hv, PallocNode.setLink, (link_eq_some.mp hl).2]

section Updates

variable (s : Palloc) (pfn : ℕ) (f : PallocNode → PallocNode) (r r' : RegionId) (k k' : ℕ)

theorem setNode_link : (fun p => ((s.setNode pfn f).nodes p).link) =
    Function.update (fun p => (s.nodes p).link) pfn (f (s.nodes pfn)).link := by
  funext p
  by_cases hp : p = pfn
  · subst hp
    simp [setNode]
  · simp [setNode, hp]

@[simp] theorem setNode_self : (s.setNode pfn f).nodes pfn = f (s.nodes pfn) := by
  simp [setNode]

theorem setNode_of_ne {p : ℕ} (h : p ≠ pfn) : (s.setNode pfn f).nodes p = s.nodes p := by
  simp [setNode, h]

@[simp] theorem setHeader_self : (s.setHeader r k f).header r k = f (s.header r k) := by
  simp [setHeader, setRegion, header]

theorem setHeader_of_ne (h : r' ≠ r ∨ k' ≠ k) :
    (s.setHeader r k f).header r' k' = s.header r' k' := by
  by_cases hr : r' = r
  · subst hr
    have hk : k' ≠ k := by simpa using h
    simp [setHeader, setRegion, header, hk]
  · simp [setHeader, setRegion, header, hr]

@[simp] theorem setAvailPages_header (g : ℕ → ℕ) :
    (s.setAvailPages r g).header r' k = s.header r' k := by
  by_cases hr : r' = r
  · subst hr
    simp [header, setAvailPages, setRegion]
  · simp [header, setAvailPages, setRegion, hr]

@[simp] theorem setAvailPages_self (g : ℕ → ℕ) :
    ((s.setAvailPages r g).regions r).availPages = g (s.regions r).availPages := by
  simp [setAvailPages, setRegion]

theorem setAvailPages_of_ne (g : ℕ → ℕ) (h : r' ≠ r) :
    (s.setAvailPages r g).regions r' = s.regions r' := by
  simp [setAvailPages, setRegion, h]

def Palloc.counts : (RegionId → ℕ × ℕ × ℕ) × ℕ × ℕ :=
  (fun r => ((s.regions r).tags, (s.regions r).totalPages, (s.regions r).availPages),
    s.numPagesTotal, s.numPagesAlloc)

@[simp] theorem setNode_counts : (s.setNode pfn f).counts = s.counts := rfl

@[simp] theorem setHeader_counts : (s.setHeader r k f).counts = s.counts := by
  simp only [Palloc.counts, Palloc.setHeader, Palloc.setRegion, Prod.mk.injEq, and_true]
  funext r'
  by_cases hr : r' = r
  · subst hr
    simp
  · simp [hr]

end Updates

structure SameInfo (s s' : Palloc) : Prop where
  info : ∀ p, (s'.nodes p).info = (s.nodes p).info
  counts : s'.counts = s.counts

theorem SameInfo.trans {s s' s'' : Palloc} (h : SameInfo s s') (h' : SameInfo s' s'') :
    SameInfo s s'' :=
  ⟨fun p => (h'.info p).trans (h.info p), h'.counts.trans h.counts⟩

theorem sameInfo_setLink (s : Palloc) (p : ℕ) (o : Option ℕ) :
    SameInfo s (s.setNode p fun n => n.setLink o) := by
  refine ⟨fun q => ?_, rfl⟩
  by_cases hq : q = p
  · subst hq
    rw [setNode_self, setLink_info]
  · rw [setNode_of_ne s p _ hq]

theorem sameInfo_setHeader (s : Palloc) (r : RegionId) (k : ℕ) (f : PallocNode → PallocNode) :
    SameInfo s (s.setHeader r k f) :=
  ⟨fun _ => rfl, setHeader_counts s f r k⟩

structure BuddyInv (c : PallocConfig) (lo hi : RegionId → ℕ) (s : Palloc)
    (fr : RegionId → ℕ → List ℕ) (hand live : List (DyBlock RegionId)) : Prop where
  tiled : Tiled pallocOrderCount lo hi fr (hand ++ live)
  range : ∀ r x, lo r ≤ x ∧ x < hi r → c.pfnStart ≤ x ∧ x < c.pfnLimit
  chain : ∀ r k, Chain (fun p => (s.nodes p).link) (s.header r k).link (fr r k)
  clean : ∀ p, (s.nodes p).Clean
  header : ∀ r k, s.header r k = PallocNode.zero.setLink (s.header r k).link
  freeNode : ∀ r k, ∀ p ∈ fr r k, (s.nodes p).info = (k, r, false, true)
  liveNode : ∀ b ∈ live, (s.nodes b.start).info = (b.order, b.region, true, true)
  availNode : ∀ p, (s.nodes p).avail = true → lo (s.nodes p).region ≤ p ∧ p < hi (s.nodes p).region

variable {c : PallocConfig} {lo hi : RegionId → ℕ} {s s' : Palloc} {fr : RegionId → ℕ → List ℕ}
  {hand live : List (DyBlock RegionId)} {r : RegionId} {k p : ℕ} {b : DyBlock RegionId}

theorem BuddyInv.free_range (h : BuddyInv c lo hi s fr hand live) (hp : p ∈ fr r k) :
    c.pfnStart ≤ p ∧ p < c.pfnLimit :=
  h.range r p (h.tiled.free_inside hp ⟨le_rfl, Nat.lt_add_of_pos_right (Nat.two_pow_pos k)⟩)

theorem BuddyInv.hand_range (h : BuddyInv c lo hi s fr hand live) (hb : b ∈ hand) {x : ℕ}
    (hx : b.start ≤ x ∧ x < b.fin) : c.pfnStart ≤ x ∧ x < c.pfnLimit :=
  h.range b.region x (h.tiled.held_inside (mem_append_left _ hb) hx)

theorem getNodeByPfn_of_range (s : Palloc) (h : c.pfnStart ≤ p ∧ p < c.pfnLimit) :
    getNodeByPfn c s p = some (s.nodes p) := by
  rw [getNodeByPfn, if_neg (by omega)]

theorem next_of_range (h : c.pfnStart ≤ p ∧ p < c.pfnLimit) : p % 2 ^ nextBits = p :=
  Nat.mod_eq_of_lt (h.2.trans_le c.limit_le)

variable {hand' : List (DyBlock RegionId)} {f : PallocNode → PallocNode}

section

variable (h : BuddyInv c lo hi s fr hand live)
include h

/-- A list has at most as many entries as there are nodes. -/
theorem BuddyInv.free_length (r : RegionId) (k : ℕ) :
    (fr r k).length ≤ c.pfnLimit - c.pfnStart := by
  rw [← toFinset_card_of_nodup (h.tiled.free_nodup r k), ← Nat.card_Ico]
  refine Finset.card_le_card fun p hp => ?_
  rw [Finset.mem_Ico]
  exact h.free_range (mem_toFinset.mp hp)

theorem BuddyInv.buddyList_eq (r : RegionId) (k : ℕ) : buddyList c s r k = fr r k :=
  walk_of_chain (h.chain r k) (h.free_length r k)

/-- Only the tiling speaks of the blocks in hand. -/
theorem BuddyInv.of_tiled (ht : Tiled pallocOrderCount lo hi fr (hand' ++ live)) :
    BuddyInv c lo hi s fr hand' live :=
  ⟨ht, h.range, h.chain, h.clean, h.header, h.freeNode, h.liveNode, h.availNode⟩

/-- Rewriting a node inside a block in hand. -/
theorem BuddyInv.setNode (hb : b ∈ hand) {x : ℕ} (hx : b.start ≤ x ∧ x < b.fin)
    (hclean : (f (s.nodes x)).Clean) (hregion : (f (s.nodes x)).region = b.region) :
    BuddyInv c lo hi (s.setNode x f) fr hand live := by
  have hfree : ∀ r k, x ∉ fr r k := fun r k => h.tiled.held_not_free (mem_append_left _ hb) hx
  refine ⟨h.tiled, h.range, fun r k => ?_, fun p => ?_, h.header, fun r k p hp => ?_,
    fun d hd => ?_, fun p hp => ?_⟩
  · rw [setNode_link]
    exact (h.chain r k).update (hfree r k)
  · by_cases hpx : p = x
    · rwa [hpx, setNode_self]
    · rw [setNode_of_ne s x f hpx]
      exact h.clean p
  · rw [setNode_of_ne s x f fun hpx => hfree r k (hpx ▸ hp)]
    exact h.freeNode r k p hp
  · rw [setNode_of_ne s x f fun hdx => h.tiled.held_apart hb hd hx (hdx ▸ d.start_mem)]
    exact h.liveNode d hd
  · by_cases hpx : p = x
    · subst hpx
      rw [setNode_self, hregion]
      exact h.tiled.held_inside (mem_append_left _ hb) hx
    · rw [setNode_of_ne s x f hpx] at hp ⊢
      exact h.availNode p hp

end

variable {l : List ℕ}

section

variable (h : BuddyInv c lo hi s fr hand live)
include h

/-- The state after the head of list `(r, k)` was replaced. -/
theorem BuddyInv.setHeader {o : Option ℕ} (hc : Chain (fun p => (s.nodes p).link) o l)
    (ht : Tiled pallocOrderCount lo hi (setList fr r k l) (hand' ++ live))
    (hl : ∀ p ∈ l, (s.nodes p).info = (k, r, false, true)) :
    BuddyInv c lo hi (s.setHeader r k fun n => n.setLink o) (setList fr r k l) hand' live := by
  refine ⟨ht, h.range, fun r' k' => ?_, h.clean, fun r' k' => ?_, fun r' k' p hp => ?_, h.liveNode,
    h.availNode⟩
  · by_cases he : r' = r ∧ k' = k
    · obtain ⟨rfl, rfl⟩ := he
      rw [setHeader_self, setLink_link, setList_self]
      exact hc
    · have hne : r' ≠ r ∨ k' ≠ k := by tauto
      rw [setHeader_of_ne _ _ _ _ _ _ hne, setList_of_ne _ hne]
      exact h.chain r' k'
  · by_cases he : r' = r ∧ k' = k
    · obtain ⟨rfl, rfl⟩ := he
      rw [setHeader_self, h.header]
      cases o <;> rfl
    · have hne : r' ≠ r ∨ k' ≠ k := by tauto
      rw [setHeader_of_ne _ _ _ _ _ _ hne]
      exact h.header r' k'
  · by_cases he : r' = r ∧ k' = k
    · obtain ⟨rfl, rfl⟩ := he
      rw [setList_self] at hp
      exact hl p hp
    · have hne : r' ≠ r ∨ k' ≠ k := by tauto
      rw [setList_of_ne _ hne] at hp
      exact h.freeNode r' k' p hp

/-- The header's link when the list is `p :: l`. -/
theorem BuddyInv.header_cons (hl : fr r k = p :: l) :
    (s.header r k).hasNext = true ∧ (s.header r k).next = p ∧ Chain (fun p => (s.nodes p).link)
    (s.nodes p).link l := by
  have hc := h.chain r k
  rw [hl] at hc
  obtain ⟨hhead, hc⟩ := hc
  obtain ⟨h1, h2⟩ := link_eq_some.mp hhead
  exact ⟨h1, h2, hc⟩

theorem BuddyInv.header_nil : (s.header r k).hasNext = false ↔ fr r k = [] := by
  rw [(h.chain r k).eq_nil_iff, link_eq_none]

theorem BuddyInv.takeHead (hl : fr r k = p :: l) :
    BuddyInv c lo hi (s.setHeader r k fun n => n.setLink (s.nodes p).link) (setList fr r k l)
      (⟨p, k, r⟩ :: hand) live := by
  have ht : Tiled pallocOrderCount lo hi (setList fr r k l) ((⟨p, k, r⟩ :: hand) ++ live) :=
    h.tiled.take (show fr r k = [] ++ p :: l from hl)
  refine h.setHeader (h.header_cons hl).2.2 ht fun q hq => ?_
  exact h.freeNode r k q (by rw [hl]; simp [hq])

theorem takeFirst_spec (hl : fr r k = p :: l) :
    ∃ s', takeFirst c s r k = some (s', p) ∧ SameInfo s s' ∧
      BuddyInv c lo hi s' (setList fr r k l) (⟨p, k, r⟩ :: hand) live := by
  have hrange := h.free_range (show p ∈ fr r k by rw [hl]; simp)
  refine ⟨s.setHeader r k fun n => n.setLink (s.nodes p).link, ?_, sameInfo_setHeader s r k _,
    h.takeHead hl⟩
  simp only [takeFirst, (h.header_cons hl).2.1, getNodeByPfn_of_range s hrange, bind_eq_bind,
    bind_some, setLink_of_clean (h.clean p)]

end

theorem BuddyInv.push (h : BuddyInv c lo hi s fr (⟨p, k, r⟩ :: hand) live)
    (hlink : f (s.nodes p) = (f (s.nodes p)).setLink (s.header r k).link)
    (hinfo : (f (s.nodes p)).info = (k, r, false, true)) :
    BuddyInv c lo hi ((s.setNode p f).setHeader r k fun n => n.setLink (some p))
      (setList fr r k (p :: fr r k)) hand live := by
  have hmem : ⟨p, k, r⟩ ∈ (⟨p, k, r⟩ :: hand) := by simp
  have hregion : (f (s.nodes p)).region = r := congrArg (fun i => i.2.1) hinfo
  have hfree : p ∉ fr r k := h.tiled.held_not_free (mem_append_left _ hmem) (DyBlock.start_mem _)
  have hset := h.setNode hmem (DyBlock.start_mem _) (hlink ▸ setLink_clean _ _) hregion
  refine hset.setHeader ?_ h.tiled.give fun q hq => ?_
  · rw [setNode_link, hlink, setLink_link]
    exact (h.chain r k).push hfree
  · rcases mem_cons.mp hq with rfl | hq
    · rw [setNode_self]
      exact hinfo
    · exact hset.freeNode r k q hq

theorem insertNode_spec (h : BuddyInv c lo hi s fr (⟨p, k, r⟩ :: hand) live)
    (hinfo : (s.nodes p).info = (k, r, false, true)) :
    ∃ s', insertNode c s p r k = some s' ∧ SameInfo s s' ∧
      BuddyInv c lo hi s' (setList fr r k (p :: fr r k)) hand live := by
  have hrange := h.hand_range (mem_cons_self) (DyBlock.start_mem ⟨p, k, r⟩)
  have hclean : (s.header r k).Clean := h.header r k ▸ setLink_clean _ _
  refine ⟨(s.setNode p fun n => n.setLink (s.header r k).link).setHeader r k fun n =>
    n.setLink (some p), ?_,
    (sameInfo_setLink s p _).trans (sameInfo_setHeader _ r k _), ?_⟩
  · simp only [insertNode, getNodeByPfn_of_range s hrange,
      next_of_range hrange, setLink_of_clean hclean]
    rfl
  · exact h.push rfl (by rw [setLink_info, hinfo])

/-- The loop of `remove_node` from the cell before `rest` unlinks `p`. -/
theorem removeLoop_eq (hclean : ∀ q, (s.nodes q).Clean) (rest : List ℕ) :
    ∀ (a fuel : ℕ), Chain (fun q => (s.nodes q).link) (s.nodes a).link rest → p ∈ rest →
      rest.length ≤ fuel → (∀ q ∈ rest, c.pfnStart ≤ q ∧ q < c.pfnLimit) →
      ∃ pre d post, a :: rest = pre ++ d :: p :: post ∧ removeLoop c p fuel s a =
        some ((s.setNode d fun n => n.setLink (s.nodes p).link).setNode p fun n => n.setLink none) := by
  induction rest with
  | nil => intro a fuel _ hp; simp at hp
  | cons q rest ih =>
    rintro a (_ | fuel) ⟨hq, hc⟩ hp hlen hrange
    · simp at hlen
    obtain ⟨-, hnext⟩ := link_eq_some.mp hq
    simp only [removeLoop, hnext, getNodeByPfn_of_range s (hrange q (by simp)), bind_eq_bind, bind_some]
    by_cases hqp : q = p
    · subst hqp
      refine ⟨[], a, rest, rfl, ?_⟩
      simp only [setLink_of_clean (hclean q)]
      rfl
    · have hp' : p ∈ rest := (mem_cons.mp hp).resolve_left (Ne.symm hqp)
      have hmore : (s.nodes q).hasNext = true := by
        by_contra hno
        have hnil := hc.eq_nil_iff.mpr (link_eq_none.mpr (by simpa using hno))
        simp [hnil] at hp'
      obtain ⟨pre, d, post, hl, hout⟩ := ih q fuel hc hp' (by simpa using hlen) fun x hx =>
        hrange x (by simp [hx])
      refine ⟨a :: pre, d, post, by rw [hl]; rfl, ?_⟩
      rw [if_neg hqp, if_pos hmore, hout]

/-- The node after `d` is taken in hand. -/
theorem BuddyInv.unlink (h : BuddyInv c lo hi s fr hand live) {pre post : List ℕ} {d : ℕ}
    (hl : fr r k = pre ++ d :: p :: post) :
    BuddyInv c lo hi (s.setNode d fun n => n.setLink (s.nodes p).link)
      (setList fr r k (pre ++ d :: post)) (⟨p, k, r⟩ :: hand) live := by
  have hd : d ∈ fr r k := by rw [hl]; simp
  have hinfo := (sameInfo_setLink s d (s.nodes p).link).info
  have ht : Tiled pallocOrderCount lo hi (setList fr r k (pre ++ d :: post)) ((⟨p, k, r⟩ :: hand) ++
      live) := by
    have := h.tiled.take (show fr r k = (pre ++ [d]) ++ p :: post by rw [hl]; simp)
    rwa [append_assoc] at this
  have hsub : ∀ r' k', ∀ q ∈ setList fr r k (pre ++ d :: post) r' k', q ∈ fr r' k' := by
    intro r' k' q hq
    by_cases he : r' = r ∧ k' = k
    · obtain ⟨rfl, rfl⟩ := he
      rw [setList_self] at hq
      rw [hl]
      simp only [mem_append, mem_cons] at hq ⊢
      tauto
    · rwa [setList_of_ne _ (by tauto)] at hq
  refine ⟨ht, h.range, fun r' k' => ?_, fun q => ?_, h.header, fun r' k' q hq => ?_, fun b hb => ?_,
    fun q hq => ?_⟩
  · rw [setNode_link, setLink_link]
    by_cases he : r' = r ∧ k' = k
    · obtain ⟨rfl, rfl⟩ := he
      rw [setList_self]
      exact Chain.unlink (hl ▸ h.tiled.free_nodup r' k') (hl ▸ h.chain r' k')
    · rw [setList_of_ne _ (by tauto)]
      refine (h.chain r' k').update fun hd' => he ?_
      obtain ⟨h1, h2⟩ := h.tiled.free_unique hd' hd
      exact ⟨h1, h2⟩
  · by_cases hqd : q = d
    · rw [hqd, setNode_self]
      exact setLink_clean _ _
    · rw [setNode_of_ne s d _ hqd]
      exact h.clean q
  · rw [hinfo]
    exact h.freeNode r' k' q (hsub r' k' q hq)
  · rw [hinfo]
    exact h.liveNode b hb
  · have hq' := hinfo q
    simp only [PallocNode.info, Prod.mk.injEq] at hq'
    rw [hq'.2.1]
    exact h.availNode q (hq'.2.2.2 ▸ hq)

theorem removeNode_spec (h : BuddyInv c lo hi s fr hand live) (hp : p ∈ fr r k) :
    ∃ s' pre post, removeNode c s p r k = some s' ∧ SameInfo s s' ∧ fr r k = pre ++ p :: post ∧
      BuddyInv c lo hi s' (setList fr r k (pre ++ post)) (⟨p, k, r⟩ :: hand) live := by
  have hregion : (s.nodes p).region = r := congrArg (fun i => i.2.1) (h.freeNode r k p hp)
  cases hl : fr r k with
  | nil => simp [hl] at hp
  | cons a rest =>
    obtain ⟨-, hnext, hc⟩ := h.header_cons hl
    have hrange := h.free_range (show a ∈ fr r k by rw [hl]; simp)
    simp only [removeNode, hnext, getNodeByPfn_of_range s hrange, bind_eq_bind, bind_some]
    by_cases hap : a = p
    · -- the first node: the header moves on
      subst hap
      refine ⟨(s.setHeader r k fun n => n.setLink (s.nodes a).link).setNode a fun n => n.setLink none, [],
        rest, ?_, (sameInfo_setHeader s r k _).trans (sameInfo_setLink _ a none), rfl, ?_⟩
      · simp only [setLink_of_clean (h.clean a)]
        rfl
      · exact (h.takeHead hl).setNode mem_cons_self (DyBlock.start_mem ⟨a, k,
          r⟩) (setLink_clean _ _) hregion
    · have hp' : p ∈ rest := by
        rw [hl] at hp
        exact (mem_cons.mp hp).resolve_left (Ne.symm hap)
      have hmore : (s.nodes a).hasNext = true := by
        by_contra hno
        have hnil := hc.eq_nil_iff.mpr (link_eq_none.mpr (by simpa using hno))
        simp [hnil] at hp'
      have hlen := h.free_length r k
      rw [hl] at hlen
      obtain ⟨pre, d, post, hsplit, hout⟩ := removeLoop_eq h.clean rest a (c.pfnLimit - c.pfnStart) hc hp'
        (by simp at hlen; omega) fun q hq => h.free_range (show q ∈ fr r k by rw [hl]; simp [hq])
      have hfr : fr r k = pre ++ d :: p :: post := hl.trans hsplit
      have hdp : p ≠ d := by
        intro hdp
        have hnd := hfr ▸ h.tiled.free_nodup r k
        have htail := (nodup_append.mp hnd).2.1
        exact (nodup_cons.mp htail).1 (by simp [hdp])
      refine ⟨_, pre ++ [d], post, ?_,
        (sameInfo_setLink s d (s.nodes p).link).trans (sameInfo_setLink _ p none), ?_, ?_⟩
      · rw [if_neg hap, if_pos hmore]
        exact hout
      · rw [hsplit]
        simp
      · rw [append_assoc]
        refine (h.unlink hfr).setNode mem_cons_self (DyBlock.start_mem ⟨p, k, r⟩) (setLink_clean _ _) ?_
        rw [setNode_of_ne s d _ hdp]
        exact hregion

end Toddler
