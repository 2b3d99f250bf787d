import Toddler.Spec.IpcPorts
import Mathlib.Tactic

/-! The port table gives the latest handler of every port when the memory of the heap is zero. The
words of the block beyond the table are followed as well, since the table may grow in place. -/

namespace Toddler

open Function Malloc

namespace PortTable

variable {s : PortTable} {count : ℕ}

/-- The table is in a block that has room for it, and all words agree with the latest
registrations. -/
structure Current (s : PortTable) (table : ℕ → ℕ) : Prop where
  handlers : s.handlers = some table
  room : 8 * s.numHandlers + sizeofMagic ≤ blockSize s.bucket
  words : ∀ i, i ≠ globalMsgPort → table i = s.latest i
  beyond : ∀ i, i ≠ globalMsgPort → s.numHandlers ≤ i → s.latest i = 0

structure Sound (s : PortTable) : Prop where
  empty : s.numHandlers = 0 → s.handlers = none ∧ ∀ i, s.latest i = 0
  current : s.numHandlers ≠ 0 → ∃ table, s.Current table
  globalHandler : s.globalHandler = s.latest globalMsgPort

theorem exists_bucket (h : count ≤ globalMsgPort + 1) :
    ∃ i, findBucket (8 * count + sizeofMagic) = some i ∧ 8 * count + sizeofMagic ≤ blockSize i := by
  have hlast : 8 * count + sizeofMagic ≤ maxBlockSize := by
    simp only [globalMsgPort, sizeofMagic, maxBlockSize, chunkSize, sizeofChunk] at *
    omega
  cases hi : findBucket (8 * count + sizeofMagic) with
  | none =>
    have := List.findIdx?_eq_none_iff.mp hi (maxBlockSize, 1) (by simp [buckets])
    simp [hlast] at this
  | some i =>
    obtain ⟨hlt, hle, -⟩ := List.findIdx?_eq_some_iff_getElem.mp hi
    refine ⟨i, rfl, ?_⟩
    rw [blockSize, List.getD_eq_getElem?_getD, List.getElem?_eq_getElem hlt]
    simpa using hle

/-- A fresh table of zeros, or one with the copied words. -/
theorem Current.malloc {words : ℕ → ℕ} (h : count ≤ globalMsgPort + 1)
    (hwords : ∀ i, i ≠ globalMsgPort → words i = s.latest i)
    (hbeyond : ∀ i, i ≠ globalMsgPort → count ≤ i → s.latest i = 0) :
    Current { s.mallocTable count (some words) with numHandlers := count } words := by
  obtain ⟨i, hi, hroom⟩ := exists_bucket h
  simp only [mallocTable, hi]
  exact ⟨rfl, hroom, hwords, hbeyond⟩

variable {table : ℕ → ℕ}

theorem Current.grow (hc : s.Current table) (hle : s.numHandlers ≤ count)
    (h : count ≤ globalMsgPort + 1) :
    ∃ table', (s.initHandlers count (some fun _ => 0)).Current table' := by
  have hbeyond : ∀ i, i ≠ globalMsgPort → count ≤ i → s.latest i = 0 := fun i hi hlt =>
    hc.beyond i hi (hle.trans hlt)
  simp only [initHandlers, hc.handlers, reallocTable]
  split_ifs with hstay
  · refine ⟨table, hc.handlers, ?_, hc.words, hbeyond⟩
    have hword : 8 * count + sizeofMagic < word := by
      simp only [globalMsgPort, sizeofMagic, word] at *
      omega
    exact add64_of_lt hword ▸ hstay.1
  · refine ⟨_, Current.malloc h (fun i hi => ?_) hbeyond⟩
    simp only
    split_ifs with hcopied
    · exact hc.words i hi
    · -- a word that is not copied was not registered
      have hroom := hc.room
      refine (hc.beyond i hi ?_).symm
      simp only [copiedWords] at hcopied hroom
      omega

theorem Sound.init : Sound PortTable.init :=
  ⟨fun _ => ⟨rfl, fun _ => rfl⟩, fun h => absurd rfl h, rfl⟩

theorem initHandlers_frame (payload : Option (ℕ → ℕ)) :
    (s.initHandlers count payload).latest = s.latest ∧
    (s.initHandlers count payload).globalHandler = s.globalHandler := by
  have hmalloc : ∀ payload : Option (ℕ → ℕ), (s.mallocTable count payload).latest = s.latest ∧
      (s.mallocTable count payload).globalHandler = s.globalHandler := by
    intro payload
    unfold mallocTable
    split <;> exact ⟨rfl, rfl⟩
  unfold initHandlers
  split
  · unfold reallocTable
    split_ifs
    · exact ⟨rfl, rfl⟩
    · exact hmalloc _
  · exact hmalloc _

/-- The table that `update_handler` works on. -/
theorem Sound.opened (hs : s.Sound) {u : PortTable}
    (hu : (if s.numHandlers = 0 then s.initHandlers defaultNumHandlers (some fun _ => 0)
    else s) = u) :
    u.numHandlers ≠ 0 ∧ u.globalHandler = u.latest globalMsgPort ∧ ∃ table, u.Current table := by
  subst hu
  split_ifs with h0
  · obtain ⟨hlatest, hglobal⟩ := @initHandlers_frame s defaultNumHandlers (some fun _ => 0)
    refine ⟨show defaultNumHandlers ≠ 0 by decide, by rw [hlatest, hglobal, hs.globalHandler], ?_⟩
    obtain ⟨hnone, hzero⟩ := hs.empty h0
    simp only [initHandlers, hnone]
    exact ⟨_, Current.malloc (by decide) (fun i _ => (hzero i).symm) fun i _ _ => hzero i⟩
  · exact ⟨h0, hs.globalHandler, hs.current h0⟩

/-- A registration at a table that covers the port. -/
theorem Current.register {port : ℕ} (hc : s.Current table) (hport : port < s.numHandlers)
    (hglobal : s.globalHandler = s.latest globalMsgPort) (hne : port ≠ globalMsgPort)
    (handler : ℕ) :
    Sound { s with
      handlers := some (update table port handler)
      latest := update s.latest port handler } := by
  refine ⟨fun h0 => absurd h0 (Nat.ne_zero_of_lt hport), fun _ => ⟨_, rfl, hc.room, fun i hi => ?_,
    fun i hi hle => ?_⟩, ?_⟩
  · by_cases hip : i = port
    · simp [hip]
    · simpa [hip] using hc.words i hi
  · have hip : i ≠ port := fun h => absurd hle (by rw [h]; exact Nat.not_le.mpr hport)
    simpa [hip] using hc.beyond i hi hle
  · simpa [hne.symm] using hglobal

theorem Current.registerGlobal (hc : s.Current table) (h0 : s.numHandlers ≠ 0) (handler : ℕ) :
    Sound { s with globalHandler := handler, latest := update s.latest globalMsgPort handler } := by
  refine ⟨fun h => absurd h h0, fun _ => ⟨table, hc.handlers, hc.room, fun i hi => ?_,
    fun i hi hle => ?_⟩, by simp⟩
  · simpa [hi] using hc.words i hi
  · simpa [hi] using hc.beyond i hi hle

theorem Sound.step {a : PortCall} (hs : s.Sound) (ha : ZeroHeap s a) :
    ∃ t, portStep s a = some t ∧ t.Sound := by
  obtain ⟨port, handler, first, grown⟩ := a
  obtain ⟨rfl, rfl⟩ : first = some (fun _ => 0) ∧ grown = some (fun _ => 0) := ha
  by_cases hbig : globalMsgPort < port
  · exact ⟨s, by simp [portStep, hbig], hs⟩
  simp only [portStep, if_neg hbig, updateHandler]
  generalize hu : (if s.numHandlers = 0 then s.initHandlers defaultNumHandlers (some fun _ => 0)
    else s) = u
  obtain ⟨h0, hglobal, table, hc⟩ := hs.opened hu
  by_cases hport : port = globalMsgPort
  · subst hport
    exact ⟨_, by rw [if_pos rfl, Option.map_some], hc.registerGlobal h0 handler⟩
  rw [if_neg hport]
  by_cases hle : u.numHandlers ≤ port
  · obtain ⟨table', hc'⟩ := hc.grow (show u.numHandlers ≤ port + 1 by omega) (by omega)
    obtain ⟨hlatest, hglobal'⟩ := @initHandlers_frame u (port + 1) (some fun _ => 0)
    rw [if_pos hle, hc'.handlers]
    exact ⟨_, rfl, hc'.register (Nat.lt_succ_self port) (by rw [hlatest, hglobal', hglobal]) hport
      handler⟩
  · rw [if_neg hle, hc.handlers]
    exact ⟨_, rfl, hc.register (by omega) hglobal hport handler⟩

theorem Sound.findHandler (hs : s.Sound) (port : ℕ) :
    s.findHandler port = some (s.latest port) := by
  unfold PortTable.findHandler
  split_ifs with h0 hport hlt
  · rw [(hs.empty h0).2]
  · rw [hs.globalHandler, hport]
  · obtain ⟨table, hc⟩ := hs.current h0
    simp [hc.handlers, hc.words port hport]
  · obtain ⟨table, hc⟩ := hs.current h0
    rw [hc.beyond port hport (by omega)]

end PortTable

/-- On a heap of zeros every call returns, and each port has its latest handler. -/
theorem port_table_latest (s : PortTable) (hrun : Reach portStep ZeroHeap PortTable.init s) :
    (∀ port ≤ globalMsgPort, s.findHandler port = some (s.latest port)) ∧ ∀ a, ZeroHeap s a →
    ∃ t, portStep s a = some t := by
  have hs : s.Sound := hrun.invariant PortTable.Sound.init fun u a v hu ha hstep => by
    obtain ⟨t, ht, hsound⟩ := hu.step ha
    obtain rfl : t = v := Option.some.inj (ht.symm.trans hstep)
    exact hsound
  exact ⟨fun port _ => hs.findHandler port, fun a ha => (hs.step ha).imp fun _ h => h.1⟩

/-- Port 1000 is registered, for which the table grows. -/
theorem port_table_latest_grown : ∃ s, Reach portStep ZeroHeap PortTable.init s ∧
    s.findHandler 1000 = some 42 := by
  have hstep : ∃ t, portStep PortTable.init ⟨1000, 42, some fun _ => 0, some fun _ => 0⟩ = some t :=
    (port_table_latest _ (Reach.refl _)).2 _ ⟨rfl, rfl⟩
  obtain ⟨t, ht⟩ := hstep
  have hreach : Reach portStep ZeroHeap PortTable.init t := (Reach.refl _).tail ⟨_, ⟨rfl, rfl⟩, ht⟩
  refine ⟨t, hreach, ?_⟩
  rw [(port_table_latest t hreach).1 1000 (by decide)]
  rw [portStep, if_neg (by decide)] at ht
  obtain ⟨u, -, rfl⟩ := Option.map_eq_some_iff.mp ht
  simp

/-- The heap holds 5 everywhere: port 1, for which nothing was registered, has the handler 5. -/
theorem port_table_not_cleared : ¬ ∀ s :
    PortTable, Reach portStep anyStep PortTable.init s → ∀ port ≤ globalMsgPort,
      s.findHandler port = some (s.latest port) := by
  intro h
  have hstep : portStep PortTable.init ⟨0, 42, some fun _ => 5, none⟩ =
      some ⟨256, some (update (fun _ => 5) 0 42), 7, 0, update (fun _ => 0) 0 42⟩ := by
    have hbucket : findBucket (8 * 256 + sizeofMagic) = some 7 := by decide
    simp [portStep, PortTable.updateHandler, PortTable.init, PortTable.initHandlers,
      PortTable.mallocTable, defaultNumHandlers, globalMsgPort, hbucket]
  have := h _ ((Reach.refl _).tail ⟨_, trivial, hstep⟩) 1 (by decide)
  simp [PortTable.findHandler, globalMsgPort] at this

end Toddler
