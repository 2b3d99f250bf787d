import Toddler.Lib.Chain
import Toddler.Proofs.FileRead

/-! Reading a directory of the pseudo file system to its end. A message carries some of the entries
that are left, at least one, and the next request starts after the last of them. -/

namespace Toddler

open List Option Nat Slots Message ByteMem

variable {A : Arch} {ipc : PseudoFs → ℕ → ℕ → Slots → Option (PseudoFs × Slots)}
  {pad : ℕ → List UInt8}
  {task : Option (FdTable OpenEntry)} {fs : PseudoFs} {fd : ℤ} {dir c : ℕ}
  {children rest cs : List ℕ} {m : ByteMem}

def PseudoFs.dirent (fs : PseudoFs) (c : ℕ) : Dirent := ⟨fs.id c, (fs.type c).code, fs.name c⟩

/-- The nodes `children` are those of the directory, in the order of the list. Ids are as
`pseudo_fs_alloc_id` gives them. -/
structure DirOk (A : Arch) (fs : PseudoFs) (dir : ℕ) (children : List ℕ) : Prop where
  chain : Chain fs.siblingNext (fs.child dir) children
  find : ∀ c ∈ children, fs.nodeFind (fs.id c) = some c
  id : ∀ c ∈ children, fs.id c ≠ 0 ∧ fs.id c < A.ulong
  name : ∀ c ∈ children, 0 ∉ fs.name c ∧ (fs.name c).length ≤ 255

/-- The descriptor `fd` is open on a directory of the pseudo file system. -/
structure OpenDir (A : Arch) (pad : ℕ → List UInt8)
    (ipc : PseudoFs → ℕ → ℕ → Slots → Option (PseudoFs × Slots))
    (task : Option (FdTable OpenEntry)) (fs : PseudoFs) (fd : ℤ) (dir : ℕ) : Prop where
  int : 0 ≤ fd ∧ fd < 2 ^ 31
  opened : ∃ vnode vent, taskLookupFd task fd = some (some vent) ∧ vent.vnode = some vnode ∧
    ignoreOpIpc vnode.mount .dirRead = false ∧
    (∀ msg, ipc fs vnode.mount.pid vnode.mount.opcode msg = fsDispatch A pad (PseudoFs.ops A) fs msg) ∧
    fs.nodeFind vnode.fsId = some dir ∧ fs.type dir = .dir
  pad : ∀ i, (pad i).length = A.bytes - 4

def dentSize (A : Arch) (fs : PseudoFs) (c : ℕ) : ℕ := sizeofSysDirEnt A + (fs.name c).length + 1

def dentWords (A : Arch) (fs : PseudoFs) (c : ℕ) : ℕ :=
  alignUpVsize A (dentSize A fs c) A.bytes / A.bytes

/-- The bytes of the entry of a node, which says that it takes `size` bytes. -/
def dentBytes (A : Arch) (fs : PseudoFs) (p : List UInt8) (size c : ℕ) : List UInt8 :=
  encodeDent A p size (fs.type c).code (fs.id c) (fs.name c)

theorem length_dentBytes (fs : PseudoFs) {p : List UInt8} (hp : p.length = A.bytes - 4)
    (size c : ℕ) : (dentBytes A fs p size c).length = dentSize A fs c := by
  simp only [dentBytes, encodeDent, encodeShort, dentSize, sizeofSysDirEnt, length_append,
    length_encodeWord, hp, length_singleton]
  rcases A.bytes_cases with h | h <;> omega

theorem dentWords_bounds (hname : (fs.name c).length ≤ 255) :
    dentSize A fs c ≤ dentWords A fs c * A.bytes ∧ dentWords A fs c * A.bytes ≤ 288 ∧
      sizeofSysDirEnt A < dentWords A fs c * A.bytes ∧ dentSize A fs c ≤ 272 := by
  have hulong := A.le_ulong
  have hsize : dentSize A fs c ≤ 2 * A.bytes + 256 ∧ 2 * A.bytes < dentSize A fs c := by
    simp only [dentSize, sizeofSysDirEnt]
    omega
  have hbytes := A.bytes_cases
  have hwrap : dentSize A fs c + (A.bytes - 1) < A.ulong := by omega
  have hle := (alignUpVsize_spec hwrap).1
  have hdiv : dentWords A fs c = (dentSize A fs c + (A.bytes - 1)) / A.bytes :=
    alignUpVsize_div hwrap
  have hmul := div_mul_le_self (dentSize A fs c + (A.bytes - 1)) A.bytes
  rw [← hdiv] at hmul
  simp only [← dentWords.eq_def, sizeofSysDirEnt] at hle ⊢
  omega

/-- The entries of `cs` in a message, from the entry `i` on. -/
def dentSlots (A : Arch) (pad : ℕ → List UInt8) (fs : PseudoFs) : ℕ → List ℕ → Slots
  | _, [] => []
  | i, c :: cs => .block (dentBytes A fs (pad i) (dentSize A fs c) c) (dentWords A fs c) ::
      dentSlots A pad fs (i + 1) cs

def PseudoFs.dirResult (fs : PseudoFs) : List ℕ → DirRead
  | [] => ⟨0, none, 0, 0, []⟩
  | c :: _ => ⟨1, some c, fs.id c, (fs.type c).code, fs.name c⟩

theorem dirRead_eq {id lastId : ℕ} {ptr : Option ℕ} (hfind : fs.nodeFind id = some dir)
    (htype : fs.type dir = .dir) (hnext : fs.dirNext dir lastId ptr = rest.head?) :
    fs.dirRead id lastId ptr = fs.dirResult rest := by
  simp only [PseudoFs.dirRead, hfind, htype, if_true, hnext]
  cases rest <;> rfl

theorem Chain.head?_eq {link : ℕ → Option ℕ} {h : Option ℕ} {l : List ℕ} (hc : Chain link h l) :
    h = l.head? := by
  cases l with
  | nil => exact hc
  | cons a l => exact hc.1

/-- The loop of the server. The induction is on the nodes left; it stops when there is no more
room. -/
theorem dirReadLoop_spec {id : ℕ} (size : ℕ) (hpad : ∀ i, (pad i).length = A.bytes - 4)
    (hfind : fs.nodeFind id = some dir) (htype : fs.type dir = .dir) :
    ∀ (rest : List ℕ) {h : Option ℕ} (fuel copied num : ℕ) (msg : Slots), Chain fs.siblingNext h rest →
      (∀ c ∈ rest, (fs.name c).length ≤ 255) → msg.length ≤ maxMsgParams →
      maxMsgParams < fuel + msg.length → total msg ≤ A.maxMsgDataWords →
      ∃ k err, k ≤ rest.length ∧ 0 ≤ err ∧
        dirReadLoop A pad (fun fs id lastId ptr => some (fs, fs.dirRead id lastId ptr)) id size fuel fs
          (fs.dirResult rest) msg copied num =
          some (fs, err, msg ++ dentSlots A pad fs num (rest.take k), num + k) ∧
        total (msg ++ dentSlots A pad fs num (rest.take k)) ≤ A.maxMsgDataWords ∧
        (∀ c ∈ rest.head?, msg.length < maxMsgParams → copied + dentSize A fs c ≤ size →
          total msg + dentWords A fs c ≤ A.maxMsgDataWords → 0 < k) := by
  intro rest
  induction rest with
  | nil =>
    intro h fuel copied num msg _ _ hmax hfuel htotal
    obtain ⟨fuel, rfl⟩ := exists_eq_succ_of_ne_zero (show fuel ≠ 0 by omega)
    refine ⟨0, 0, le_rfl, le_rfl, ?_, by simpa [dentSlots] using htotal, by simp⟩
    simp [dirReadLoop, PseudoFs.dirResult, dentSlots]
  | cons c cs ih =>
    intro h fuel copied num msg hchain hnames hmax hfuel htotal
    obtain ⟨fuel, rfl⟩ := exists_eq_succ_of_ne_zero (show fuel ≠ 0 by omega)
    have hstop : dentSlots A pad fs num ((c :: cs).take 0) = [] := rfl
    have hdent : sizeofSysDirEnt A + (fs.name c).length + 1 = dentSize A fs c := rfl
    have hwords : alignUpVsize A (dentSize A fs c) A.bytes / A.bytes = dentWords A fs c := rfl
    obtain ⟨hroom, -, -, -⟩ := dentWords_bounds (A := A) (hnames c (by simp))
    have hlen := length_dentBytes (A := A) fs (hpad num) (dentSize A fs c) c
    rw [dirReadLoop]
    simp only [PseudoFs.dirResult, ne_eq, not_true_eq_false, if_false, hdent]
    by_cases hsize : size < copied + dentSize A fs c
    · refine ⟨0, 1, zero_le _, by decide, ?_, by rwa [hstop, append_nil], fun x hx _ hx' => ?_⟩
      · rw [if_pos hsize, hstop, append_nil, add_zero]
      · cases hx
        omega
    rw [if_neg hsize]
    by_cases hfits : maxMsgParams ≤ msg.length ∨ A.maxMsgDataWords < total msg + dentWords A fs c
    · have hnone : tryAppendData A msg (dentSize A fs c) = none := by
        simp only [tryAppendData, appendData, hwords]
        rcases hfits with hfull | hbig
        · rw [if_pos hfull]
        · rw [if_pos hbig, ite_self]
      refine ⟨0, 1, zero_le _, by decide, ?_, by rwa [hstop, append_nil], fun x hx _ _ _ => ?_⟩
      · simp only [hnone]
        rw [hstop, append_nil, add_zero]
      · cases hx
        omega
    rw [not_or, not_le, not_lt] at hfits
    have happend : tryAppendData A msg (dentSize A fs c) =
        some (msg ++ [.block [] (dentWords A fs c)]) := by
      simp [tryAppendData, appendData, hwords, if_neg (not_le.mpr hfits.1), if_neg (not_lt.mpr hfits.2)]
    have hfill : fill A (msg ++ [.block [] (dentWords A fs c)]) msg.length
        (dentBytes A fs (pad num) (dentSize A fs c) c) =
        some (msg ++ [.block (dentBytes A fs (pad num) (dentSize A fs c) c) (dentWords A fs c)]) := by
      rw [← hlen] at hroom
      simp [fill, hroom]
    obtain ⟨-, hcs⟩ := hchain
    have hresult : fs.dirRead id (fs.id c) (some c) = fs.dirResult cs :=
      dirRead_eq hfind htype hcs.head?_eq
    obtain ⟨k, err, hk, herr, hloop, htotal', -⟩ := ih fuel (copied + dentSize A fs c) (num + 1)
      (msg ++ [.block (dentBytes A fs (pad num) (dentSize A fs c) c) (dentWords A fs c)]) hcs
      (fun x hx => hnames x (by simp [hx])) (by rw [length_append, length_singleton]; omega)
      (by rw [length_append, length_singleton]; omega)
      (by rw [total_append]; exact hfits.2)
    rw [append_assoc] at hloop htotal'
    refine ⟨k + 1, err, by simpa using hk, herr, ?_, htotal', fun _ _ _ _ _ => succ_pos k⟩
    simp only [happend, ← dentBytes.eq_def, hfill, bind_eq_bind, bind_some, hresult]
    rw [hloop, add_assoc, add_comm 1 k]
    rfl

/-- The response of the file system: some of the entries left, if any. -/
theorem dispatch_dirRead {id size lastId : ℕ} {h : Option ℕ}
    (hpad : ∀ i, (pad i).length = A.bytes - 4)
    (hfind : fs.nodeFind id = some dir) (htype : fs.type dir =
    .dir) (hnext : fs.dirNext dir lastId none = rest.head?)
    (hchain : Chain fs.siblingNext h rest) (hnames : ∀ c ∈ rest, (fs.name c).length ≤ 255)
    (hsize : 272 ≤ size) :
    ∃ k ≤ rest.length, (rest ≠ [] → 0 < k) ∧ fsDispatch A pad (PseudoFs.ops A) fs
          [.scalar VfsOp.dirRead.code, .scalar id, .scalar size, .scalar lastId] =
        some (fs, .scalar 0 :: .scalar k :: dentSlots A pad fs 0 (rest.take k)) ∧
      total (.scalar 0 :: .scalar k :: dentSlots A pad fs 0 (rest.take k)) ≤ A.maxMsgDataWords := by
  have hwords : A.maxMsgDataWords * A.bytes = 2048 - 18 * A.bytes := by
    rcases A.bytes_cases with h | h <;> simp [Arch.maxMsgDataWords, h, maxMsgSize, maxMsgParams]
  have hbytes := A.bytes_cases
  obtain ⟨k, err, hk, herr, hloop, htotal, hpos⟩ :=
    dirReadLoop_spec (A := A) size hpad hfind htype rest
    (maxMsgParams + 1) 0 0 [.scalar 0, .scalar 0] hchain hnames (by decide) (by decide) (zero_le _)
  have hop : VfsOp.ofCode VfsOp.dirRead.code = some .dirRead := by decide
  have hresult : fs.dirRead id lastId none = fs.dirResult rest := dirRead_eq hfind htype hnext
  have herr' : (if err < 0 then err else 0) = 0 := if_neg (Int.not_lt.mpr herr)
  refine ⟨k, hk, fun hrest => ?_, ?_, htotal⟩
  · obtain ⟨c, cs, rfl⟩ := exists_cons_of_ne_nil hrest
    obtain ⟨-, hle, -, hsmall⟩ := dentWords_bounds (A := A) (hnames c (by simp))
    refine hpos c rfl (by decide) (by omega) ?_
    have hmul : dentWords A fs c * A.bytes ≤ A.maxMsgDataWords * A.bytes := by omega
    have hle' := le_of_mul_le_mul_right hmul (by omega)
    simpa [total, offset, Message.Slot.words] using hle'
  · have hresp : dispatchResponse A 0 = some [.scalar 0] := by
      simp [dispatchResponse, appendInt, appendParam, maxMsgParams]
    simp only [fsDispatch, getParam, getElem?_cons_zero, bind_eq_bind, bind_some, hop,
      dispatchDirRead, getElem?_cons_succ, hresp, appendParam, maxMsgParams, length_singleton,
      Nat.reduceLeDiff, if_false, cons_append, nil_append, PseudoFs.ops, hresult] at hloop ⊢
    simp [hloop, herr', setInt, setParam]

def listSize (A : Arch) (fs : PseudoFs) (cs : List ℕ) : ℕ :=
  (cs.map fun c => dentWords A fs c * A.bytes).sum

def Buffered (A : Arch) (fs : PseudoFs) (m : ByteMem) : ℕ → List ℕ → Prop
  | _, [] => True
  | a, c :: cs => (∃ p, p.length = A.bytes - 4 ∧
      m.load a (dentSize A fs c) = dentBytes A fs p (dentWords A fs c * A.bytes) c) ∧
        Buffered A fs m (a + dentWords A fs c * A.bytes) cs

theorem total_dentSlots (A : Arch) (pad : ℕ → List UInt8) (fs : PseudoFs) (cs : List ℕ)
    (pre : Slots) (i : ℕ) : total (pre ++ dentSlots A pad fs i cs) * A.bytes =
    total pre * A.bytes + listSize A fs cs := by
  have htotal : ∀ slots : Slots, total slots = (slots.map Message.Slot.words).sum := fun slots => by
    rw [total, offset, take_length]
  have hsum : ∀ i, ((dentSlots A pad fs i cs).map Message.Slot.words).sum * A.bytes =
      listSize A fs cs := by
    induction cs with
    | nil => exact fun _ => zero_mul _
    | cons c cs ih =>
      intro i
      have := ih (i + 1)
      simp only [dentSlots, map_cons, sum_cons, Message.Slot.words, add_mul, listSize] at this ⊢
      omega
  rw [htotal, htotal, map_append, sum_append_nat, add_mul, hsum]

def dentTail (A : Arch) (fs : PseudoFs) (p : List UInt8) (c : ℕ) : List UInt8 :=
  encodeShort A (fs.type c).code ++
    (p ++ (encodeWord A.big A.bytes (fs.id c) ++ (fs.name c ++ [0])))

theorem dentBytes_eq (p : List UInt8) (size : ℕ) :
    dentBytes A fs p size c = encodeShort A size ++ dentTail A fs p c := by
  simp [dentBytes, encodeDent, dentTail]

/-- An entry is copied to the buffer, where its size is that of the data words. -/
theorem load_copied_dent {p : List UInt8} (hp : p.length = A.bytes - 4) (a size : ℕ) :
    (((m.store a (dentBytes A fs p (dentSize A fs c) c)).store (a + (dentSize A fs c - 1))
    [0]).store a
      (encodeShort A size)).load a (dentSize A fs c) = dentBytes A fs p size c := by
  have hlen := length_dentBytes (A := A) fs hp (dentSize A fs c) c
  -- the last byte is 0 already
  obtain ⟨xs, hxs⟩ : ∃ xs, dentBytes A fs p (dentSize A fs c) c = xs ++ [0] := ⟨_, rfl⟩
  have hlast : m.store a (dentBytes A fs p (dentSize A fs c) c) (a + (dentSize A fs c - 1)) = 0 := by
    have hidx : dentSize A fs c - 1 = xs.length := by
      rw [← hlen, hxs, length_append, length_singleton, Nat.add_sub_cancel]
    rw [hidx, hxs, store_inside (by simp), getElem_concat_length rfl]
  have hshort : (encodeShort A size).length = (encodeShort A (dentSize A fs c)).length := by
    rw [encodeShort, encodeShort, length_encodeWord, length_encodeWord]
  have hhead := load_store_head m a (dentTail A fs p c) hshort
  rw [← dentBytes_eq, ← dentBytes_eq, hlen] at hhead
  rw [store_self hlast, hhead]

/-- The loop of the client copies all entries of a response. The induction is on the entries
left. -/
theorem dirEntriesLoop_spec (hpad : ∀ i, (pad i).length = A.bytes - 4) {count : ℕ}
    (hcount : count < 2 ^ 31) : ∀ (cs : List ℕ) (pre : Slots) (i : ℕ) (m : ByteMem)
    (dirp readCount : ℕ),
      (∀ c ∈ cs, (fs.name c).length ≤ 255) → readCount + listSize A fs cs ≤ count →
      ∃ m', dirEntriesLoop A (pre ++ dentSlots A pad fs i cs) count cs.length pre.length m dirp
        readCount =
          some (m', ((readCount + listSize A fs cs : ℕ) : ℤ)) ∧
        Buffered A fs m' dirp cs ∧ ∀ x < dirp, m' x = m x := by
  intro cs
  induction cs with
  | nil =>
    intro pre i m dirp readCount _ hle
    refine ⟨m, ?_, trivial, fun _ _ => rfl⟩
    have hzero : listSize A fs [] = 0 := rfl
    rw [length_nil, dirEntriesLoop, ssize_of_lt (by omega), hzero, add_zero]
  | cons c cs ih =>
    intro pre i m dirp readCount hnames hle
    have hsize : listSize A fs (c :: cs) = dentWords A fs c * A.bytes + listSize A fs cs := rfl
    obtain ⟨hroom, hmax, hmin, hsmall⟩ := dentWords_bounds (A := A) (hnames c (by simp))
    have hlen := length_dentBytes (A := A) fs (hpad i) (dentSize A fs c) c
    have hpos : 0 < dentSize A fs c := succ_pos _
    have hdata : getData A (pre ++ dentSlots A pad fs i (c :: cs)) pre.length =
        some (dentBytes A fs (pad i) (dentSize A fs c) c, dentWords A fs c * A.bytes) := by
      simp [getData, dentSlots]
    have hshort : (copyKnown (dentBytes A fs (pad i) (dentSize A fs c) c) 2).map (decodeWord A.big) =
        some (dentSize A fs c) := by
      have htwo : (encodeShort A (dentSize A fs c)).length = 2 := length_encodeWord ..
      have hle2 : 2 ≤ (dentBytes A fs (pad i) (dentSize A fs c) c).length := by
        rw [dentBytes_eq, length_append, htwo]
        omega
      rw [copyKnown, if_pos hle2, dentBytes_eq, ← htwo, take_left, map_some, encodeShort,
        decodeWord_encodeWord, mod_eq_of_lt (by omega)]
    have hcopy : copyKnown (dentBytes A fs (pad i) (dentSize A fs c) c) (dentSize A fs c) =
        some (dentBytes A fs (pad i) (dentSize A fs c) c) := by
      rw [copyKnown, if_pos hlen.ge, take_of_length_le hlen.le]
    have hsplit : pre ++ dentSlots A pad fs i (c :: cs) =
        (pre ++ [.block (dentBytes A fs (pad i) (dentSize A fs c) c) (dentWords A fs c)]) ++
          dentSlots A pad fs (i + 1) cs := by
      rw [append_assoc]
      rfl
    obtain ⟨m', hloop, hbuf, hbelow⟩ := ih
      (pre ++ [.block (dentBytes A fs (pad i) (dentSize A fs c) c) (dentWords A fs c)]) (i + 1)
      (((m.store dirp (dentBytes A fs (pad i) (dentSize A fs c) c)).store (dirp +
        (dentSize A fs c - 1)) [0]).store
        dirp (encodeShort A (dentWords A fs c * A.bytes))) (dirp + dentWords A fs c * A.bytes)
      (readCount + dentWords A fs c * A.bytes) (fun x hx => hnames x (by simp [hx])) (by omega)
    refine ⟨m', ?_, ⟨⟨pad i, hpad i, ?_⟩, hbuf⟩, fun x hx => ?_⟩
    · rw [← hsplit, length_append, length_singleton] at hloop
      rw [length_cons, dirEntriesLoop, hdata]
      simp only [bind_eq_bind, bind_some, if_neg (not_le.mpr hmin),
        if_neg (show ¬ count < readCount + dentWords A fs c * A.bytes by omega), hshort,
        if_neg (show ¬ (dentSize A fs c = 0 ∨ 2 ^ 15 ≤ dentSize A fs c) by omega), hcopy, hloop,
          hsize, add_assoc]
    · rw [← load_copied_dent (hpad i) dirp (dentWords A fs c * A.bytes)]
      exact load_eq_iff.mpr fun j hj => hbelow _ (by omega)
    · have htwo : (encodeShort A (dentWords A fs c * A.bytes)).length = 2 := length_encodeWord ..
      rw [hbelow x (by omega), store_outside (Or.inl hx), store_outside (Or.inl (by omega)),
        store_outside (Or.inl hx)]

/-- The C string at an address. -/
theorem takeWhile_load {a n : ℕ} {name : List UInt8}
    (hload : m.load a (name.length + 1) = name ++ [0])
    (hnul : 0 ∉ name) (hn : name.length < n) : (m.load a n).takeWhile (· ≠ 0) = name := by
  obtain ⟨k, rfl⟩ := Nat.exists_eq_add_of_le (Nat.succ_le_of_lt hn)
  rw [Nat.succ_eq_add_one, load_add, hload, append_assoc, takeWhile_append_of_pos]
  · simp
  · intro ch hch
    have hne : ch ≠ 0 := fun h => hnul (h ▸ hch)
    simpa using hne

theorem nextDirent_spec {d : Dir} {a : ℕ} (hidx : d.bufIdx = a)
    (hbuf : Buffered A fs m (d.buf + a) (c :: cs))
    (hid : fs.id c < A.ulong) (hname : 0 ∉ fs.name c ∧ (fs.name c).length ≤ 255) :
    nextDirent A m d =
      some ({ d with lastFsId := fs.id c, bufIdx := d.bufIdx + (dentWords A fs c * A.bytes : ℕ) },
      fs.dirent c) := by
  obtain ⟨⟨p, hp, hload⟩, -⟩ := hbuf
  obtain ⟨-, hmax, -, -⟩ := dentWords_bounds (A := A) hname.2
  have hbytes := A.bytes_cases
  have hshort : ∀ v, (encodeShort A v).length = 2 := fun v => length_encodeWord ..
  have hword : (encodeWord A.big A.bytes (fs.id c)).length = A.bytes := length_encodeWord ..
  have hsize : loadShort A m (d.buf + a) = dentWords A fs c * A.bytes := by
    have hmid := @load_middle _ _ m [] _ _ (hload.trans (dentBytes_eq ..))
    rw [hshort, length_nil, add_zero] at hmid
    rw [loadShort, hmid, encodeShort, decodeWord_encodeWord, mod_eq_of_lt (by omega)]
  have htype : loadShort A m (d.buf + a + 2) = (fs.type c).code := by
    have hmid := load_middle (hload.trans (dentBytes_eq ..))
    rw [hshort, hshort] at hmid
    rw [loadShort, hmid, encodeShort, decodeWord_encodeWord, mod_eq_of_lt]
    cases fs.type c <;> decide
  have hfsId : A.loadWord m (d.buf + a + A.bytes) = fs.id c := by
    have heq : dentBytes A fs p (dentWords A fs c * A.bytes) c =
        (encodeShort A (dentWords A fs c * A.bytes) ++ encodeShort A (fs.type c).code ++ p) ++
          (encodeWord A.big A.bytes (fs.id c) ++ (fs.name c ++ [0])) := by
      simp only [dentBytes, encodeDent, append_assoc]
    have hmid := load_middle (hload.trans heq)
    rw [length_append, length_append, hshort, hshort, hp, hword,
      show 2 + 2 + (A.bytes - 4) = A.bytes by omega] at hmid
    rw [Arch.loadWord, hmid, decodeWord_encodeWord]
    exact mod_eq_of_lt hid
  have hstr : (m.load (d.buf + a + sizeofSysDirEnt A) 256).takeWhile (· ≠ 0) = fs.name c := by
    have heq : dentBytes A fs p (dentWords A fs c * A.bytes) c =
        (encodeShort A (dentWords A fs c * A.bytes) ++ encodeShort A (fs.type c).code ++ p ++
          encodeWord A.big A.bytes (fs.id c)) ++ ((fs.name c ++ [0]) ++ []) := by
      simp only [dentBytes, encodeDent, append_assoc, append_nil]
    have hmid := load_middle (hload.trans heq)
    rw [length_append, length_append, length_append, hshort, hshort, hp, hword,
      show 2 + 2 + (A.bytes - 4) + A.bytes = sizeofSysDirEnt A by
      rw [sizeofSysDirEnt]; omega, length_append,
      length_singleton] at hmid
    exact takeWhile_load hmid hname.1 (by omega)
  have hcode : (fs.type c).code % 256 = (fs.type c).code := by cases fs.type c <;> rfl
  have hbmod : Int.bmod ((dentWords A fs c * A.bytes : ℕ) : ℤ) (2 ^ 16) =
      (dentWords A fs c * A.bytes : ℕ) :=
    Int.bmod_eq_of_le (by omega) (by omega)
  have hnonneg : ¬ d.bufIdx < 0 := by omega
  have hnat : d.bufIdx.toNat = a := by omega
  simp only [nextDirent, if_neg hnonneg, hnat, hfsId, hsize, htype, hcode, hstr, hbmod,
    PseudoFs.dirent, take_of_length_le hname.2]

section

variable (h : OpenDir A pad ipc task fs fd dir) (vroot : OpenEntry) {lastId : ℕ} {first : Option ℕ}
  (hnext : fs.dirNext dir lastId none = rest.head?) (hchain : Chain fs.siblingNext first rest)
  (hnames : ∀ c ∈ rest, (fs.name c).length ≤ 255)
include h hnext hchain hnames

/-- What the client gets for a request, by way of the VFS server. -/
theorem OpenDir.request {size : ℕ} (hsize : 272 ≤ size) : ∃ k ≤ rest.length, (rest ≠ [] → 0 < k) ∧
      requestRead A (vfsServe A ipc vroot task) .dirRead fs fd size lastId =
        some (fs, .scalar 0 :: .scalar k :: dentSlots A pad fs 0 (rest.take k)) ∧
      total (.scalar 0 :: .scalar k :: dentSlots A pad fs 0 (rest.take k)) ≤ A.maxMsgDataWords := by
  obtain ⟨vnode, vent, hlookup, hvnode, hignore, hipc, hfind, htype⟩ := h.opened
  obtain ⟨k, hk, hpos, hdispatch, htotal⟩ :=
    dispatch_dirRead h.pad hfind htype hnext hchain hnames hsize
  refine ⟨k, hk, hpos, ?_, htotal⟩
  have hfd : getInt [.scalar (fd % A.ulong).toNat, .scalar size, .scalar lastId] 0 = some fd :=
    getInt_scalar (A := A) ⟨by have := h.int.1; omega, h.int.2⟩ rfl
  rw [requestRead_eq, vfsServe, vfsApiDirRead, hfd]
  simp [getParam, fdVnode, hlookup, hvnode, vfsDirReadForward, hignore, readForward_eq, hipc,
    hdispatch]

/-- `sys_api_dir_read` brings some of the entries left to the buffer. -/
theorem OpenDir.dirRead (m : ByteMem) (buf : ℕ) : ∃ k ≤ rest.length, ∃ m',
      (rest ≠ [] → 0 < k) ∧
      sysApiDirRead A (vfsServe A ipc vroot task) fs m fd buf dirBufSize lastId =
        some (fs, m', (listSize A fs (rest.take k) : ℤ)) ∧ Buffered A fs m' buf (rest.take k) := by
  obtain ⟨k, hk, hpos, hreq, htotal⟩ :=
    h.request vroot hnext hchain hnames (show 272 ≤ dirBufSize by decide)
  have hfits : listSize A fs (rest.take k) ≤ dirBufSize := by
    have hsize := total_dentSlots A pad fs (rest.take k) [.scalar 0, .scalar k] 0
    have hle := mul_le_mul_right A.bytes htotal
    have hwords : A.maxMsgDataWords * A.bytes ≤ dirBufSize := by
      rcases A.bytes_cases with h | h <;> simp [Arch.maxMsgDataWords, h, maxMsgSize, maxMsgParams,
        dirBufSize]
    simp only [cons_append, nil_append] at hsize
    omega
  obtain ⟨m', hloop, hbuf, -⟩ := dirEntriesLoop_spec h.pad (show dirBufSize < 2 ^ 31 by decide)
    (rest.take k) [.scalar 0, .scalar k] 0 m buf 0 (fun c hc =>
    hnames c (mem_of_mem_take hc)) (by omega)
  refine ⟨k, hk, m', hpos, ?_, hbuf⟩
  have herr : getInt (.scalar 0 :: .scalar k :: dentSlots A pad fs 0 (rest.take k)) 0 = some 0 :=
    getInt_scalar (A := A) (by omega) (by simp)
  rw [length_take, min_eq_left hk] at hloop
  simp only [sysApiDirRead, hreq, bind_eq_bind, bind_some, herr, ne_eq, not_true_eq_false, if_false,
    getParam, getElem?_cons_succ, getElem?_cons_zero]
  simp only [cons_append, nil_append, length_cons, length_nil, zero_add] at hloop
  rw [hloop, bind_some]

end

/-- The nodes `cs` are in the buffer, and `rest` are still to be asked for. -/
structure Reading (A : Arch) (fs : PseudoFs) (dir : ℕ) (m : ByteMem) (d : Dir) (cs rest : List ℕ) :
    Prop where
  idx : ∃ a : ℕ, d.bufIdx = a ∧ Buffered A fs m (d.buf + a) cs
  size : d.bufSize = d.bufIdx + (listSize A fs cs : ℕ)
  chain : ∃ first, Chain fs.siblingNext first (cs ++ rest)
  next : cs = [] → fs.dirNext dir d.lastFsId none = rest.head?

theorem Reading.pop {d : Dir} (h : Reading A fs dir m d (c :: cs) rest)
    (hfind : fs.nodeFind (fs.id c) = some c)
    (hid : fs.id c ≠ 0 ∧ fs.id c < A.ulong) (hname : 0 ∉ fs.name c ∧ (fs.name c).length ≤ 255) :
    ∃ d',
    nextDirent A m d = some (d', fs.dirent c) ∧ d'.fd = d.fd ∧ Reading A fs dir m d' cs rest := by
  obtain ⟨a, hidx, hbuf⟩ := h.idx
  obtain ⟨first, hchain⟩ := h.chain
  refine ⟨_, nextDirent_spec hidx hbuf hid.2 hname, rfl, ⟨a + dentWords A fs c * A.bytes, ?_, ?_⟩,
    ?_, ⟨_, hchain.2⟩, fun hcs => ?_⟩
  · simp [hidx]
  · rw [← add_assoc]
    exact hbuf.2
  · have hsize : listSize A fs (c :: cs) = dentWords A fs c * A.bytes + listSize A fs cs := rfl
    have hd := h.size
    dsimp only
    omega
  · subst hcs
    simp only [PseudoFs.dirNext, if_pos hid.1, hfind]
    exact hchain.2.head?_eq

/-- `readdir` to the end of the directory. The induction is on the calls left. -/
theorem OpenDir.readdirAll (h : OpenDir A pad ipc task fs fd dir) (vroot : OpenEntry) {fuel : ℕ} :
    ∀ {cs rest : List ℕ} {m : ByteMem} {d : Dir}, d.fd = fd → Reading A fs dir m d cs rest →
      (∀ c ∈ cs ++ rest, fs.nodeFind (fs.id c) = some c ∧ (fs.id c ≠ 0 ∧ fs.id c < A.ulong) ∧
        0 ∉ fs.name c ∧ (fs.name c).length ≤ 255) → (cs ++ rest).length < fuel →
      Toddler.readdirAll A (vfsServe A ipc vroot task) fuel fs m d =
        some ((cs ++ rest).map fs.dirent) := by
  induction fuel with
  | zero => omega
  | succ fuel ih =>
    intro cs rest m d hfd hreading hok hfuel
    rw [Toddler.readdirAll]
    cases cs with
    | cons c cs =>
      obtain ⟨hfind, hid, hname⟩ := hok c (by simp)
      obtain ⟨d', hnext, hfd', hreading'⟩ := hreading.pop hfind hid hname
      have hlt : ¬ d.bufSize ≤ d.bufIdx := by
        obtain ⟨-, -, hmin, -⟩ := dentWords_bounds (A := A) hname.2
        have hsize : listSize A fs (c :: cs) = dentWords A fs c * A.bytes + listSize A fs cs := rfl
        rw [hreading.size]
        omega
      have hrest := ih (hfd'.trans hfd) hreading' (fun x hx =>
        hok x (mem_cons_of_mem c hx)) (lt_of_succ_lt_succ hfuel)
      simp only [readdir, if_neg hlt, hnext, bind_eq_bind, bind_some, hrest, map_some, cons_append,
        map_cons]
    | nil =>
      rw [nil_append] at hok ⊢
      obtain ⟨first, hchain⟩ := hreading.chain
      obtain ⟨k, hk, m', hpos, hread, hbuf⟩ := h.dirRead vroot (hreading.next rfl) hchain
        (fun c hc => (hok c hc).2.2.2) m d.buf
      have hle : d.bufSize ≤ d.bufIdx := by
        rw [hreading.size]
        simp [listSize]
      rw [← hfd] at hread
      cases rest with
      | nil =>
        have hzero : (listSize A fs (([] : List ℕ).take k) : ℤ) ≤ 0 := by simp [listSize]
        simp only [readdir, if_pos hle, hread, bind_eq_bind, bind_some, if_pos hzero, map_nil]
      | cons c cs =>
        obtain ⟨k, rfl⟩ := exists_eq_succ_of_ne_zero (ne_of_gt (hpos (cons_ne_nil c cs)))
        obtain ⟨hfind, hid, hname⟩ := hok c (by simp)
        rw [take_succ_cons] at hread
        have hfilled : Reading A fs dir m'
            { d with bufIdx := 0, bufSize := (listSize A fs (c :: cs.take k) : ℤ) } (c :: cs.take k)
            (cs.drop k) := by
          refine ⟨⟨0, rfl, hbuf⟩, by simp, ⟨first, ?_⟩, by simp⟩
          rw [cons_append, take_append_drop]
          exact hchain
        obtain ⟨d', hnext, hfd', hreading'⟩ := hfilled.pop hfind hid hname
        have hposSize : ¬ (listSize A fs (c :: cs.take k) : ℤ) ≤ 0 := by
          obtain ⟨-, -, hmin, -⟩ := dentWords_bounds (A := A) hname.2
          have hsize : listSize A fs (c :: cs.take k) =
            dentWords A fs c * A.bytes + listSize A fs (cs.take k) := rfl
          omega
        have hrest := ih (hfd'.trans hfd) hreading'
        rw [take_append_drop] at hrest
        simp only [readdir, if_pos hle, hread, bind_eq_bind, bind_some, if_neg hposSize, hnext,
          hrest (fun x hx => hok x (mem_cons_of_mem c hx)) (lt_of_succ_lt_succ hfuel), map_some,
          map_cons]

/-- `vfs_dir_open` returns 0, whether the operation is forwarded or not. -/
theorem vfsDirOpen_eq {vnode : Vnode} (flags : ℕ)
    (hipc : ∀ msg, ipc fs vnode.mount.pid vnode.mount.opcode msg =
    fsDispatch A pad (PseudoFs.ops A) fs msg) : vfsDirOpen ipc fs vnode flags = some (fs, 0) := by
  unfold vfsDirOpen
  split_ifs
  · rfl
  · simp [hipc, fsDispatch, dispatchDirOpen, dispatchCode,
      PseudoFs.ops, dispatchResponse, appendInt]

theorem OpenDir.opendir (h : OpenDir A pad ipc task fs fd dir) (vroot : OpenEntry) (buf : ℕ) :
    Toddler.opendir A (vfsServe A ipc vroot task) fs fd buf = some (fs,
    some ⟨fd, 0, buf, 0, 0⟩) := by
  obtain ⟨vnode, vent, hlookup, hvnode, -, hipc, -, -⟩ := h.opened
  have hfd : getInt [.scalar (fd % A.ulong).toNat, .scalar 0] 0 = some fd :=
    getInt_scalar ⟨by have := h.int.1; omega, h.int.2⟩ rfl
  have hcode : getInt [.scalar ((0 : ℤ) % A.ulong).toNat] 0 = some 0 := getInt_scalar (by omega) rfl
  have hreq : sysApiDirOpen A (vfsServe A ipc vroot task) fs fd 0 = some (fs, 0) := by
    simp only [sysApiDirOpen, appendInt, appendParam, maxMsgParams, length_nil, nil_append,
      length_singleton, cons_append, Nat.reduceLeDiff, if_false, bind_eq_bind, bind_some,
      requestCode, vfsServe, vfsApiDirOpen, hfd, getParam, getElem?_cons_succ, getElem?_cons_zero,
      fdVnode, hlookup, hvnode, vfsDirOpen_eq 0 hipc, codeResponse, map_some, hcode]
  have hnonneg : ¬ fd < 0 := by have := h.int.1; omega
  simp only [Toddler.opendir, if_neg hnonneg, hreq, bind_eq_bind, bind_some, ne_eq,
    not_true_eq_false, if_false]

/-- Reading a directory from `opendir` on gives its children, each once and in their order. -/
theorem readdir_lists_children (hopen : OpenDir A pad ipc task fs fd dir)
    (hdir : DirOk A fs dir children) (vroot : OpenEntry) (buf : ℕ) (m : ByteMem) {fuel : ℕ}
    (hfuel : children.length < fuel) : ∃ d,
    opendir A (vfsServe A ipc vroot task) fs fd buf = some (fs, some d) ∧
    readdirAll A (vfsServe A ipc vroot task) fuel fs m d = some (children.map fs.dirent) := by
  refine ⟨_, hopen.opendir vroot buf, ?_⟩
  have hstart : Reading A fs dir m ⟨fd, 0, buf, 0, 0⟩ [] children := by
    refine ⟨⟨0, rfl, trivial⟩, by simp [listSize], ⟨_, hdir.chain⟩, fun _ => ?_⟩
    dsimp only
    exact hdir.chain.head?_eq
  exact hopen.readdirAll vroot rfl hstart (fun c hc => ⟨hdir.find c hc, hdir.id c hc,
    hdir.name c hc⟩) hfuel

def twentyFiles : PseudoFs where
  list := List.range' 1 21
  child n := if n = 1 then some 2 else none
  siblingNext n := if n < 21 then some (n + 1) else none
  id n := n
  name n := List.replicate n 0x66
  type n := if n = 1 then .dir else .file
  data _ := .none

def twentyFilesTask : FdTable OpenEntry := fun i =>
  ⟨i ≤ 3, if i = 3 then some ⟨some ⟨1, 2, ⟨0, 9, 128⟩⟩, false, false⟩ else none⟩

theorem readdir_lists_children_of_twentyFiles : ∃ d, opendir ⟨true, false⟩ (vfsServe ⟨true, false⟩
        (fun fs _ _ msg => fsDispatch ⟨true, false⟩ (fun _ => [0, 0, 0, 0]) (PseudoFs.ops ⟨true,
        false⟩) fs msg)
        ⟨none, true, false⟩ (some twentyFilesTask)) twentyFiles 3 0x1000 = some (twentyFiles, some d) ∧
    readdirAll ⟨true, false⟩ (vfsServe ⟨true, false⟩
        (fun fs _ _ msg => fsDispatch ⟨true, false⟩ (fun _ => [0, 0, 0, 0]) (PseudoFs.ops ⟨true,
        false⟩) fs msg) ⟨none, true, false⟩ (some twentyFilesTask)) 21 twentyFiles (fun _ => 0) d =
      some ((List.range' 2 20).map twentyFiles.dirent) := by
  have hopen : OpenDir ⟨true, false⟩ (fun _ => [0, 0, 0, 0])
      (fun fs _ _ msg => fsDispatch ⟨true, false⟩ (fun _ => [0, 0, 0, 0]) (PseudoFs.ops ⟨true,
      false⟩) fs msg)
      (some twentyFilesTask) twentyFiles 3 1 :=
    ⟨by decide, ⟨⟨1, 2, ⟨0, 9, 128⟩⟩, ⟨_, false, false⟩, rfl, rfl, rfl, fun _ => rfl, rfl, rfl⟩,
      fun _ => rfl⟩
  have hdir : DirOk ⟨true, false⟩ twentyFiles 1 (List.range' 2 20) :=
    ⟨by simp [Chain, twentyFiles, List.range'], by decide, by decide, by decide⟩
  exact readdir_lists_children hopen hdir ⟨none, true, false⟩ 0x1000 (fun _ => 0) (by decide)

end Toddler
