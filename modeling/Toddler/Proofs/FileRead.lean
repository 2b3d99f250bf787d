import Toddler.Spec.VfsClient
import Toddler.Proofs.MessageRoundTrip

/-! A read, from the stub of the client to the handler of the file system and back, and the read of
a file of the pseudo file system with fixed data. Each message carries a part; the parts make up
what was asked for. -/

namespace Toddler

open List Option Nat Slots

variable {A : Arch}

abbrev IsInt (v : ℤ) : Prop := -2 ^ 31 ≤ v ∧ v < 2 ^ 31

@[simp] theorem getParam_zero (v : ℕ) (msg : Slots) : getParam (.scalar v :: msg) 0 = some v := rfl

@[simp] theorem getParam_succ (x : Message.Slot) (msg : Slots) (i : ℕ) :
    getParam (x :: msg) (i + 1) = getParam msg i := rfl

@[simp] theorem getData_zero (bytes : List UInt8) (words : ℕ) (msg : Slots) :
    getData A (.block bytes words :: msg) 0 = some (bytes, words * A.bytes) := rfl

@[simp] theorem getData_succ (x : Message.Slot) (msg : Slots) (i : ℕ) :
    getData A (x :: msg) (i + 1) = getData A msg i := rfl

section Append

variable (a b c d : Message.Slot) (v : ℕ)

@[simp] theorem appendParam_nil : appendParam [] v = some [.scalar v] := rfl

@[simp] theorem appendParam_one : appendParam [a] v = some [a, .scalar v] := rfl

@[simp] theorem appendParam_two : appendParam [a, b] v = some [a, b, .scalar v] := rfl

@[simp] theorem appendParam_three : appendParam [a, b, c] v = some [a, b, c, .scalar v] := rfl

@[simp] theorem appendParam_four : appendParam [a, b, c, d] v = some [a, b, c, d, .scalar v] := rfl

@[simp] theorem appendParam_five (e : Message.Slot) :
    appendParam [a, b, c, d, e] v = some [a, b, c, d, e, .scalar v] := rfl

end Append

@[simp] theorem VfsOp.ofCode_code (op : VfsOp) : VfsOp.ofCode op.code = some op := by
  cases op <;> rfl

theorem cstrOf_chars (name : Message.CStr) : cstrOf (name.chars ++ [0]) = some name := by
  have hall : ∀ x ∈ name.chars, (decide (x ≠ 0)) = true := by
    intro x hx
    rw [decide_eq_true_eq]
    rintro rfl
    exact name.noNul hx
  have htake : (name.chars ++ [0]).takeWhile (fun x => decide (x ≠ 0)) = name.chars := by
    rw [takeWhile_append_of_pos hall]
    simp
  have hpos : 0 ∈ name.chars ++ [0] ∧
      ((name.chars ++ [0]).takeWhile (fun x => decide (x ≠ 0))).length < 2 ^ 31 := by
    rw [htake]
    exact ⟨by simp, name.short⟩
  rw [cstrOf, dif_pos hpos]
  congr 1
  cases name
  simpa using htake

def maxRead (A : Arch) : ℕ := A.maxMsgDataWords * A.bytes - 32

theorem maxRead_pos (A : Arch) : 0 < maxRead A ∧ maxRead A < 2048 := by
  rcases A.bytes_cases with h | h <;> simp [maxRead, Arch.maxMsgDataWords, h, maxMsgSize,
    maxMsgParams]

theorem ssize_of_lt {n : ℕ} (h : n < 2 ^ 31) : A.ssize n = n := by
  have hle := A.le_ulong
  rw [Arch.ssize, Int.bmod_eq_of_le] <;> omega

theorem getInt_scalar {v : ℤ} (hv : IsInt v) {msg : Slots} {i : ℕ}
    (hi : msg[i]? = some (.scalar (v % A.ulong).toNat)) : getInt msg i = some v := by
  simp only [getInt, getParam, hi, map_some, Message.bmod_ulong hv]

/-- The message that a read is answered with has room for the bytes asked for, as far as they
fit. -/
theorem readResponse_eq (A : Arch) (reqSize : ℕ) : ∃ words,
    readResponse A reqSize = some ([.scalar 0, .scalar 0, .scalar 0, .block [] words],
    min reqSize (maxRead A)) ∧
      min reqSize (maxRead A) ≤ words * A.bytes := by
  have hbytes := A.bytes_cases
  have hmax : maxRead A + 32 = A.maxMsgDataWords * A.bytes := by
    rcases hbytes with h | h <;> simp [maxRead, Arch.maxMsgDataWords, h, maxMsgSize, maxMsgParams]
  obtain ⟨n, hn, hle⟩ : ∃ n, n = min reqSize (maxRead A) ∧ n ≤ maxRead A :=
    ⟨_, rfl, min_le_right ..⟩
  have hlt := (maxRead_pos A).2
  have hwrap : n + (A.bytes - 1) < A.ulong := by
    have := A.le_ulong
    omega
  have hwords : Message.alignUpVsize A n A.bytes / A.bytes ≤ A.maxMsgDataWords := by
    rw [Message.alignUpVsize_div hwrap]
    exact Nat.div_le_of_le_mul (by rw [Nat.mul_comm]; omega)
  refine ⟨_, ?_, hn ▸ (Message.alignUpVsize_spec hwrap).1⟩
  have hremain : remainDataSize A [.scalar 0, .scalar 0, .scalar 0] - 32 = maxRead A := rfl
  have hreq : (if maxRead A < reqSize then maxRead A else reqSize) = n := by
    split_ifs <;> omega
  have hfits := not_lt.mpr hwords
  have htotal : Message.total [.scalar 0, .scalar 0, .scalar 0] = 0 := rfl
  rw [← hn]
  simp [readResponse, dispatchResponse, appendInt, hremain, hreq, appendData, htotal, hfits,
    maxMsgParams]

/-- A report of a handler asked for `n` bytes: it stored no more, and says how much it stored. -/
structure ReportOk (n : ℕ) (r : FileRead) : Prop where
  err : IsInt r.err
  more : IsInt r.more
  stored : r.buf.length ≤ n
  count : r.err = 0 → r.count = r.buf.length

def readReply (A : Arch) (words : ℕ) (r : FileRead) : Slots :=
  if r.err = 0 then
    [.scalar 0, .scalar r.buf.length, .scalar (r.more % A.ulong).toNat, .block r.buf words]
  else [.scalar (r.err % A.ulong).toNat, .scalar 0, .scalar 0, .block r.buf words]

section Read

variable {σ : Type} {ipc : σ → ℕ → ℕ → Slots → Option (σ × Slots)} {pad : ℕ → List UInt8}
  {ops : FsOps σ}
  {task : Option (FdTable OpenEntry)} {fd : ℤ} {vnode : Vnode} {f : σ → ℕ → ℕ → ℕ →
  Option (σ × FileRead)}
  {count : ℕ} {r : FileRead}

theorem ReportOk.count_mod (h : ReportOk (min count (maxRead A)) r) (herr : r.err = 0) :
    r.count % A.ulong = r.buf.length := by
  have hmax := (maxRead_pos A).2
  have hulong := A.le_ulong
  have hlen := h.stored
  rw [h.count herr]
  exact Int.emod_eq_of_lt (by omega) (by omega)

/-- The response of the file system, with the words that it has for the data. -/
theorem dispatch_read (A : Arch) (pad : ℕ → List UInt8) (hf : ops.fileRead = some f)
    (id count offset : ℕ) : ∃ words, ∀ st, (∀ r ∈ f st id (min count (maxRead A)) offset,
    ReportOk (min count (maxRead A)) r.2) →
      fsDispatch A pad ops st [.scalar VfsOp.fileRead.code, .scalar id, .scalar count, .scalar offset] =
        (f st id (min count (maxRead A)) offset).map fun (st, r) => (st, readReply A words r) := by
  obtain ⟨words, hresponse, hroom⟩ := readResponse_eq A count
  refine ⟨words, fun st hok => ?_⟩
  simp only [fsDispatch, getParam_zero, getParam_succ, bind_eq_bind, bind_some, dispatchFileRead,
    hresponse, hf]
  cases hreport : f st id (min count (maxRead A)) offset with
  | none => rfl
  | some report =>
    have hr := hok report hreport
    have hfit : report.2.buf.length ≤ words * A.bytes := hr.stored.trans hroom
    by_cases herr : report.2.err = 0
    · simp [fill, hfit, setRead, herr, setParam, setInt, hr.count_mod herr, readReply]
    · simp [fill, hfit, setRead, herr, setParam, setInt, readReply]

theorem requestRead_eq (serve : σ → Slots → SysApi → Option (σ × Slots)) (api : SysApi) (st : σ)
    (fd : ℤ) (count offset : ℕ) : requestRead A serve api st fd count offset =
      serve st [.scalar (fd % A.ulong).toNat, .scalar count, .scalar offset] api := rfl

theorem readForward_eq (ipc : σ → ℕ → ℕ → Slots → Option (σ × Slots)) (op : VfsOp) (st : σ)
    (node : Vnode) (count offset : ℕ) : readForward ipc op st node count offset =
    ipc st node.mount.pid node.mount.opcode
      [.scalar op.code, .scalar node.fsId, .scalar count, .scalar offset] := rfl

/-- What the client gets for a request to read, by way of the VFS server. -/
theorem request_read (A : Arch) (pad : ℕ → List UInt8) (vroot : OpenEntry) (hfd : IsInt fd)
    (hopen : fdVnode task fd = some vnode)
    (hforward : ignoreOpIpc vnode.mount .fileRead = false) (htype : vnode.type ≠ NodeType.pipe.code)
    (hf : ops.fileRead = some f) (count offset : ℕ) : ∃ words, ∀ st,
    (∀ msg, ipc st vnode.mount.pid vnode.mount.opcode msg = fsDispatch A pad ops st msg) →
    (∀ r ∈ f st vnode.fsId (min count (maxRead A)) offset, ReportOk (min count (maxRead A)) r.2) →
    requestRead A (vfsServe A ipc vroot task) .fileRead st fd count offset =
      (f st vnode.fsId (min count (maxRead A)) offset).map fun (st, r) => (st, readReply A words r) := by
  obtain ⟨words, hdispatch⟩ := dispatch_read A pad hf vnode.fsId count offset
  refine ⟨words, fun st hipc hok => ?_⟩
  rw [requestRead_eq, vfsServe, vfsApiFileRead, getInt_scalar hfd rfl]
  simp [hopen, vfsFileRead, hforward, if_neg htype, readForward_eq, hipc, hdispatch st hok]

theorem getInt_readReply {words : ℕ} (herr : IsInt r.err) :
    getInt (readReply A words r) 0 = some r.err := by
  unfold readReply
  split_ifs with hzero
  · exact hzero ▸ getInt_scalar (A := A) (by omega) (by simp)
  · exact getInt_scalar herr rfl

/-- A round of the stub: it reads on, or returns the code of the handler. -/
theorem fileReadLoop_round {serve : σ → Slots → SysApi → Option (σ × Slots)} {st st' : σ}
    {offset words : ℕ} {more : ℤ} (hrequest : requestRead A serve .fileRead st fd count offset =
    some (st', readReply A words r))
    (hr : ReportOk count r) (hgo : ¬ (count = 0 ∨ more = 0)) (fuel : ℕ) (buf : List UInt8)
    (readCount : ℕ) :
    fileReadLoop A serve fd (fuel + 1) st count offset more buf readCount = if r.err = 0 then
        fileReadLoop A serve fd fuel st' (count - r.buf.length) ((offset + r.buf.length) % A.ulong)
          r.more (buf ++ r.buf) (readCount + r.buf.length)
      else some (st', r.err, buf) := by
  rw [fileReadLoop, if_neg hgo, hrequest, bind_eq_bind, bind_some]
  dsimp only
  rw [getInt_readReply hr.err, bind_eq_bind, bind_some]
  by_cases herr : r.err = 0
  · rw [if_neg (not_not.mpr herr), if_pos herr, readReply, if_pos herr]
    simp only [bind_eq_bind, bind_some, getParam_zero, getParam_succ, getData_zero,
      getData_succ, if_neg (not_lt.mpr hr.stored), copyKnown, le_refl, if_true, take_length,
      Message.bmod_ulong hr.more]
  · rw [if_pos herr, if_neg herr]

end Read

variable {ipc : PseudoFs → ℕ → ℕ → Slots → Option (PseudoFs × Slots)} {pad : ℕ → List UInt8}
  {task : Option (FdTable OpenEntry)} {fs : PseudoFs} {fd : ℤ} {data : List UInt8}

/-- The descriptor `fd` is open on a file of the pseudo file system, which has the fixed data. -/
structure OpenFixed (A : Arch) (pad : ℕ → List UInt8)
    (ipc : PseudoFs → ℕ → ℕ → Slots → Option (PseudoFs × Slots))
    (task : Option (FdTable OpenEntry)) (fs : PseudoFs) (fd : ℤ) (data : List UInt8) : Prop where
  int : -2 ^ 31 ≤ fd ∧ fd < 2 ^ 31
  opened : ∃ vnode vent, taskLookupFd task fd = some (some vent) ∧ vent.vnode = some vnode ∧
    vnode.type = NodeType.file.code ∧ ignoreOpIpc vnode.mount .fileRead = false ∧
    (∀ msg, ipc fs vnode.mount.pid vnode.mount.opcode msg = fsDispatch A pad (PseudoFs.ops A) fs msg) ∧
    ∃ node, fs.nodeFind vnode.fsId = some node ∧ fs.type node = .file ∧ fs.data node = .fixed data
  size : data.length < A.ulong

theorem pseudoFs_fileRead {id node count : ℕ} (offset : ℕ) (hfind : fs.nodeFind id = some node)
    (htype : fs.type node = .file) (hdata : fs.data node = .fixed data) (hpos : 0 < count)
    (hlt : count < 2 ^ 31) :
    fs.fileRead A id count offset = ⟨⟨0, ((min count (data.length - offset) : ℕ) : ℤ),
      if count < data.length - offset then 1 else 0⟩, (data.drop offset).take count⟩ := by
  have hread : fs.readData node count offset = (min count (data.length - offset),
    (data.drop offset).take count,
        if count < data.length - offset then 1 else 0) := by
    simp only [PseudoFs.readData, hdata]
    by_cases hoff : offset < data.length
    · rw [if_pos ⟨hoff, hpos.ne'⟩]
      by_cases hmore : count < data.length - offset
      · rw [if_pos hmore, if_pos hmore, min_eq_left hmore.le]
      · rw [if_neg hmore, if_neg hmore, min_eq_right (not_lt.mp hmore), take_of_length_le]
        rw [length_drop]
        exact not_lt.mp hmore
    · have hzero : data.length - offset = 0 := by omega
      rw [if_neg fun h => hoff h.1, hzero, min_zero, if_neg (not_lt_zero _),
        drop_eq_nil_of_le (not_lt.mp hoff), take_nil]
  have hmin : min count (data.length - offset) < 2 ^ 31 := lt_of_le_of_lt (min_le_left ..) hlt
  simp [PseudoFs.fileRead, hfind, htype, hread, ssize_of_lt hmin]

/-- A message brings as much of the data as it can carry, and the flag says whether there is
more. -/
theorem OpenFixed.round (h : OpenFixed A pad ipc task fs fd data) (vroot : OpenEntry) {count : ℕ}
    (hpos : 0 < count) (offset fuel readCount : ℕ) (buf : List UInt8) {n : ℕ} (hn : n =
    min count (maxRead A)) :
    fileReadLoop A (vfsServe A ipc vroot task) fd (fuel + 1) fs count offset 1 buf readCount =
      fileReadLoop A (vfsServe A ipc vroot task) fd fuel fs (count - min n (data.length - offset))
        ((offset + min n (data.length - offset)) % A.ulong) (if n < data.length - offset then 1 else 0)
        (buf ++ (data.drop offset).take n) (readCount + min n (data.length - offset)) := by
  obtain ⟨vnode, vent, hlookup, hvnode, htype, hignore, hipc, node, hfind, hfile, hdata⟩ := h.opened
  obtain ⟨hmaxpos, hmaxlt⟩ := maxRead_pos A
  have hopen : fdVnode task fd = some vnode := by simp [fdVnode, hlookup, hvnode]
  have hpipe : vnode.type ≠ NodeType.pipe.code := by
    rw [htype]
    decide
  have hread := pseudoFs_fileRead (A := A) offset hfind hfile hdata (show 0 < n by omega) (show n <
    2 ^ 31 by omega)
  have hlen : ((data.drop offset).take n).length = min n (data.length - offset) := by
    rw [length_take, length_drop]
  have hok : ReportOk n (fs.fileRead A vnode.fsId n offset) := by
    rw [hread]
    refine ⟨⟨by simp, by simp⟩, ?_, length_take_le .., fun _ => by rw [hlen]⟩
    dsimp only
    split_ifs <;> decide
  obtain ⟨words, hreq⟩ := request_read A pad vroot h.int hopen hignore hpipe
    (show (PseudoFs.ops A).fileRead = some _ from rfl) count offset
  have hrequest := hreq fs hipc (by rintro _ ⟨⟩; exact hn ▸ hok)
  rw [← hn] at hrequest
  have hround := fileReadLoop_round hrequest ⟨hok.err, hok.more, hok.stored.trans (by omega),
    hok.count⟩ (show ¬ (count = 0 ∨ 1 = 0) by omega) fuel buf readCount
  rw [hread] at hround
  simpa using hround

/-- The loop of the stub. The induction is on the rounds left; each takes as much as one message
carries. -/
theorem OpenFixed.loop (h : OpenFixed A pad ipc task fs fd data) (vroot : OpenEntry) {fuel : ℕ} :
    ∀ {count : ℕ} (offset readCount : ℕ) (buf : List UInt8), count < fuel →
    fileReadLoop A (vfsServe A ipc vroot task) fd fuel fs count offset 1 buf readCount =
      some (fs, A.ssize (readCount + min count (data.length - offset)),
      buf ++ (data.drop offset).take count) := by
  induction fuel with
  | zero => omega
  | succ fuel ih =>
    intro count offset readCount buf hfuel
    by_cases hcount : count = 0
    · rw [fileReadLoop, if_pos (Or.inl hcount), hcount, zero_min, take_zero, append_nil, add_zero]
    obtain ⟨hmaxpos, -⟩ := maxRead_pos A
    obtain ⟨n, hn⟩ : ∃ n, n = min count (maxRead A) := ⟨_, rfl⟩
    rw [h.round vroot (pos_of_ne_zero hcount) offset fuel readCount buf hn]
    by_cases hmore : n < data.length - offset
    · -- the message was full, or all that was asked for
      have hsize := h.size
      rw [if_pos hmore, min_eq_left hmore.le, mod_eq_of_lt (by omega), ih _ _ _ (by omega), append_assoc]
      have hsplit : (data.drop offset).take count =
          (data.drop offset).take n ++ (data.drop (offset + n)).take (count - n) := by
        rw [← drop_drop, ← take_add]
        congr 1
        omega
      have hsum : readCount + n + min (count - n) (data.length - (offset + n)) =
          readCount + min count (data.length - offset) := by omega
      rw [hsplit, hsum]
    · obtain ⟨fuel, rfl⟩ := exists_eq_succ_of_ne_zero (show fuel ≠ 0 by omega)
      have hlen : (data.drop offset).length ≤ n := by
        rw [length_drop]
        omega
      rw [if_neg hmore, fileReadLoop, if_pos (Or.inr rfl), take_of_length_le hlen,
        take_of_length_le (hlen.trans (by omega)), min_eq_right (not_lt.mp hmore),
        min_eq_right (by omega)]

/-- A read of a file with fixed data returns the bytes that are asked for and there. -/
theorem file_read_returns_bytes (h : OpenFixed A pad ipc task fs fd data) (vroot : OpenEntry)
    {fuel count : ℕ} (hfuel : count < fuel) (offset : ℕ) :
    sysApiFileRead A (vfsServe A ipc vroot task) fuel fs fd count offset =
      some (fs, A.ssize (min count (data.length - offset)), (data.drop offset).take count) := by
  have hloop := h.loop vroot offset 0 [] hfuel
  rwa [zero_add] at hloop

def longFile : PseudoFs where
  list := [2, 1]
  child n := if n = 1 then some 2 else none
  siblingNext _ := none
  id n := n
  name _ := [0x66]
  type n := if n = 2 then .file else .dir
  data n := if n = 2 then .fixed (List.replicate 2000 7) else .none

def longFileTask : FdTable OpenEntry := fun i =>
  ⟨i ≤ 3, if i = 3 then some ⟨some ⟨2, 1, ⟨0, 9, 128⟩⟩, false, false⟩ else none⟩

theorem file_read_returns_bytes_of_longFile : sysApiFileRead ⟨true, false⟩ (vfsServe ⟨true, false⟩
        (fun fs _ _ msg => fsDispatch ⟨true, false⟩ (fun _ => []) (PseudoFs.ops ⟨true,
        false⟩) fs msg) ⟨none, true, false⟩ (some longFileTask)) 1996 longFile 3 1995 10 =
      some (longFile, 1990, List.replicate 1990 7) := by
  have hopen : OpenFixed ⟨true, false⟩ (fun _ => [])
      (fun fs _ _ msg => fsDispatch ⟨true, false⟩ (fun _ => []) (PseudoFs.ops ⟨true, false⟩) fs msg)
      (some longFileTask) longFile 3 (List.replicate 2000 7) := by
    refine ⟨by decide, ⟨⟨2, 1, ⟨0, 9, 128⟩⟩, ⟨_, false, false⟩, rfl, rfl, rfl, rfl, fun _ => rfl, 2,
      rfl, rfl, rfl⟩, ?_⟩
    rw [length_replicate]
    decide
  have hread := file_read_returns_bytes hopen ⟨none, true, false⟩ (show 1995 < 1996 by decide) 10
  rw [length_replicate, drop_replicate, take_replicate] at hread
  exact hread

end Toddler
