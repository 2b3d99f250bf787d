import Toddler.Spec.Coreimg

/-! The core image round trip. Under the writer's loops the image is the FAT, then each file's
contents padded to 8 bytes, up to the end of the last contents: the last padding is not written. -/

namespace Toddler

open List Option Nat ByteMem

namespace Coreimg

variable {a : ℕ}

theorem join_bytes {b c d : ℕ} (hb : b < 256) (hc : c < 256) (hd : d < 256) :
    a <<< 24 ||| b <<< 16 ||| c <<< 8 ||| d = d + 256 * (c + 256 * (b + 256 * a)) := by
  simp only [shiftLeft_eq]
  have h1 : a * 2 ^ 24 ||| b * 2 ^ 16 = 2 ^ 16 * (2 ^ 8 * a + b) := by
    rw [mul_comm a, ← two_pow_add_eq_or_of_lt (by omega) a]
    ring
  have h2 : 2 ^ 16 * (2 ^ 8 * a + b) ||| c * 2 ^ 8 = 2 ^ 8 * (2 ^ 8 * (2 ^ 8 * a + b) + c) := by
    rw [← two_pow_add_eq_or_of_lt (by omega)]
    ring
  rw [h1, h2, ← two_pow_add_eq_or_of_lt (by omega)]
  ring

theorem toBytes_cons {d : ℕ} (hd : d < 256) (n x : ℕ) :
    toBytes (n + 1) (d + 256 * x) = UInt8.ofNat d :: toBytes n x := by
  have hdiv : (d + 256 * x) / 256 = x := by omega
  rw [toBytes, hdiv]
  congr 1
  apply UInt8.toNat_inj.mp
  rw [UInt8.toNat_ofNat', UInt8.toNat_ofNat']
  omega

theorem toBytes_swapEndian32 (v : ℕ) : toBytes 4 (swapEndian32 v) = (toBytes 4 v).reverse := by
  have hand a : a &&& 0xff = a % 256 := Nat.and_two_pow_sub_one_eq_mod a 8
  have hlt a : a % 256 < 256 := Nat.mod_lt _ (by decide)
  have hbyte a : UInt8.ofNat (a % 256) = UInt8.ofNat a := by
    apply UInt8.toNat_inj.mp
    rw [UInt8.toNat_ofNat', UInt8.toNat_ofNat', Nat.mod_mod]
  simp only [swapEndian32, hand]
  rw [join_bytes (hlt _) (hlt _) (hlt _), toBytes_cons (hlt _), toBytes_cons (hlt _),
    toBytes_cons (hlt _)]
  simp only [hbyte, toBytes, reverse_cons, reverse_nil, nil_append, cons_append,
    Nat.shiftRight_eq_div_pow, Nat.div_div_eq_div_mul]

/-- A number swapped on the host is stored in the target's order. -/
theorem encodeWord_swapToTargetEndian (host target : Bool) (v : ℕ) :
    encodeWord host 4 (swapToTargetEndian host target v) = encodeWord target 4 v := by
  cases host <;> cases target <;> simp [encodeWord, swapToTargetEndian, toBytes_swapEndian32]

theorem foldl_add (a : UInt8) (data : List UInt8) :
    data.foldl (· + ·) a = a + calcChecksum data := by
  induction data generalizing a with
  | nil => simp [calcChecksum]
  | cons b data ih =>
    have hcons : calcChecksum (b :: data) = b + calcChecksum data := by
      rw [calcChecksum, foldl_cons, ih, UInt8.zero_add]
    rw [foldl_cons, ih, hcons, UInt8.add_assoc]

theorem calcChecksum_append (xs ys : List UInt8) :
    calcChecksum (xs ++ ys) = calcChecksum xs + calcChecksum ys := by
  rw [calcChecksum, foldl_append, foldl_add]
  rfl

theorem calcChecksum_zeros (n : ℕ) : calcChecksum (replicate n 0) = 0 := by
  induction n with
  | zero => rfl
  | succ n ih => rw [replicate_succ, ← singleton_append, calcChecksum_append, ih]; rfl

def ImageFile.write (image : ImageFile) (offset : ℕ) (data : List UInt8) : ImageFile :=
  ⟨image.bytes.store offset data, if data = [] then image.size
    else max image.size (offset + data.length)⟩

theorem ImageFile.write_write (image : ImageFile) (offset : ℕ) {xs : List UInt8} (ys : List UInt8)
    (hne : xs ≠ []) : (image.write offset xs).write (offset + xs.length) ys =
    image.write offset (xs ++ ys) := by
  have hcat : xs ++ ys ≠ [] := by simp [hne]
  rw [write, write, write, store_append, length_append]
  congr 1
  dsimp only
  split_ifs with hys
  · rw [hys, length_nil, add_zero]
  · omega

/-- The chunks of a file add up to the file, unless the offset wraps. -/
theorem copyFile_spec {fuel : ℕ} :
    ∀ {rest : List UInt8} (image : ImageFile) (off size : ℕ) (sum : UInt8),
    rest.length / bufferSize < fuel → ∃ image', copyFile fuel rest image off size sum =
        some (image', u32 (size + rest.length), sum + calcChecksum rest) ∧
      (off + rest.length < 2 ^ 32 → image' = image.write off rest) := by
  induction fuel with
  | zero =>
    intro rest image off size sum hfuel
    exact absurd hfuel (not_lt_zero _)
  | succ fuel ih =>
    intro rest image off size sum hfuel
    rw [copyFile]
    by_cases hshort : rest.length < bufferSize
    · have htake : rest.take bufferSize = rest := take_of_length_le (le_of_lt hshort)
      rw [htake, if_pos hshort]
      exact ⟨_, rfl, fun _ => rfl⟩
    · have hlen : (rest.take bufferSize).length = bufferSize := by rw [length_take]; omega
      have hdrop : (rest.drop bufferSize).length = rest.length - bufferSize := length_drop
      have hne : rest.take bufferSize ≠ [] := by
        intro hnil
        rw [hnil] at hlen
        cases hlen
      have hsum : calcChecksum (rest.take bufferSize) + calcChecksum (rest.drop bufferSize) =
          calcChecksum rest := by
        rw [← calcChecksum_append, take_append_drop]
      rw [if_neg hshort]
      unfold bufferSize at *
      obtain ⟨image', hcopy, himage⟩ := @ih (rest.drop 512)
        (copyToImage image (rest.take 512) off).1 (u32 (off + (rest.take 512).length))
        (u32 (size + (rest.take 512).length)) (sum + (copyToImage image (rest.take 512) off).2) (by omega)
      have hsize : u32 (u32 (size + 512) + (rest.length - 512)) = u32 (size + rest.length) := by
        unfold u32
        omega
      have hcheck : sum + (copyToImage image (rest.take 512) off).2 + calcChecksum (rest.drop 512) =
          sum + calcChecksum rest := by
        rw [← hsum, ← UInt8.add_assoc]
        rfl
      refine ⟨image', ?_, fun hoff => ?_⟩
      · rw [hcheck, hlen, hdrop, hsize] at hcopy
        rw [hlen]
        exact hcopy
      · have hplace : u32 (off + (rest.take 512).length) = off + (rest.take 512).length := by
          unfold u32
          omega
        rw [hplace] at himage
        rw [himage (by omega)]
        exact (image.write_write off _ hne).trans (by rw [take_append_drop])

def InputFile.data (file : InputFile) : List UInt8 := file.contents.getD []

def pad8 (n : ℕ) : ℕ := (n + 7) / 8 * 8

def bodySize (files : List InputFile) : ℕ := (files.map fun file => pad8 file.data.length).sum

def totalSize (files : List InputFile) : ℕ := (files.map fun file => file.data.length).sum

def InputFile.padded (file : InputFile) : List UInt8 :=
  file.data ++ replicate (pad8 file.data.length - file.data.length) 0

def body (files : List InputFile) : List UInt8 := files.flatMap InputFile.padded

theorem InputFile.length_name (file : InputFile) : (extractFileName file.fullName).length = 20 :=
  length_extractFileName _

def recordOf (host target : Bool) (start : ℕ) (file : InputFile) : Record :=
  ⟨calcChecksum file.data, swapToTargetEndian host target start,
    swapToTargetEndian host target (pad8 file.data.length), extractFileName file.fullName,
    file.length_name⟩

def recordsOf (host target : Bool) : ℕ → List InputFile → List Record
  | _, [] => []
  | start, file :: files =>
    recordOf host target start file :: recordsOf host target (start + pad8 file.data.length) files

/-- The size of the image file after the contents of files from `start` on. -/
def writtenEnd : ℕ → ℕ → List InputFile → ℕ
  | size, _, [] => size
  | size, start, file :: files =>
    writtenEnd (if file.data = [] then size else max size (start + file.data.length))
      (start + pad8 file.data.length) files

variable {host target : Bool} {file : InputFile} {files : List InputFile}

theorem bodySize_cons : bodySize (file :: files) = pad8 file.data.length + bodySize files := by
  simp [bodySize]

theorem totalSize_cons : totalSize (file :: files) = file.data.length + totalSize files := by
  simp [totalSize]

theorem bodySize_le : bodySize files ≤ totalSize files + 7 * files.length := by
  induction files with
  | nil => rfl
  | cons file files ih =>
    rw [bodySize_cons, totalSize_cons, length_cons]
    unfold pad8
    omega

theorem length_padded : file.padded.length = pad8 file.data.length := by
  rw [InputFile.padded, length_append, length_replicate]
  unfold pad8
  omega

theorem length_body : (body files).length = bodySize files := by
  induction files with
  | nil => rfl
  | cons file files ih => rw [body, flatMap_cons, length_append, length_padded, bodySize_cons, ← ih, body]

theorem length_recordsOf (start : ℕ) :
    (recordsOf host target start files).length = files.length := by
  induction files generalizing start with
  | nil => rfl
  | cons file files ih => rw [recordsOf, length_cons, length_cons, ih]

variable {n : ℕ}

theorem refineSize_u32 (hn : n < 2 ^ 31) : refineSize (u32 n) = pad8 n := by
  rw [refineSize]
  unfold pad8 u32
  split_ifs <;> omega

/-- What one file adds to the image; the bytes are in place unless the offset wraps. -/
theorem processFile_spec (w : Writer) (hlen : file.data.length < 2 ^ 31) : ∃ image,
    processFile host target w file = some ⟨image, u32 (w.curOffset + pad8 file.data.length),
      u32 (w.imageSize + pad8 file.data.length), w.records ++ recordsOf host target w.curOffset [file]⟩ ∧
    (w.curOffset + file.data.length < 2 ^ 32 → image = w.image.write w.curOffset file.data) := by
  obtain ⟨image, hcopy, himage⟩ : ∃ image,
      copyInput w.image w.curOffset file.contents = some (image, u32 file.data.length,
      calcChecksum file.data) ∧
        (w.curOffset + file.data.length < 2 ^ 32 → image = w.image.write w.curOffset file.data) := by
    rw [InputFile.data]
    cases file.contents with
    | none => exact ⟨w.image, rfl, fun _ => by simp [ImageFile.write, store_nil]⟩
    | some contents =>
      obtain ⟨image, hcopy, himage⟩ :=
        copyFile_spec w.image w.curOffset 0 0 (lt_succ_self (contents.length / bufferSize))
      rw [zero_add, UInt8.zero_add] at hcopy
      exact ⟨image, hcopy, himage⟩
  refine ⟨image, ?_, himage⟩
  rw [processFile, hcopy]
  simp [refineSize_u32 hlen, recordsOf, recordOf]

variable {m : ByteMem}

/-- The padding of a file is a hole of the image. -/
theorem store_padded (hzero : ∀ x, a ≤ x → m x = 0) :
    m.store a file.padded = m.store a file.data := by
  rw [InputFile.padded, ← store_append]
  refine store_zeros fun x hx => ?_
  rw [store_outside (.inr hx)]
  exact hzero x (by omega)

theorem processFiles_sizes (w : Writer) (ht : totalSize files < 2 ^ 31)
    (hw : w.imageSize < 2 ^ 32) : ∃ w', processFiles host target w files = some w' ∧
    w'.imageSize = u32 (w.imageSize + bodySize files) ∧
      w'.records.length = w.records.length + files.length := by
  induction files generalizing w with
  | nil => exact ⟨w, rfl, (mod_eq_of_lt hw).symm, rfl⟩
  | cons file files ih =>
    rw [totalSize_cons] at ht
    obtain ⟨image, hfile, _⟩ := @processFile_spec host target file w (by omega)
    rw [processFiles, hfile, bodySize_cons]
    obtain ⟨w', hrun, hsize, hlen⟩ := ih ⟨image, u32 (w.curOffset + pad8 file.data.length),
      u32 (w.imageSize + pad8 file.data.length), w.records ++ recordsOf host target w.curOffset [file]⟩
      (by omega) (mod_lt _ (by decide))
    refine ⟨w', hrun, ?_, ?_⟩
    · rw [hsize]
      dsimp only
      unfold u32
      omega
    · rw [hlen, length_append, length_recordsOf]
      simp only [length_cons, length_nil]
      omega

theorem processFiles_spec (w : Writer) (ht : totalSize files < 2 ^ 31)
    (hzero : ∀ x, w.curOffset ≤ x → w.image.bytes x = 0)
    (hoff : w.curOffset + bodySize files < 2 ^ 32) (hsize : w.imageSize + bodySize files < 2 ^ 32) :
    processFiles host target w files = some
      ⟨⟨w.image.bytes.store w.curOffset (body files), writtenEnd w.image.size w.curOffset files⟩,
        w.curOffset + bodySize files, w.imageSize + bodySize files,
        w.records ++ recordsOf host target w.curOffset files⟩ := by
  induction files generalizing w with
  | nil =>
    rw [body, flatMap_nil, store_nil, recordsOf, append_nil]
    rfl
  | cons file files ih =>
    rw [totalSize_cons] at ht
    rw [bodySize_cons] at hoff hsize
    have hpad : file.data.length ≤ pad8 file.data.length := by
      unfold pad8
      omega
    obtain ⟨image, hfile, himage⟩ := @processFile_spec host target file w (by omega)
    have hoff' : u32 (w.curOffset + pad8 file.data.length) = w.curOffset + pad8 file.data.length :=
      mod_eq_of_lt (by omega)
    have hsize' : u32 (w.imageSize + pad8 file.data.length) = w.imageSize + pad8 file.data.length :=
      mod_eq_of_lt (by omega)
    rw [himage (by omega), hoff', hsize', ImageFile.write, ← store_padded hzero] at hfile
    rw [processFiles, hfile]
    refine (ih _ (by omega) (fun x hx => ?_) (by simp only; omega) (by simp only; omega)).trans ?_
    · dsimp only at hx ⊢
      rw [store_outside (.inr (by rw [length_padded]; exact hx))]
      exact hzero x (by omega)
    · simp only [← length_padded, store_append, body, flatMap_cons]
      rw [length_padded, bodySize_cons, writtenEnd, recordsOf, recordsOf, recordsOf]
      simp [add_assoc]

variable {junk : ℕ → UInt8}

theorem length_headerBytes (fileCount imageSize : ℕ) :
    (headerBytes host target junk fileCount imageSize).length = 32 := by
  simp [headerBytes]

theorem length_recordBytes (place : ℕ) (r : Record) :
    (recordBytes host junk place r).length = 32 := by
  simp [recordBytes, r.fileNameLength]

theorem length_recordsBytes (place : ℕ) (records : List Record) :
    (recordsBytes host junk place records).length = records.length * 32 := by
  induction records generalizing place with
  | nil => rfl
  | cons r records ih =>
    rw [recordsBytes, length_append, length_recordBytes, ih, length_cons]
    omega

def fatSize (files : List InputFile) : ℕ := (files.length + 1) * 32

/-- The word of the header that holds the size of the image. -/
theorem imageSize_word {fileCount imageSize : ℕ} {rest : List UInt8}
    (h : m.load a (headerBytes host target junk fileCount imageSize ++ rest).length =
      headerBytes host target junk fileCount imageSize ++ rest) (hlt : imageSize < 2 ^ 32) :
    decodeWord target (m.load (a + 8) 4) = imageSize ∧
      decodeWord target (m.load (a + 4) 4) = u32 fileCount := by
  have hsplit := h
  simp only [headerBytes, append_assoc, encodeWord_swapToTargetEndian] at hsplit
  have hcount := load_middle hsplit
  rw [← append_assoc] at hsplit
  have hsize := load_middle hsplit
  simp only [length_append, length_encodeWord] at hcount hsize
  rw [hcount, hsize, decodeWord_encodeWord, decodeWord_encodeWord]
  exact ⟨mod_eq_of_lt hlt, rfl⟩

theorem genImage_size {img : ImageFile} (ht : totalSize files < 2 ^ 31)
    (h : genImage host target junk files = some img) :
    fatSize files < 2 ^ 32 ∧ fatSize files ≤ img.size ∧
      decodeWord target (img.bytes.load 8 4) = u32 (fatSize files + bodySize files) := by
  rw [genImage] at h
  split_ifs at h with hwrap
  have hfat : u32 ((files.length + 1) * 32) = fatSize files := by
    unfold fatSize u32 at *
    omega
  have hlt : fatSize files < 2 ^ 32 := hfat ▸ mod_lt _ (by decide)
  obtain ⟨w, hrun, hsize, hlen⟩ :=
    @processFiles_sizes host target files ⟨⟨fun _ => 0, 0⟩, fatSize files, fatSize files, []⟩ ht hlt
  rw [hfat, hrun] at h
  cases h
  have hfatlen : (headerBytes host target junk files.length w.imageSize ++
    recordsBytes host junk 32 w.records).length =
      fatSize files := by
    rw [length_append, length_headerBytes, length_recordsBytes, hlen, length_nil, fatSize]
    omega
  refine ⟨hlt, ?_, ?_⟩
  · dsimp only [copyToImage]
    have hne : headerBytes host target junk files.length w.imageSize ++
        recordsBytes host junk 32 w.records ≠ [] := by
      intro hnil
      rw [hnil, length_nil] at hfatlen
      omega
    rw [if_neg hne]
    omega
  · have hload := load_store w.image.bytes 0
      (headerBytes host target junk files.length w.imageSize ++ recordsBytes host junk 32 w.records)
    have hword := (imageSize_word hload (hsize ▸ mod_lt _ (by decide))).1
    exact hword.trans hsize

/-- The FAT of files whose image does not wrap. -/
def fatOf (host target : Bool) (junk : ℕ → UInt8) (files : List InputFile) : List UInt8 :=
  headerBytes host target junk files.length (fatSize files + bodySize files) ++
    recordsBytes host junk 32 (recordsOf host target (fatSize files) files)

theorem length_fatOf : (fatOf host target junk files).length = fatSize files := by
  rw [fatOf, length_append, length_headerBytes, length_recordsBytes, length_recordsOf, fatSize]
  omega

def zeroMem : ByteMem := fun _ => 0

def imageOf (host target : Bool) (junk : ℕ → UInt8) (files : List InputFile) : ImageFile :=
  ⟨(zeroMem.store (fatSize files) (body files)).store 0 (fatOf host target junk files),
    max (writtenEnd 0 (fatSize files) files) (fatSize files)⟩

theorem genImage_eq (ht : totalSize files < 2 ^ 31)
    (hfits : fatSize files + bodySize files < 2 ^ 32) :
    genImage host target junk files = some (imageOf host target junk files) := by
  have hfat : u32 ((files.length + 1) * 32) = fatSize files :=
    mod_eq_of_lt (by unfold fatSize at hfits; omega)
  have hne : fatOf host target junk files ≠ [] := by
    intro hnil
    have hlen := @length_fatOf host target files junk
    rw [hnil, length_nil, fatSize] at hlen
    omega
  have hrun := @processFiles_spec host target files ⟨⟨zeroMem, 0⟩, fatSize files,
    fatSize files, []⟩ ht (fun _ _ => rfl) hfits hfits
  rw [genImage]
  rw [hfat, if_neg (by rw [fatSize]; exact lt_irrefl _)]
  refine (congrArg (· >>= _) hrun).trans ?_
  change some (copyToImage _ (fatOf host target junk files) 0).1 = _
  rw [copyToImage, if_neg hne, length_fatOf, zero_add]
  rfl

def lastWritten (files : List InputFile) : Option InputFile :=
  (files.filter fun file => file.data ≠ []).getLast?

theorem max_writtenEnd (size start k : ℕ) :
    max (writtenEnd size start files) k = writtenEnd (max size k) start files := by
  induction files generalizing size start with
  | nil => rfl
  | cons file files ih =>
    rw [writtenEnd, writtenEnd, ih]
    split_ifs
    · rfl
    · rw [max_right_comm]

/-- The image ends with the padding of the last file exactly if there is none to write. -/
theorem writtenEnd_eq_iff {size start : ℕ} (hsize : size ≤ start) :
    writtenEnd size start files = start + bodySize files ↔
      (lastWritten files = none → size = start) ∧ ∀ file ∈ lastWritten files,
      file.data.length % 8 = 0 := by
  induction files generalizing size start with
  | nil => simp [writtenEnd, bodySize, lastWritten]
  | cons file files ih =>
    rw [writtenEnd, bodySize_cons, ← add_assoc]
    by_cases hnil : file.data = []
    · have hlast : lastWritten (file :: files) = lastWritten files := by simp [lastWritten, hnil]
      rw [hlast, hnil]
      exact ih hsize
    · have hlast : lastWritten (file :: files) = some ((lastWritten files).getD file) := by
        simp [lastWritten, hnil, getLast?_cons]
      have hmax : max size (start + file.data.length) = start + file.data.length := by omega
      have hpad : start + file.data.length ≤ start + pad8 file.data.length := by
        unfold pad8
        omega
      rw [if_neg hnil, hmax, ih hpad, hlast]
      cases lastWritten files with
      | none =>
        simp only [true_implies, mem_def, reduceCtorEq, false_implies, implies_true, and_true,
          true_and, getD_none, some.injEq, forall_eq']
        unfold pad8
        omega
      | some last => simp

def baseName (fullName : List UInt8) : List UInt8 :=
  (fullName.reverse.takeWhile fun ch => !isSlash ch).reverse

theorem baseName_concat (xs : List UInt8) (ch : UInt8) :
    baseName (xs ++ [ch]) = if isSlash ch then [] else baseName xs ++ [ch] := by
  cases h : isSlash ch <;> simp [baseName, h]

theorem drop_nameStart (fullName : List UInt8) (i : ℕ) :
    fullName.drop (nameStart fullName i) = baseName (fullName.take (i + 1)) ++
    fullName.drop (i + 1) := by
  induction i with
  | zero =>
    cases fullName with
    | nil => rfl
    | cons ch rest =>
      have htake : (ch :: rest).take (0 + 1) = [] ++ [ch] := rfl
      rw [nameStart, getD_cons_zero, htake, baseName_concat]
      split_ifs <;> rfl
  | succ i ih =>
    by_cases hi : i + 1 < fullName.length
    · have hget : fullName.getD (i + 1) 0 = fullName[i + 1] := by
        rw [getD_eq_getElem?_getD, getElem?_eq_getElem hi, getD_some]
      rw [nameStart, hget, take_succ_eq_append_getElem hi, baseName_concat]
      split_ifs with hslash
      · rfl
      · rw [ih, append_assoc, singleton_append, ← drop_eq_getElem_cons hi]
    · have hget : fullName.getD (i + 1) 0 = 0 := by
        rw [getD_eq_getElem?_getD, getElem?_eq_none (by omega), getD_none]
      have hzero : isSlash 0 = false := by decide
      have hle : fullName.length ≤ i + 1 := by omega
      rw [nameStart, hget, hzero, if_neg (by simp), ih, take_of_length_le hle,
        take_of_length_le (by omega), drop_eq_nil_of_le hle, drop_eq_nil_of_le (by omega)]

variable {fullName : List UInt8}

theorem extractFileName_eq (hlen : (baseName fullName).length ≤ 19) :
    extractFileName fullName = baseName fullName ++
    replicate (20 - (baseName fullName).length) 0 := by
  have hdrop := drop_nameStart fullName fullName.length
  have hend : fullName.length ≤ fullName.length + 1 := le_succ _
  rw [take_of_length_le hend, drop_eq_nil_of_le hend, append_nil] at hdrop
  have hlength : fullName.length - nameStart fullName fullName.length = (baseName fullName).length := by
    rw [← hdrop, length_drop]
  rw [extractFileName, hlength, if_neg (by omega), hdrop, take_length]

theorem zero_not_mem_baseName (h : 0 ∉ fullName) : 0 ∉ baseName fullName := by
  intro hmem
  rw [baseName, mem_reverse] at hmem
  exact h (mem_reverse.mp (( takeWhile_prefix _).subset hmem))

/-- A string is told from one in a zeroed array by its characters. -/
theorem strncmp_eq_false_iff {k : ℕ} : ∀ {s1 s2 : List UInt8}, 0 ∉ s1 → 0 ∉ s2 → s1.length < n →
    s2.length < n → (strncmp s1 (s2 ++ replicate k 0) n = false ↔ s1 = s2) := by
  have hpad : (replicate k (0 : UInt8)).head?.getD 0 = 0 := by cases k <;> rfl
  induction n with
  | zero =>
    intro s1 s2 _ _ h1
    exact absurd h1 (not_lt_zero _)
  | succ n ih =>
    intro s1 s2 hz1 hz2 hl1 hl2
    cases s1 with
    | nil =>
      cases s2 with
      | nil => simp [strncmp, hpad]
      | cons b bs =>
        have hb : b ≠ 0 := fun h => hz2 (h ▸ mem_cons_self)
        simp [strncmp, hb, hb.symm]
    | cons a as =>
      have ha : a ≠ 0 := fun h => hz1 (h ▸ mem_cons_self)
      cases s2 with
      | nil => simp [strncmp, hpad, ha]
      | cons b bs =>
        have hrest := @ih as bs (fun h => hz1 (mem_cons_of_mem _ h))
          (fun h => hz2 (mem_cons_of_mem _ h)) (by simpa using hl1) (by simpa using hl2)
        by_cases hab : a = b
        · subst hab
          have hstep : strncmp (a :: as) (a :: bs ++ replicate k 0) (n + 1) =
              strncmp as (bs ++ replicate k 0) n := by simp [strncmp, ha]
          rw [hstep, hrest, cons.injEq, eq_self, true_and]
        · simp [strncmp, ha, hab]

theorem recordsOf_append (start : ℕ) (pre post : List InputFile) :
    recordsOf host target start (pre ++ post) =
    recordsOf host target start pre ++ recordsOf host target (start + bodySize pre) post := by
  induction pre generalizing start with
  | nil => rfl
  | cons file pre ih => rw [cons_append, recordsOf, recordsOf, ih, bodySize_cons, add_assoc, cons_append]

theorem recordsBytes_append (place : ℕ) (xs ys : List Record) :
    recordsBytes host junk place (xs ++ ys) =
    recordsBytes host junk place xs ++ recordsBytes host junk (place + xs.length * 32) ys := by
  induction xs generalizing place with
  | nil => simp [recordsBytes]
  | cons r xs ih =>
    have hplace : place + 32 + xs.length * 32 = place + (r :: xs).length * 32 := by
      rw [length_cons]; omega
    rw [cons_append, recordsBytes, recordsBytes, ih, hplace, append_assoc]

def startOf (files : List InputFile) (idx : ℕ) : ℕ := fatSize files + bodySize (files.take idx)

variable {idx : ℕ}

theorem split_at (h : files[idx]? = some file) :
    files = files.take idx ++ file :: files.drop (idx + 1) ∧ (files.take idx).length = idx := by
  obtain ⟨hlt, rfl⟩ := List.getElem?_eq_some_iff.mp h
  rw [← List.drop_eq_getElem_cons hlt, List.take_append_drop, List.length_take]
  exact ⟨rfl, by omega⟩

theorem startOf_add_le (h : files[idx]? = some file) :
    startOf files idx + pad8 file.data.length ≤ fatSize files + bodySize files := by
  have hbody : bodySize files = bodySize (files.take idx) + bodySize (file :: files.drop (idx + 1)) := by
    nth_rewrite 1 [(split_at h).1]
    simp [bodySize]
  rw [hbody, bodySize_cons, startOf]
  omega

theorem record_fields {place : ℕ} {r : Record} (h : m.load a 32 = recordBytes host junk place r) :
    m a = r.checksum ∧ m.load (a + 4) 4 = encodeWord host 4 r.startOffset ∧
      m.load (a + 8) 4 = encodeWord host 4 r.length ∧ m.load (a + 12) 20 = r.fileName := by
  rw [recordBytes] at h
  have hstart := h
  rw [← append_assoc] at hstart
  have hlength := hstart
  rw [← append_assoc] at hlength
  have hname := hlength
  rw [← append_assoc, ← append_nil r.fileName] at hname
  have hstart' := load_middle hstart
  have hlength' := load_middle hlength
  have hname' := load_middle hname
  simp only [length_append, length_encodeWord, r.fileNameLength] at hstart' hlength' hname'
  refine ⟨?_, hstart', hlength', hname'⟩
  have hhead := congrArg head? h
  simpa [load, range_succ_eq_map] using hhead

theorem recordsOf_split (h : files[idx]? = some file) (start : ℕ) :
    recordsOf host target start files = recordsOf host target start (files.take idx) ++
      recordOf host target (start + bodySize (files.take idx)) file ::
        recordsOf host target (start + bodySize (files.take idx) + pad8 file.data.length)
        (files.drop (idx + 1)) := by
  conv_lhs => rw [(split_at h).1]
  rw [recordsOf_append, recordsOf]

section Memory

variable {A : Arch} {mem : ByteMem} {coreimg idx : ℕ}

section

variable (hm : mem.load coreimg (fatSize files) = fatOf host A.big junk files)
  (hfits : fatSize files + bodySize files < 2 ^ 32)
include hm hfits

/-- What the reader sees in the record of a file. -/
theorem fat_record (hi : files[idx]? = some file) :
    mem (recordAddr coreimg idx) = calcChecksum file.data ∧
      loadU32 A mem (recordAddr coreimg idx + 4) = startOf files idx ∧
      loadU32 A mem (recordAddr coreimg idx + 8) = pad8 file.data.length ∧
      mem.load (recordAddr coreimg idx + 12) 20 = extractFileName file.fullName := by
  have hle := startOf_add_le hi
  have hlen := (split_at hi).2
  rw [fatOf, recordsOf_split hi, recordsBytes_append, ← append_assoc] at hm
  have hrec := load_middle hm
  rw [length_append, length_headerBytes, length_recordsBytes, length_recordsOf, hlen,
    length_recordBytes] at hrec
  obtain ⟨hsum, hstart, hlength, hname⟩ := record_fields hrec
  simp only [recordOf, encodeWord_swapToTargetEndian] at hstart hlength
  rw [recordAddr, add_assoc, loadU32, loadU32, hstart, hlength, decodeWord_encodeWord,
    decodeWord_encodeWord]
  exact ⟨hsum, mod_eq_of_lt (by unfold startOf at hle; omega), mod_eq_of_lt (by omega), hname⟩

theorem fat_fileCount : fileCount A mem coreimg = files.length := by
  have hlen := @length_fatOf host A.big files junk
  rw [← hlen] at hm
  have hcount := (imageSize_word hm hfits).2
  rw [fileCount, loadU32, hcount]
  unfold fatSize at hfits
  unfold u32
  split_ifs <;> omega

end

/-- The image in memory at `coreimg`, with anything around it. -/
structure InMemory (A : Arch) (img : ImageFile) (mem : ByteMem) (coreimg : ℕ) : Prop where
  fits : coreimg + img.size ≤ A.ulong
  same : ∀ k < img.size, mem (coreimg + k) = img.bytes k

theorem InMemory.load {img : ImageFile} (h : InMemory A img mem coreimg) (hn : a + n ≤ img.size) :
    mem.load (coreimg + a) n = img.bytes.load a n := by
  refine load_eq_iff.mpr fun i hi => ?_
  rw [add_assoc]
  exact h.same _ (by omega)

theorem imageOf_fat : (imageOf host target junk files).bytes.load 0 (fatSize files) =
    fatOf host target junk files := by
  have hload := load_store (zeroMem.store (fatSize files) (body files)) 0
    (fatOf host target junk files)
  rw [length_fatOf] at hload
  exact hload

theorem imageOf_padded (hi : files[idx]? = some file) :
    (imageOf host target junk files).bytes.load (startOf files idx)
    (pad8 file.data.length) = file.padded := by
  have hbody : (imageOf host target junk files).bytes.load (fatSize files) (body files).length =
      body files := by
    rw [imageOf]
    rw [load_store_apart (.inl (by rw [length_fatOf, zero_add]))]
    exact load_store _ _ _
  have hsplit : body files = body (files.take idx) ++ (file.padded ++ body (files.drop (idx + 1))) := by
    conv_lhs => rw [(split_at hi).1]
    simp [body]
  nth_rewrite 2 [hsplit] at hbody
  have hmid := load_middle hbody
  rw [length_body, length_padded] at hmid
  exact hmid

theorem addInt_eq {v : ℕ} (hwide : A.wide → v < 2 ^ 31) (hfits : coreimg + v < A.ulong) :
    addInt A coreimg v = coreimg + v := by
  rw [addInt]
  split_ifs with hlow
  · exact mod_eq_of_lt hfits
  · have hnarrow : A.ulong = 2 ^ 32 := by
      have hw : A.wide = false := by
        cases h : A.wide
        · rfl
        · exact absurd (hwide h) hlow
      simp [Arch.ulong, Arch.bytes, hw]
    rw [hnarrow, Nat.sub_self, Nat.zero_add]
    exact Nat.mod_eq_of_lt (hnarrow ▸ hfits)

def Recovered (A : Arch) (mem : ByteMem) (coreimg idx : ℕ) (file : InputFile) : Prop :=
  coreimgFindFileIdx A mem coreimg (baseName file.fullName) = some idx ∧
    ∃ data size, coreimgFindFile A mem coreimg (baseName file.fullName) = some data ∧
      coreimgGetFile2 A mem coreimg idx = some (data, size) ∧ file.data.length ≤ size ∧
      mem.load data file.data.length = file.data ∧ coreimgIsChecksumCorrect A mem coreimg idx = true

theorem findFileIdx_eq (hm : mem.load coreimg (fatSize files) = fatOf host A.big junk files)
    (hfits : fatSize files + bodySize files < 2 ^ 32)
    (hshort : ∀ file ∈ files, (baseName file.fullName).length ≤ 19)
    (hnames : (files.map fun file => baseName file.fullName).Nodup) (hi : files[idx]? = some file) :
    coreimgFindFileIdx A mem coreimg (baseName file.fullName) = some idx := by
  have hmem := List.mem_of_getElem? hi
  have hmatch {j : ℕ} {other : InputFile} (hj : files[j]? = some other) :
      strncmp (baseName file.fullName) (mem.load (recordAddr coreimg j + 12) 20) 20 = false ↔
        baseName file.fullName = baseName other.fullName := by
    have hother := List.mem_of_getElem? hj
    rw [(fat_record hm hfits hj).2.2.2, extractFileName_eq (hshort other hother)]
    exact strncmp_eq_false_iff (zero_not_mem_baseName file.noNul) (zero_not_mem_baseName other.noNul)
      (lt_succ_of_le (hshort file hmem)) (lt_succ_of_le (hshort other hother))
  have hidx := (List.getElem?_eq_some_iff.mp hi).1
  rw [coreimgFindFileIdx, fat_fileCount hm hfits, List.find?_range_eq_some]
  refine ⟨by simp [(hmatch hi).mpr rfl], by simpa using hidx, fun j hj => ?_⟩
  have hjlt : j < files.length := by omega
  have hne : strncmp (baseName file.fullName) (mem.load (recordAddr coreimg j + 12) 20) 20 ≠ false := by
    intro hsame
    have hname := (hmatch (getElem?_eq_getElem hjlt)).mp hsame
    have hsame' : (files.map fun file => baseName file.fullName)[j]? =
        (files.map fun file => baseName file.fullName)[idx]? := by
      rw [getElem?_map, getElem?_map, hi, getElem?_eq_getElem hjlt, map_some, map_some, hname]
    have heq := (getElem?_inj (by rwa [length_map]) hnames).mp hsame'
    omega
  simpa using hne

theorem padded_prefix (h : m.load a (pad8 file.data.length) = file.padded) :
    m.load a file.data.length = file.data := by
  have hsplit : pad8 file.data.length =
      file.data.length + (pad8 file.data.length - file.data.length) := by
    unfold pad8
    omega
  rw [hsplit, load_add] at h
  exact (append_inj h (length_load ..)).1

/-- Every file is recovered where the whole padded image is in memory. -/
theorem recovered_of_image (hfits : fatSize files + bodySize files < 2 ^ 32)
    (hshort : ∀ file ∈ files, (baseName file.fullName).length ≤ 19)
    (hnames : (files.map fun file => baseName file.fullName).Nodup)
    (hm : InMemory A (imageOf host A.big junk files) mem coreimg)
    (hsize : (imageOf host A.big junk files).size = fatSize files + bodySize files)
    (hi : files[idx]? = some file) (hnear : file.data ≠ [] → A.wide → startOf files idx < 2 ^ 31) :
    Recovered A mem coreimg idx file := by
  have hfat : mem.load coreimg (fatSize files) = fatOf host A.big junk files := by
    rw [← imageOf_fat, ← hm.load (by omega), add_zero]
  have hfind := findFileIdx_eq hfat hfits hshort hnames hi
  obtain ⟨hsum, hstart, hlength, _⟩ := fat_record hfat hfits hi
  have hidx := (List.getElem?_eq_some_iff.mp hi).1
  have hget : coreimgGetFile2 A mem coreimg idx = some (recordData A mem coreimg idx,
      pad8 file.data.length) := by
    rw [coreimgGetFile2, fat_fileCount hfat hfits, if_neg (by omega), hlength]
  have hle := startOf_add_le hi
  have hpadded : mem.load (recordData A mem coreimg idx) (pad8 file.data.length) = file.padded := by
    by_cases hnil : file.data = []
    · simp [InputFile.padded, hnil, pad8, load]
    · have hpos : 0 < pad8 file.data.length := by
        have hlen := length_pos_iff.mpr hnil
        unfold pad8
        omega
      have hin := hm.fits
      rw [recordData, hstart, addInt_eq (hnear hnil) (by omega), hm.load (by omega)]
      exact imageOf_padded hi
  refine ⟨hfind, recordData A mem coreimg idx, pad8 file.data.length, ?_, hget, ?_,
    padded_prefix hpadded, ?_⟩
  · rw [coreimgFindFile, hfind, map_some]
  · unfold pad8
    omega
  · rw [coreimgIsChecksumCorrect, hget, getD_some, hpadded, hsum, foldl_add, InputFile.padded,
      calcChecksum_append, calcChecksum_zeros]
    simp

/-- A far file that is not empty is not recovered on a wide machine: its offset is negative as an
`int`. -/
theorem not_recovered_of_far (hwide : A.wide = true)
    (hfits : fatSize files + bodySize files < 2 ^ 32)
    (hsize : (imageOf host A.big junk files).size = fatSize files + bodySize files)
    (hi : files[idx]? = some file) (hne : file.data ≠ []) (hfar : 2 ^ 31 ≤ startOf files idx) :
    ∃ mem coreimg, InMemory A (imageOf host A.big junk files) mem coreimg ∧
      ¬Recovered A mem coreimg idx file := by
  have hulong : A.ulong = 2 ^ 64 := by simp [Arch.ulong, Arch.bytes, hwide]
  obtain ⟨c, rest, hdata⟩ := List.exists_cons_of_ne_nil hne
  -- The byte before the image differs from the first byte of the file.
  let mem : ByteMem := fun a => if 2 ^ 32 ≤ a
    then (imageOf host A.big junk files).bytes (a - 2 ^ 32) else c + 1
  have hm : InMemory A (imageOf host A.big junk files) mem (2 ^ 32) := by
    refine ⟨by omega, fun k _ => ?_⟩
    simp [mem]
  refine ⟨mem, 2 ^ 32, hm, fun h => ?_⟩
  have hfat : mem.load (2 ^ 32) (fatSize files) = fatOf host A.big junk files := by
    rw [← imageOf_fat, ← hm.load (by omega), add_zero]
  obtain ⟨_, hstart, _⟩ := fat_record hfat hfits hi
  have hle := startOf_add_le hi
  obtain ⟨_, data, size, _, hget, _, hload, _⟩ := h
  have hidx := (List.getElem?_eq_some_iff.mp hi).1
  rw [coreimgGetFile2, fat_fileCount hfat hfits, if_neg (by omega), some.injEq,
    Prod.mk.injEq] at hget
  have hplace : data = startOf files idx := by
    rw [← hget.1, recordData, addInt, if_neg (by omega), hulong]
    omega
  have hhead := congrArg List.head? hload
  have hlow : ¬2 ^ 32 ≤ startOf files idx := by omega
  rw [hdata, hplace, load, length_cons, range_succ_eq_map] at hhead
  simp only [map_cons, add_zero, mem, hlow] at hhead
  exact absurd hhead (by simp)

end Memory

/-- The image has the size its header gives, and the reader recovers every file from it, whatever is
around it. -/
def RoundTrip (A : Arch) (host : Bool) (junk : ℕ → UInt8) (files : List InputFile) : Prop :=
  ∃ img, genImage host A.big junk files = some img ∧
    decodeWord A.big (img.bytes.load 8 4) = img.size ∧
    ∀ mem coreimg, InMemory A img mem coreimg → ∀ idx file, files[idx]? = some file →
    Recovered A mem coreimg idx file

/-- The image is below 4 GiB, no file that is not empty starts above 2 GiB on a wide machine, and
the last file that is not empty needs no padding. -/
structure CoreimgFits (A : Arch) (files : List InputFile) : Prop where
  fits : fatSize files + bodySize files < 2 ^ 32
  near : A.wide = true → ∀ idx file, files[idx]? = some file → file.data ≠ [] →
    startOf files idx < 2 ^ 31
  whole : ∀ file ∈ lastWritten files, file.data.length % 8 = 0

theorem imageOf_size_iff {junk : ℕ → UInt8} :
    (imageOf host target junk files).size = fatSize files + bodySize files ↔
    ∀ file ∈ lastWritten files, file.data.length % 8 = 0 := by
  rw [imageOf]
  rw [max_writtenEnd, zero_max, writtenEnd_eq_iff le_rfl]
  simp

theorem coreimg_round_trip_iff (A : Arch) (host : Bool) (junk : ℕ → UInt8) (files : List InputFile)
    (hshort : ∀ file ∈ files, (baseName file.fullName).length ≤ 19)
    (hnames : (files.map fun file => baseName file.fullName).Nodup) (ht : totalSize files < 2 ^ 31) :
    RoundTrip A host junk files ↔ CoreimgFits A files := by
  constructor
  · rintro ⟨img, hgen, hhead, hread⟩
    obtain ⟨hfat, hle, hword⟩ := genImage_size ht hgen
    have hfits : fatSize files + bodySize files < 2 ^ 32 := by
      have hbody := @bodySize_le files
      have hsize : u32 (fatSize files + bodySize files) = img.size := hword.symm.trans hhead
      unfold fatSize u32 at *
      omega
    have himg : img = imageOf host A.big junk files := some.inj (hgen.symm.trans (genImage_eq ht hfits))
    subst himg
    have hsize : (imageOf host A.big junk files).size = fatSize files + bodySize files := by
      rw [← hhead, hword]
      exact mod_eq_of_lt hfits
    refine ⟨hfits, fun hwide idx file hi hne => ?_, imageOf_size_iff.mp hsize⟩
    by_contra hfar
    obtain ⟨mem, coreimg, hm, hnot⟩ := not_recovered_of_far hwide hfits hsize hi hne (not_lt.mp hfar)
    exact hnot (hread mem coreimg hm idx file hi)
  · rintro ⟨hfits, hnear, hwhole⟩
    have hgen := @genImage_eq host A.big files junk ht hfits
    have hsize := (@imageOf_size_iff host A.big files junk).mpr hwhole
    have hword := (genImage_size ht hgen).2.2
    refine ⟨_, hgen, ?_, fun mem coreimg hm idx file hi => ?_⟩
    · rw [hword, hsize]
      exact mod_eq_of_lt hfits
    · exact recovered_of_image hfits hshort hnames hm hsize hi fun hne hwide =>
        hnear hwide idx file hi hne

def twoFiles : List InputFile :=
  [⟨[98, 47, 97], by decide, some [1, 2, 3]⟩, ⟨[98], by decide, some [1, 2, 3, 4, 5, 6, 7, 8]⟩]

theorem coreimg_round_trip_of_two_files : RoundTrip ⟨true, true⟩ false (fun _ => 0) twoFiles := by
  refine (coreimg_round_trip_iff ⟨true, true⟩ false (fun _ =>
    0) twoFiles (by decide) (by decide) (by decide)).mpr
    ⟨by decide, fun _ idx file hi _ => ?_, by decide⟩
  have hle := startOf_add_le hi
  have hsize : fatSize twoFiles + bodySize twoFiles = 112 := by decide
  omega

/-- The padding of a single byte is not written: the image is 65 bytes long, and its header says
72. -/
theorem last_padding_not_written :
    ¬RoundTrip ⟨true, false⟩ false (fun _ => 0) [⟨[97], by decide, some [1]⟩] := by
  rintro ⟨img, hgen, hhead, _⟩
  have himg := some.inj (hgen.symm.trans (genImage_eq (by decide) (by decide)))
  have hword := (genImage_size (by decide) hgen).2.2
  rw [hhead, himg] at hword
  have hsize : (imageOf false false (fun _ => 0) [⟨[97], by decide, some [1]⟩]).size = 65 := rfl
  rw [hsize] at hword
  revert hword
  decide

end Coreimg

end Toddler
