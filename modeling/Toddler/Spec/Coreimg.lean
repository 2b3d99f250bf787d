import Toddler.Spec.Message

/-! The core image: the writer, `tools/coreimg.c`, and the reader, `libk/lib/coreimg.c`. The FAT is
a header and one record per file, 32 bytes each. The writer's buffer for it is not initialised, so
the fields that are not set are parameters (`junk`). -/

namespace Toddler

namespace Coreimg

/-- An argument of the writer: the full name, and the contents if the file can be opened. -/
structure InputFile where
  fullName : List UInt8
  noNul : 0 ∉ fullName
  contents : Option (List UInt8)
  deriving DecidableEq

/-- The image file. A write past the end leaves a hole, which reads as zeros. -/
structure ImageFile where
  bytes : ByteMem
  size : ℕ

def u32 (v : ℕ) : ℕ := v % 2 ^ 32

def swapEndian32 (val : ℕ) : ℕ :=
  let rr := val &&& 0xff
  let rl := (val >>> 8) &&& 0xff
  let lr := (val >>> 16) &&& 0xff
  let ll := (val >>> 24) &&& 0xff
  (rr <<< 24) ||| (rl <<< 16) ||| (lr <<< 8) ||| ll

def swapToTargetEndian (host target : Bool) (val : ℕ) : ℕ := if host ≠ target then swapEndian32 val
    else val

def calcChecksum (data : List UInt8) : UInt8 := data.foldl (· + ·) 0

/-- `copy_to_image`; `fwrite` of no bytes does not touch the file. -/
def copyToImage (image : ImageFile) (buf : List UInt8) (offset : ℕ) : ImageFile × UInt8 :=
  (⟨image.bytes.store offset buf, if buf = [] then image.size
    else max image.size (offset + buf.length)⟩, calcChecksum buf)

def bufferSize : ℕ := 512

/-- The loop that copies one file. A read of fewer bytes than asked for meets the end of the file,
so a file of whole buffers is followed by an empty read. -/
def copyFile : ℕ → List UInt8 → ImageFile → (curOffset curFileSize : ℕ) → UInt8 →
    Option (ImageFile × ℕ × UInt8)
  | 0, _, _, _, _, _ => none
  | fuel + 1, rest, image, curOffset, curFileSize, checksum =>
    let buffer := rest.take bufferSize
    let copied := copyToImage image buffer curOffset
    let curFileSize := u32 (curFileSize + buffer.length)
    let checksum := checksum + copied.2
    if rest.length < bufferSize then some (copied.1, curFileSize, checksum)
    else copyFile fuel (rest.drop bufferSize) copied.1 (u32 (curOffset + buffer.length)) curFileSize
      checksum

def isSlash (ch : UInt8) : Bool := ch == '\\'.toUInt8 || ch == '/'.toUInt8

def nameStart (fullName : List UInt8) : ℕ → ℕ
  | 0 => if isSlash (fullName.getD 0 0) then 1 else 0
  | i + 1 => if isSlash (fullName.getD (i + 1) 0) then i + 2 else nameStart fullName i

def extractFileName (fullName : List UInt8) : List UInt8 :=
  let start := nameStart fullName fullName.length
  let nameLength := if fullName.length - start > 19 then 19 else fullName.length - start
  let name := (fullName.drop start).take nameLength
  name ++ List.replicate (20 - name.length) 0

theorem length_extractFileName (fullName : List UInt8) :
    (extractFileName fullName).length = 20 := by
  rw [extractFileName]
  simp only [List.length_append, List.length_replicate, List.length_take]
  split_ifs <;> omega

/-- `struct coreimg_record`; numbers as they are stored on the host. -/
structure Record where
  checksum : UInt8
  startOffset : ℕ
  length : ℕ
  fileName : List UInt8
  fileNameLength : fileName.length = 20
  deriving DecidableEq

structure Writer where
  image : ImageFile
  curOffset : ℕ
  imageSize : ℕ
  records : List Record

section Write

variable (host target : Bool)

def refineSize (size : ℕ) : ℕ := if size % 8 ≠ 0 then u32 (((size >>> 3) + 1) <<< 3) else size

/-- The size and the checksum of the part of the image that a file takes; one that cannot be opened
takes none. -/
def copyInput (image : ImageFile) (curOffset : ℕ) :
    Option (List UInt8) → Option (ImageFile × ℕ × UInt8)
  | some contents => copyFile (contents.length / bufferSize + 1) contents image curOffset 0 0
  | none => some (image, 0, 0)

def processFile (w : Writer) (file : InputFile) : Option Writer := do
  let copied ← copyInput w.image w.curOffset file.contents
  let size := refineSize copied.2.1
  return {
    image := copied.1
    curOffset := u32 (w.curOffset + size)
    imageSize := u32 (w.imageSize + size)
    records := w.records ++ [⟨copied.2.2, swapToTargetEndian host target w.curOffset,
      swapToTargetEndian host target size, extractFileName file.fullName,
      length_extractFileName file.fullName⟩] }

def processFiles : Writer → List InputFile → Option Writer
  | w, [] => some w
  | w, file :: files => do processFiles (← processFile host target w file) files

def coreimgMagic : ℕ := 0x70dd1e21

def headerBytes (junk : ℕ → UInt8) (fileCount imageSize : ℕ) : List UInt8 :=
  encodeWord host 4 (swapToTargetEndian host target coreimgMagic) ++
    (encodeWord host 4 (swapToTargetEndian host target fileCount) ++
      (encodeWord host 4 (swapToTargetEndian host target imageSize) ++
        ((List.range 9).map (fun k => junk (12 + k)) ++
          ([if target then 1 else 0] ++ (List.range 10).map fun k => junk (22 + k)))))

def recordBytes (junk : ℕ → UInt8) (place : ℕ) (r : Record) : List UInt8 :=
  [r.checksum] ++ ([0, junk (place + 2), junk (place + 3)] ++
    (encodeWord host 4 r.startOffset ++ (encodeWord host 4 r.length ++ r.fileName)))

def recordsBytes (junk : ℕ → UInt8) : ℕ → List Record → List UInt8
  | _, [] => []
  | place, r :: records => recordBytes host junk place r ++ recordsBytes junk (place + 32) records

/-- `gen_image`. Where the FAT size wraps, the records are written outside of the buffer. -/
def genImage (junk : ℕ → UInt8) (files : List InputFile) : Option ImageFile := do
  let fileCount := files.length
  let fatSize := u32 ((fileCount + 1) * 32)
  if fatSize < (fileCount + 1) * 32 then none
  else
    let w ← processFiles host target ⟨⟨fun _ => 0, 0⟩, fatSize, fatSize, []⟩ files
    let fat := headerBytes host target junk fileCount w.imageSize ++ recordsBytes host junk 32 w.records
    return (copyToImage w.image fat 0).1

end Write

section Read

variable (A : Arch) (mem : ByteMem) (coreimg : ℕ)

def loadU32 (addr : ℕ) : ℕ := decodeWord A.big (mem.load addr 4)

def addInt (addr v : ℕ) : ℕ := (addr + if v < 2 ^ 31 then v else A.ulong - 2 ^ 32 + v) % A.ulong

/-- `file_count`, an `int`; 0 stands for the negative values too, since it only bounds indices. -/
def fileCount : ℕ :=
  let count := loadU32 A mem (coreimg + 4)
  if count < 2 ^ 31 then count else 0

def recordAddr (idx : ℕ) : ℕ := coreimg + 32 + idx * 32

/-- Whether `strncmp` of `libk` gives a result other than 0. -/
def strncmp : List UInt8 → List UInt8 → ℕ → Bool
  | _, _, 0 => false
  | s1, s2, n + 1 =>
    if s1.headD 0 = 0 ∧ s2.headD 0 = 0 then false
    else if s1.headD 0 ≠ s2.headD 0 then true
    else strncmp s1.tail s2.tail n

def coreimgFindFileIdx (name : List UInt8) : Option ℕ :=
  (List.range (fileCount A mem coreimg)).find? fun i =>
    !strncmp name (mem.load (recordAddr coreimg i + 12) 20) 20

def recordData (idx : ℕ) : ℕ := addInt A coreimg (loadU32 A mem (recordAddr coreimg idx + 4))

def coreimgFindFile (name : List UInt8) : Option ℕ :=
  (coreimgFindFileIdx A mem coreimg name).map (recordData A mem coreimg)

def coreimgGetFile2 (idx : ℕ) : Option (ℕ × ℕ) :=
  if fileCount A mem coreimg ≤ idx then none
  else some (recordData A mem coreimg idx, loadU32 A mem (recordAddr coreimg idx + 8))

/-- `coreimg_is_checksum_correct`. Without a record the size stays 0. -/
def coreimgIsChecksumCorrect (idx : ℕ) : Bool :=
  let data := (coreimgGetFile2 A mem coreimg idx).getD (0, 0)
  (mem.load data.1 data.2).foldl (· + ·) 0 == mem (recordAddr coreimg idx)

end Read

end Coreimg

end Toddler
