import Toddler.Lib.ByteMem
import Toddler.Lib.Paging
import Toddler.Spec.IntHandler
import Toddler.Spec.PageTable
import Toddler.Spec.Wait

/-! What the kernel reads through the pointers of a process: `SYSCALL_PUTS` and
`SYSCALL_INT_HANDLER2` (`kernel/syscall/system.c`), and the futex word of `SYSCALL_EVENT_WAIT` and
`SYSCALL_EVENT_WAKE` (`kernel/proc/wait.c`), with the page tables for amd64. There,
`hal_cast_paddr_to_kernel_ptr` gives a pointer with the value of the physical address. -/

namespace Toddler.UserAccess

open PageTable

def putsBufSize : ℕ := 64

def putsMaxLen : ℕ := 8192

/-- A range that is translated at its start and then read as a whole. -/
structure Window where
  vaddr : ℕ
  len : ℕ
  deriving DecidableEq, Repr

def putsChunk (vaddr curLen : ℕ) : List Window :=
  let vaddrLastByte := sub64 (add64 vaddr curLen) 1
  if alignDownPage vaddr = alignDownPage vaddrLastByte then [⟨vaddr, curLen⟩]
  else
    let partLen := sub64 (alignUpPage vaddr) vaddr
    [⟨vaddr, partLen⟩, ⟨add64 vaddr partLen, sub64 curLen partLen⟩]

/-- The loop; a round copies a buffer, so that `len` rounds are enough. -/
def putsLoop (len : ℕ) : ℕ → ℕ → ℕ → List Window
  | 0, _, _ => []
  | fuel + 1, vaddr, copiedLen =>
    if copiedLen < len then
      let curLen := if copiedLen + putsBufSize ≤ len then putsBufSize else len - copiedLen
      putsChunk vaddr curLen ++ putsLoop len fuel (add64 vaddr putsBufSize) (copiedLen + putsBufSize)
    else []

def putsLen (len : ℕ) : ℕ := if len > putsMaxLen then putsMaxLen else len

def putsWindows (vaddr len : ℕ) : List Window := putsLoop (putsLen len) (putsLen len) vaddr 0

/-- A node of the device tree with its name and children. -/
inductive DevtreeNode
  | mk (name : List UInt8) (children : List DevtreeNode)

def DevtreeNode.name : DevtreeNode → List UInt8
  | .mk name _ => name

def DevtreeNode.children : DevtreeNode → List DevtreeNode
  | .mk _ children => children

def slash : UInt8 := 0x2f

def colon : UInt8 := 0x3a

def atSign : UInt8 := 0x40

def strpbrk : List UInt8 → Scan (Option ℕ)
  | [] => .more
  | b :: bs =>
    if b = 0 then .done none
    else if b = slash ∨ b = colon then .done (some 0)
    else match strpbrk bs with
      | .more => .more
      | .done r => .done (r.map (· + 1))

/-- `devtree_find_child_node`: a child of this name, or one whose name before the `@` it is. -/
def devtreeFindChildNode (root : DevtreeNode) (node : Option DevtreeNode) (name : List UInt8) :
    Option DevtreeNode :=
  match node with
  | none => some root
  | some node =>
    match node.children.find? fun child => child.name = name with
    | some child => some child
    | none =>
      if atSign ∈ name then none
      else node.children.find? fun child =>
        atSign ∈ child.name ∧ child.name.takeWhile (· ≠ atSign) = name

theorem length_drop_lt (b : UInt8) (bs : List UInt8) (n : ℕ) :
    ((b :: bs).drop (n + 1)).length < (b :: bs).length := by
  rw [List.length_drop, List.length_cons]
  omega

def nameBufSize : ℕ := 64

/-- The loop of `devtree_walk`, at `path` and `cur`. An empty component leaves `name` as it is, and
one that does not fit in the buffer is `none`. -/
def devtreeWalkLoop (root : DevtreeNode) (path : List UInt8) (cur : Option DevtreeNode)
    (name : List UInt8) : Scan (Option (Option DevtreeNode)) :=
  match path with
  | [] => .more
  | b :: bs =>
    if b = 0 ∨ b = colon then .done (some cur)
    else match strpbrk (b :: bs) with
      | .more => .more
      | .done none =>
        let name := (b :: bs).takeWhile (· ≠ 0)
        .done (if nameBufSize ≤ name.length then none else some (devtreeFindChildNode root cur name))
      | .done (some len) =>
        if len ≠ 0 ∧ cur.isNone then .done (some none)
        else if nameBufSize ≤ len then .done none
        else
          let name := if len ≠ 0 then (b :: bs).take len else name
          match devtreeFindChildNode root cur name with
          | none => .done (some none)
          | some node => devtreeWalkLoop root ((b :: bs).drop (len + 1)) (some node) name
termination_by path.length
decreasing_by exact length_drop_lt b bs len

/-- `devtree_walk` on the bytes of `path` that are there. `name` is what its buffer holds at the
start. -/
def devtreeWalk (root : DevtreeNode) (name path : List UInt8) :
    Scan (Option (Option DevtreeNode)) :=
  match path with
  | [] => .more
  | b :: bs => if b ≠ slash then .done (some none) else devtreeWalkLoop root (b :: bs) none name

/-- Page tables, physical memory, the places in use in the table of interrupt handlers, the device
tree, and what is on the stack where `devtree_walk` has its buffer. -/
structure Kernel (A : FrameAllocator) where
  tables : PageMem A
  mem : ByteMem
  valid : ℕ → Bool
  devtree : DevtreeNode
  name : List UInt8

/-- System calls with a pointer, with their parameters. -/
inductive UserCall
  | puts (vaddr len : ℕ)
  | intRegister2 (fwPathVaddr fwPos entry : ℕ)
  | wait (waitType waitObj waitValue : ℕ)
  | wake (waitType waitObj waitValue : ℕ)
  deriving DecidableEq, Repr

def UserCall.Words : UserCall → Prop
  | .puts a b => a < word ∧ b < word
  | .intRegister2 a b c | .wait a b c | .wake a b c => a < word ∧ b < word ∧ c < word

def isWaitOnFutex (waitType : ℕ) : Prop := waitType % 2 ^ 32 = 1

namespace Kernel

variable {A : FrameAllocator} (k : Kernel A) (pageTable : ℕ)

def pointer (vaddr : ℕ) : Option ℕ := (genericTranslate k.tables pageTable vaddr).filter (· ≠ 0)

/-- The string that `devtree_walk` gets, if `int_handler_register2` comes to it. -/
def fwPath (vaddr : ℕ) : Option ℕ :=
  (IntTable.findFree k.valid).bind fun _ => k.pointer pageTable vaddr

def putsWindow (w : Window) : Option (List UInt8) :=
  (genericTranslate k.tables pageTable w.vaddr).map fun paddr =>
    (k.mem.load paddr w.len).takeWhile (· ≠ 0)

def syscallHandlerPuts (vaddr len : ℕ) : Option (List UInt8 × ℕ) := do
  let parts ← (putsWindows vaddr len).mapM (k.putsWindow pageTable)
  some (parts.flatten, putsLen len)

/-- A byte of a window: its address in the process and the physical address that is read for it. -/
def ReadsWindow (w : Window) (vaddr paddr : ℕ) : Prop :=
  ∃ base, genericTranslate k.tables pageTable w.vaddr = some base ∧
    ∃ i < w.len, vaddr = add64 w.vaddr i ∧ paddr = base + i

def ReadsFutex (waitType waitObj vaddr paddr : ℕ) : Prop :=
  isWaitOnFutex waitType ∧ ∃ base, k.pointer pageTable waitObj = some base ∧
    ∃ i < 8, vaddr = add64 waitObj i ∧ paddr = base + i

/-- The characters of the path that `devtree_walk` looks at. -/
def ReadsPath (fwPathVaddr vaddr paddr : ℕ) : Prop :=
  ∃ base, k.fwPath pageTable fwPathVaddr = some base ∧
    ∃ i, devtreeWalk k.devtree k.name (k.mem.load base i) = .more ∧ vaddr = add64 fwPathVaddr i ∧
    paddr = base + i

/-- The kernel reads the byte at `paddr` for the address `vaddr` of the process. -/
def Reads : UserCall → ℕ → ℕ → Prop
  | .puts vaddr len => fun v p => ∃ w ∈ putsWindows vaddr len, k.ReadsWindow pageTable w v p
  | .intRegister2 fwPathVaddr _ _ => k.ReadsPath pageTable fwPathVaddr
  | .wait waitType waitObj _ | .wake waitType waitObj _ => k.ReadsFutex pageTable waitType waitObj

def mapped (vaddr : ℕ) : Option ℕ :=
  (leafEntry k.tables pageTable vaddr).bind fun leaf => pageGetPteDestPaddr leaf.2 leaf.1 vaddr

def userByte (vaddr : ℕ) : Option UInt8 := (k.mapped pageTable vaddr).map k.mem

/-- The components of the path that `devtree_walk` comes to fit in its buffer. -/
def NamesFit : UserCall → Prop
  | .intRegister2 fwPathVaddr _ _ => ∀ base ∈ k.fwPath pageTable fwPathVaddr, ∀ i,
      devtreeWalk k.devtree k.name (k.mem.load base i) ≠ .done none
  | _ => True

/-- Every byte read is the one that the page table maps at its address, no buffer is left, and
`SYSCALL_PUTS` prints the bytes of user memory, if they are there and none is NUL. -/
structure Confined (c : UserCall) : Prop where
  reads : ∀ v p, k.Reads pageTable c v p → k.mapped pageTable v = some p
  names : k.NamesFit pageTable c
  output : ∀ vaddr len data, c = .puts vaddr len → data.length = len →
    (∀ i < len, k.userByte pageTable (add64 vaddr i) = data[i]?) → 0 ∉ data →
    (k.syscallHandlerPuts pageTable vaddr len).map Prod.fst = some data

/-- The pages are there. For `SYSCALL_PUTS`, every byte of the range that it prints is mapped, and
it is the whole range unless a byte of that is unmapped or NUL. A path or a futex word that goes on
in another page does so in physical memory, and the components of a path fit. -/
def Backed : UserCall → Prop
  | .puts vaddr len => (∀ i < putsLen len, (k.mapped pageTable (add64 vaddr i)).isSome) ∧
      (len ≤ putsMaxLen ∨ ∃ i < len, k.userByte pageTable (add64 vaddr i) = none ∨
        k.userByte pageTable (add64 vaddr i) = some 0)
  | .intRegister2 fwPathVaddr fwPos entry =>
      k.NamesFit pageTable (.intRegister2 fwPathVaddr fwPos entry) ∧
      ∀ base ∈ k.fwPath pageTable fwPathVaddr, ∀ i,
        devtreeWalk k.devtree k.name (k.mem.load base i) = .more → pageSize ∣ fwPathVaddr + i →
        k.mapped pageTable (add64 fwPathVaddr i) = some (base + i)
  | .wait waitType waitObj _ | .wake waitType waitObj _ => isWaitOnFutex waitType →
      ∀ base ∈ k.pointer pageTable waitObj, ∀ i < 8, pageSize ∣ waitObj + i →
      k.mapped pageTable (add64 waitObj i) = some (base + i)

end Kernel

end Toddler.UserAccess
