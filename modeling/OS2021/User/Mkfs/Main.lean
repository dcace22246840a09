import Mathlib.Data.List.Induction
import OS2021.Fs.Path

/-! The program that makes a file system image (`user/mkfs/main.c`).

`mkfs` runs on the host. It writes the super block, then appends to inodes: entries to
the root directory, and to one new inode for every input file the bytes of that file.
Inode numbers and blocks are handed out in order from two counters, and the bitmap is
written at the end. Reading past the end of the image makes it exit, as does an
assertion that fails. -/
namespace OS2021.User.Mkfs
open Lib Fs

/-! ### Constants -/

abbrev fssize : Nat := 1000
abbrev ninodes : Nat := 200

/-- `IPB` -/
abbrev ipb : Nat := blockSize / inodeEntrySize

/-- `INODE_MAX_BLOCKS` -/
abbrev inodeMaxBlocks : Nat := inodeNumDirect + inodeNumIndirect

abbrev nbitmap : Nat := fssize / (blockSize * 8) + 1
abbrev ninodeblocks : Nat := ninodes / ipb + 1
abbrev numLogBlocks : Nat := logMaxSize
abbrev nmeta : Nat := 2 + numLogBlocks + ninodeblocks + nbitmap
abbrev numDataBlocks : Nat := fssize - nmeta

/-- The 16-bit number whose bytes are those of `x` in little-endian order; the host is
little-endian too. -/
def xshort (x : UInt16) : UInt16 := UInt16.ofNat (leNat 2 (leByte x.toNat))

/-- The same for 32 bits. -/
def xint (x : UInt32) : UInt32 := UInt32.ofNat (leNat 4 (leByte x.toNat))

def sb : SuperBlock where
  numBlocks := xint (UInt32.ofNat fssize)
  numDataBlocks := xint (UInt32.ofNat numDataBlocks)
  numInodes := xint (UInt32.ofNat ninodes)
  numLogBlocks := xint (UInt32.ofNat numLogBlocks)
  logStart := xint 2
  inodeStart := xint (UInt32.ofNat (2 + numLogBlocks))
  bitmapStart := xint (UInt32.ofNat (2 + numLogBlocks + ninodeblocks))

/-- A block that starts with a `SuperBlock`, and what is read back from one. -/
def superBlockBytes (sb : SuperBlock) : BlockData := fun j =>
  if (j : Nat) < 28 then
    ofWords 4 (fun k => (([sb.numBlocks, sb.numDataBlocks, sb.numInodes, sb.numLogBlocks, sb.logStart, sb.inodeStart,
      sb.bitmapStart].getD k 0).toNat)) j
  else 0

def superBlockOf (d : BlockData) : SuperBlock :=
  let word k := UInt32.ofNat (wordAt 4 (bytes d) k)
  ⟨word 0, word 1, word 2, word 3, word 4, word 5, word 6⟩

/-! ### State -/

/-- How `mkfs` exits other than with status 0. -/
inductive Exit where
  | assertion (predicate : String)
  /-- `perror("read")` -/
  | read
  /-- `perror(argv[i])` -/
  | noFile (name : List UInt8)
  /-- A loop bound of the model is used up; this does not happen. -/
  | hang
  deriving DecidableEq

structure State where
  /-- The image file; it is zero past its end. -/
  blocks : Nat → BlockData
  /-- How many blocks the image file has. -/
  size : Nat
  freeinode : Nat
  freeblock : Nat

abbrev W := EStateM Exit State

/-- The host's `assert`. -/
def check (predicate : String) (c : Prop) [Decidable c] : W Unit :=
  if c then pure () else throw (.assertion predicate)

/-! ### Sectors and inodes -/

/-- Where sector `sec` is: `sec * BSIZE` has 32 bits. -/
def place (sec : Nat) : Nat := sec * blockSize % 2 ^ 32 / blockSize

def wsect (sec : Nat) (buf : BlockData) : W Unit := modify fun m =>
  {m with blocks := Function.update m.blocks (place sec) buf, size := max m.size (place sec + 1)}

def rsect (sec : Nat) : W BlockData := do
  let m ← get
  if place sec < m.size then return m.blocks (place sec) else throw .read

/-- `IBLOCK` -/
def iblock (i : Nat) : Nat := i / ipb + sb.inodeStart.toNat

def winode (inum : Nat) (ip : InodeEntry) : W Unit := do
  let buf ← rsect (iblock inum)
  wsect (iblock inum) (setEntry buf inum ip)

def rinode (inum : Nat) : W InodeEntry := do
  let buf ← rsect (iblock inum)
  return getEntry buf inum

def ialloc (type : InodeType) : W Nat := do
  let m ← get
  set {m with freeinode := m.freeinode + 1}
  winode m.freeinode {InodeEntry.zero with type := xshort type, numLinks := xshort 1, numBytes := xint 0}
  return m.freeinode

/-- The loop over `buf` sets the bits one by one. -/
def balloc (used : Nat) : W Unit := do
  check "used < BSIZE * 8" (used < blockSize * 8)
  wsect sb.bitmapStart.toNat ((List.range used).foldl setBit zeroBlock)

/-! ### Appending -/

/-- `xint(freeblock++)` -/
def nextBlock : W UInt32 := do
  let m ← get
  set {m with freeblock := m.freeblock + 1}
  return xint (UInt32.ofNat m.freeblock)

/-- A direct address, and the inode with it. -/
def directAddr (din : InodeEntry) (fbn : Fin inodeNumDirect) : W (UInt32 × InodeEntry) :=
  if xint (din.addrs fbn) = 0 then do
    let b ← nextBlock
    return (xint b, {din with addrs := Function.update din.addrs fbn b})
  else return (xint (din.addrs fbn), din)

/-- The inode with an indirect block. -/
def withTable (din : InodeEntry) : W InodeEntry :=
  if xint din.indirect = 0 then do
    let b ← nextBlock
    return {din with indirect := b}
  else return din

/-- An address in the indirect block. -/
def tableAddr (table j : Nat) : W UInt32 := do
  let indirect ← rsect table
  if getAddr indirect j = 0 then do
    let b ← nextBlock
    wsect table (setAddr indirect j b)
    return xint b
  else return xint (getAddr indirect j)

def indirectAddr (din : InodeEntry) (j : Nat) : W (UInt32 × InodeEntry) := do
  let din ← withTable din
  let x ← tableAddr (xint din.indirect).toNat j
  return (x, din)

/-- `x`, the address of block `fbn` of the file, and the inode with it. -/
def fileAddr (din : InodeEntry) (fbn : Nat) : W (UInt32 × InodeEntry) :=
  if h : fbn < inodeNumDirect then directAddr din ⟨fbn, h⟩ else indirectAddr din (fbn - inodeNumDirect)

/-- That address, what is in the block, and the inode. -/
def fetch (din : InodeEntry) (fbn : Nat) : W (UInt32 × BlockData × InodeEntry) := do
  let (x, din) ← fileAddr din fbn
  let buf ← rsect x.toNat
  return (x, buf, din)

/-- The loop of `iappend`, with the offset it has reached and the bytes left. An
iteration moves at least one byte, so the first argument bounds the iterations when it
is the number of bytes. -/
def appendLoop : Nat → Nat → List UInt8 → InodeEntry → W (Nat × InodeEntry)
  | 0, off, p, din => if p = [] then return (off, din) else throw .hang
  | fuel + 1, off, p, din =>
    if p = [] then return (off, din)
    else do
      let fbn := off / blockSize
      check "fbn < INODE_MAX_BLOCKS" (fbn < inodeMaxBlocks)
      let (x, buf, din) ← fetch din fbn
      let n1 := min p.length ((fbn + 1) * blockSize - off)
      wsect x.toNat (overwrite buf (off - fbn * blockSize) (p.take n1))
      appendLoop fuel (off + n1) (p.drop n1) din

def iappend (inum : Nat) (p : List UInt8) : W Unit := do
  let din ← rinode inum
  let (off, din) ← appendLoop p.length (xint din.numBytes).toNat p din
  winode inum {din with numBytes := xint (UInt32.ofNat off)}

/-! ### `main` -/

/-- An argument, and the bytes of the file if it can be opened. -/
structure Input where
  path : List UInt8
  contents : Option (List UInt8)

/-- The bytes that are read. -/
def Input.data (f : Input) : List UInt8 := f.contents.getD []

/-- `j` after the loop over the path: how many characters follow the last slash. -/
def tailLength (path : List UInt8) : Nat := path.foldl (fun j c => if c = slash then 0 else j + 1) 0

/-- `argv[i]` after `argv[i] -= j`. -/
def baseName (path : List UInt8) : List UInt8 :=
  let path := path.takeWhile (· ≠ 0)
  path.drop (path.length - tailLength path)

/-- `'_'` -/
abbrev underscore : UInt8 := 95

/-- The base name without a leading underscore. -/
def Input.name (f : Input) : List UInt8 :=
  let name := baseName f.path
  if name.getD 0 0 = underscore then name.drop 1 else name

/-- The loop that reads a file block by block. -/
def appendFile (inum : Nat) : Nat → List UInt8 → W Unit
  | 0, _ => return ()
  | fuel + 1, data =>
    if data = [] then return ()
    else do
      iappend inum (data.take blockSize)
      appendFile inum fuel (data.drop blockSize)

/-- One iteration of the loop over the arguments. -/
def addFile (rootino : Nat) (f : Input) : W Unit := do
  check "index(argv[i], '/') == 0" (slash ∉ baseName f.path)
  match f.contents with
  | none => throw (.noFile (baseName f.path))
  | some data => do
    let inum ← ialloc inodeRegular
    iappend rootino (direntBytes inum f.name)
    appendFile inum data.length data

/-- `"."` -/
def dot : List UInt8 := [46]

/-- `".."` -/
def dotdot : List UInt8 := [46, 46]

/-- The size of the root directory, rounded to whole blocks. -/
def fixRoot (rootino : Nat) : W Unit := do
  let din ← rinode rootino
  let off := (xint din.numBytes).toNat
  winode rootino {din with numBytes := xint (UInt32.ofNat ((off / blockSize + 1) * blockSize))}

def main (files : List Input) : W Unit := do
  check "(BSIZE % sizeof(struct dinode)) == 0" (blockSize % inodeEntrySize = 0)
  check "(BSIZE % sizeof(struct dirent)) == 0" (blockSize % dirEntrySize = 0)
  modify fun m => {m with freeblock := nmeta}
  (List.range fssize).forM fun i => wsect i zeroBlock
  wsect 1 (superBlockBytes sb)
  let rootino ← ialloc inodeDirectory
  check "rootino == ROOT_INODE_NO" (rootino = rootInodeNo)
  iappend rootino (direntBytes rootino dot)
  iappend rootino (direntBytes rootino dotdot)
  files.forM (addFile rootino)
  fixRoot rootino
  let m ← get
  balloc m.freeblock

/-- The image file has just been created. -/
def start : State := ⟨fun _ => zeroBlock, 0, 1, 0⟩

/-! ### Byte order and layout -/

@[simp] theorem xint_eq (x : UInt32) : xint x = x := by
  have hmod : x.toNat % 256 ^ 4 = x.toNat := Nat.mod_eq_of_lt x.toNat_lt
  rw [xint, leNat_leByte, hmod, UInt32.ofNat_toNat]

@[simp] theorem xshort_eq (x : UInt16) : xshort x = x := by
  have hmod : x.toNat % 256 ^ 2 = x.toNat := Nat.mod_eq_of_lt x.toNat_lt
  rw [xshort, leNat_leByte, hmod, UInt16.ofNat_toNat]

/-- The super block is read back as it was written. -/
theorem superBlockOf_bytes : superBlockOf (superBlockBytes sb) = sb := by decide

theorem place_eq {sec : Nat} (h : sec ≤ fssize) : place sec = sec := by
  have hlt : sec ≤ 1000 := h
  show sec * 512 % 2 ^ 32 / 512 = sec
  omega

/-! ### Names -/

theorem tailLength_le (path : List UInt8) : tailLength path ≤ path.length := by
  induction path using List.reverseRecOn with
  | nil => exact Nat.le_refl 0
  | append_singleton path c ih =>
    rw [tailLength, List.foldl_append, List.length_append]
    show (if c = slash then 0 else tailLength path + 1) ≤ path.length + 1
    split <;> omega

/-- The base name has no slash in it, so its assertion holds. -/
theorem slash_not_mem_baseName (path : List UInt8) : slash ∉ baseName path := by
  rw [baseName]
  generalize path.takeWhile (· ≠ 0) = path
  induction path using List.reverseRecOn with
  | nil => exact List.not_mem_nil
  | append_singleton path c ih =>
    have htail : tailLength (path ++ [c]) = if c = slash then 0 else tailLength path + 1 := by
      rw [tailLength, List.foldl_append]
      rfl
    rw [htail, List.length_append]
    by_cases hc : c = slash
    · rw [if_pos hc, Nat.sub_zero, List.drop_of_length_le (by rw [List.length_append])]
      exact List.not_mem_nil
    · have hle := tailLength_le path
      have hsub : path.length + [c].length - (tailLength path + 1) = path.length - tailLength path := by
        rw [List.length_singleton]
        omega
      rw [if_neg hc, hsub, List.drop_append_of_le_length (Nat.sub_le ..), List.mem_append, List.mem_singleton, not_or]
      exact ⟨ih, fun he => hc he.symm⟩

end OS2021.User.Mkfs
