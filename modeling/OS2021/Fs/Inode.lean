import OS2021.Common.CString
import OS2021.Fs.Log

/-! The inode layer (`fs/inode.c`), over an array of blocks.

Below it is what the block cache is for: an array of blocks, of which some are the
bitmap, and `cache->alloc` and `cache->free` on it. A block that is acquired is
modified in place, so `cache->sync` and the operation's context leave no trace in
the array. Beside the array are the static variables of `inode.c` and the memory
of the in-memory inodes. -/
namespace OS2021.Fs
open Lib Function
open Common (strncmp strncpy)

/-! ### On-disk representations (`fs/defines.h`) -/

/-- `INODE_NUM_DIRECT` -/
abbrev inodeNumDirect : Nat := 12

instance : NeZero inodeNumDirect := ⟨by decide⟩

/-- `INODE_NUM_INDIRECT` -/
abbrev inodeNumIndirect : Nat := blockSize / 4

/-- `sizeof(InodeEntry)` -/
abbrev inodeEntrySize : Nat := 64

/-- `INODE_PER_BLOCK` -/
abbrev inodePerBlock : Nat := blockSize / inodeEntrySize

/-- `INODE_MAX_BYTES` -/
abbrev inodeMaxBytes : Nat := (inodeNumDirect + inodeNumIndirect) * blockSize

/-- `FILE_NAME_MAX_LENGTH` -/
abbrev fileNameMaxLength : Nat := 14

/-- `sizeof(DirEntry)` -/
abbrev dirEntrySize : Nat := 2 + fileNameMaxLength

abbrev InodeType := UInt16

/-- `INODE_INVALID` -/
abbrev inodeInvalid : InodeType := 0

/-- `INODE_DIRECTORY` -/
abbrev inodeDirectory : InodeType := 1

/-- `INODE_REGULAR` -/
abbrev inodeRegular : InodeType := 2

/-- `INODE_DEVICE` -/
abbrev inodeDevice : InodeType := 3

@[ext]
structure InodeEntry where
  type : InodeType
  major : UInt16
  minor : UInt16
  numLinks : UInt16
  numBytes : UInt32
  addrs : Fin inodeNumDirect → UInt32
  indirect : UInt32

namespace InodeEntry

def zero : InodeEntry := ⟨0, 0, 0, 0, 0, fun _ => 0, 0⟩

/-- The four 16-bit fields at the start of the struct. -/
def half (e : InodeEntry) : Nat → UInt16
  | 0 => e.type
  | 1 => e.major
  | 2 => e.minor
  | _ => e.numLinks

/-- The 32-bit words of the struct from the third on. -/
def word (e : InodeEntry) (k : Nat) : UInt32 :=
  if k = 2 then e.numBytes
  else if h : k - 3 < inodeNumDirect then e.addrs ⟨k - 3, h⟩
  else e.indirect

def toBytes (e : InodeEntry) (j : Nat) : UInt8 :=
  if j < 8 then ofWords 2 (fun k => (e.half k).toNat) j else ofWords 4 (fun k => (e.word k).toNat) j

def ofBytes (d : Nat → UInt8) : InodeEntry where
  type := UInt16.ofNat (wordAt 2 d 0)
  major := UInt16.ofNat (wordAt 2 d 1)
  minor := UInt16.ofNat (wordAt 2 d 2)
  numLinks := UInt16.ofNat (wordAt 2 d 3)
  numBytes := UInt32.ofNat (wordAt 4 d 2)
  addrs := fun i => UInt32.ofNat (wordAt 4 d (3 + i))
  indirect := UInt32.ofNat (wordAt 4 d 15)

end InodeEntry

/-- `*get_entry(block, inode_no)` -/
def getEntry (d : BlockData) (inodeNo : Nat) : InodeEntry :=
  .ofBytes fun j => bytes d (inodeEntrySize * (inodeNo % inodePerBlock) + j)

/-- The block with that entry replaced. -/
def setEntry (d : BlockData) (inodeNo : Nat) (e : InodeEntry) : BlockData := fun j =>
  if (j : Nat) / inodeEntrySize = inodeNo % inodePerBlock then e.toBytes (j % inodeEntrySize) else d j

/-- `get_addrs(block)[i]` -/
def getAddr (d : BlockData) (i : Nat) : UInt32 := UInt32.ofNat (wordAt 4 (bytes d) i)

def setAddr (d : BlockData) (i : Nat) (a : UInt32) : BlockData := fun j => setWord 4 (bytes d) i a.toNat j

/-- `memmove(data + start, src, …)` -/
def overwrite (d : BlockData) (start : Nat) (src : List UInt8) : BlockData := fun j =>
  if start ≤ (j : Nat) ∧ (j : Nat) < start + src.length then src.getD (j - start) 0 else d j

/-! ### State -/

/-- `Inode`, with the flag of its lock. -/
structure Inode where
  locked : Bool
  rc : Int
  inodeNo : Nat
  valid : Bool
  entry : InodeEntry

structure Volume where
  blocks : Nat → BlockData
  heap : Ptr → Inode
  /-- The inodes linked behind `head`. -/
  head : List Ptr
  /-- Calls of `alloc_object` so far. -/
  allocs : Nat

abbrev V := EStateM Halt Volume

namespace Volume

def setBlock (s : Volume) (b : Nat) (d : BlockData) : Volume := {s with blocks := update s.blocks b d}

def setInode (s : Volume) (p : Ptr) (f : Inode → Inode) : Volume :=
  {s with heap := update s.heap p (f (s.heap p))}

/-- A change of `inode->entry`. -/
def editEntry (s : Volume) (p : Ptr) (f : InodeEntry → InodeEntry) : Volume :=
  s.setInode p fun ip => {ip with entry := f ip.entry}

end Volume

/-- The kernel's `assert`. -/
def assertThat (predicate : String) (c : Prop) [Decidable c] : V Unit :=
  if c then pure () else throw (.panic ("assertion failed: \"" ++ predicate ++ "\""))

section Routines
variable (sb : SuperBlock)

/-! ### The bitmap allocator on the array -/

/-- `BBLOCK` -/
def bitmapBlock (b : Nat) : Nat := b / bitPerBlock + sb.bitmapStart.toNat

def Volume.isUsed (s : Volume) (b : Nat) : Bool := bitIsSet (s.blocks (bitmapBlock sb b)) (b % bitPerBlock)

def Volume.setUsed (s : Volume) (b : Nat) : Volume :=
  s.setBlock (bitmapBlock sb b) (setBit (s.blocks (bitmapBlock sb b)) (b % bitPerBlock))

def Volume.clearUsed (s : Volume) (b : Nat) : Volume :=
  s.setBlock (bitmapBlock sb b) (clearBit (s.blocks (bitmapBlock sb b)) (b % bitPerBlock))

def zeroBlock : BlockData := fun _ => 0

/-- `cache->alloc`: the first block whose bit is clear; its bit is set and it is zeroed. -/
def blockAlloc : V Nat := do
  let s ← get
  match (List.range sb.numBlocks.toNat).find? fun b => !s.isUsed sb b with
  | some b => do
    set ((s.setUsed sb b).setBlock b zeroBlock)
    return b
  | none => throw (.panic "cache_alloc: no free block")

/-- `cache->free` -/
def blockFree (b : Nat) : V Unit := do
  let s ← get
  if s.isUsed sb b then set (s.clearUsed sb b) else throw (.panic "freeing free block")

/-! ### Inodes -/

def toBlockNo (inodeNo : Nat) : Nat := sb.inodeStart.toNat + inodeNo / inodePerBlock

/-- The loop of `inode_alloc`. Its counter is a `u32`: with the largest `num_inodes`
there is, it never gets past its bound. -/
def inodeAllocFrom (type : InodeType) : List Nat → V Nat
  | [] =>
    if sb.numInodes.toNat + 1 < 2 ^ 32 then throw (.panic "failed to allocate inode on disk") else throw .hang
  | inum :: rest => do
    let s ← get
    let bp := s.blocks (toBlockNo sb inum)
    if (getEntry bp inum).type = inodeInvalid then do
      set (s.setBlock (toBlockNo sb inum) (setEntry bp inum {InodeEntry.zero with type}))
      return inum
    else inodeAllocFrom type rest

def inodeAlloc (type : InodeType) : V Nat := do
  assertThat "type != INODE_INVALID" (type ≠ inodeInvalid)
  inodeAllocFrom sb type ((List.range sb.numInodes.toNat).map (· + 1) ++
    if sb.numInodes.toNat + 1 < 2 ^ 32 then [] else [0])

/-- On one CPU a spinlock that is held is waited for in vain. -/
def inodeLock (p : Ptr) : V Unit := do
  let s ← get
  assertThat "inode->rc.count > 0" (0 < (s.heap p).rc)
  if (s.heap p).locked then throw .hang
  else set (s.setInode p fun ip => {ip with locked := true})

def inodeUnlock (p : Ptr) : V Unit := do
  let s ← get
  assertThat "holding_spinlock(&inode->lock)" (s.heap p).locked
  assertThat "inode->rc.count > 0" (0 < (s.heap p).rc)
  set (s.setInode p fun ip => {ip with locked := false})

def inodeSync (p : Ptr) (doWrite : Bool) : V Unit := do
  let s ← get
  let ip := s.heap p
  let b := toBlockNo sb ip.inodeNo
  if doWrite && ip.valid then set (s.setBlock b (setEntry (s.blocks b) ip.inodeNo ip.entry))
  else if !ip.valid then
    set (s.setInode p fun ip => {ip with valid := true, entry := getEntry (s.blocks b) ip.inodeNo})
  else pure ()

/-- An inode of the list that nobody references, or else a new one. -/
def Volume.slotFor (arena : Arena) (s : Volume) : Ptr × Volume :=
  match s.head.find? fun p => (s.heap p).rc == 0 with
  | some p => (p, s)
  | none =>
    let p := arena.pick s.allocs s.head
    (p, {s.setInode p fun ip => ⟨false, 0, 0, false, ip.entry⟩ with
      head := p :: s.head, allocs := s.allocs + 1})

def inodeGet (arena : Arena) (inodeNo : Nat) : V Ptr := do
  assertThat "inode_no > 0" (0 < inodeNo)
  assertThat "inode_no < sblock->num_inodes" (inodeNo < sb.numInodes.toNat)
  let s ← get
  match s.head.find? fun p => 0 < (s.heap p).rc && (s.heap p).inodeNo == inodeNo with
  | some p => do
    set (s.setInode p fun ip => {ip with rc := ip.rc + 1})
    return p
  | none => do
    let p := (s.slotFor arena).1
    set ((s.slotFor arena).2.setInode p fun ip => {ip with inodeNo, rc := ip.rc + 1, valid := false})
    inodeLock p
    inodeSync sb p false
    inodeUnlock p
    return p

/-! ### Discarding contents -/

def clearDirect (p : Ptr) (i : Fin inodeNumDirect) : V Unit := do
  let s ← get
  let a := (s.heap p).entry.addrs i
  if a ≠ 0 then do
    blockFree sb a.toNat
    modify fun s => s.editEntry p fun e => {e with addrs := update e.addrs i 0}
  else pure ()

/-- One iteration over the indirect block `b`. -/
def freeAddr (b i : Nat) : V Unit := do
  let s ← get
  let a := getAddr (s.blocks b) i
  if a ≠ 0 then blockFree sb a.toNat else pure ()

def clearIndirect (p : Ptr) : V Unit := do
  let s ← get
  let b := (s.heap p).entry.indirect
  if b ≠ 0 then do
    (List.range inodeNumIndirect).forM (freeAddr sb b.toNat)
    blockFree sb b.toNat
    modify fun s => s.editEntry p fun e => {e with indirect := 0}
  else pure ()

def inodeClear (p : Ptr) : V Unit := do
  (List.finRange inodeNumDirect).forM (clearDirect sb p)
  clearIndirect sb p
  modify fun s => s.editEntry p fun e => {e with numBytes := 0}
  inodeSync sb p true

def inodeShare (p : Ptr) : V Ptr := do
  modify fun s => s.setInode p fun ip => {ip with rc := ip.rc + 1}
  return p

/-- `detach_from_list` and `decrement_rc`, before `free_object`. -/
def Volume.unlink (s : Volume) (p : Ptr) : Volume :=
  {s.setInode p fun ip => {ip with rc := ip.rc - 1} with head := s.head.erase p}

def inodePut (p : Ptr) : V Unit := do
  let s ← get
  let ip := s.heap p
  if ip.rc = 1 ∧ ip.valid ∧ ip.entry.numLinks = 0 then do
    inodeLock p
    inodeClear sb p
    modify fun s => s.editEntry p fun e => {e with type := inodeInvalid}
    inodeSync sb p true
    modify fun s => s.setInode p fun ip => {ip with valid := false}
    inodeUnlock p
    modify fun s => s.unlink p
  else modify fun s => s.setInode p fun ip => {ip with rc := ip.rc - 1}

/-! ### Contents -/

/-- The indirect block, allocated if there is none. -/
def indirectBlock (p : Ptr) : V Nat := do
  let s ← get
  let b := (s.heap p).entry.indirect
  if b = 0 then do
    let b ← blockAlloc sb
    modify fun s => s.editEntry p fun e => {e with indirect := UInt32.ofNat b}
    return b
  else return b.toNat

/-- The address of block `offset`, and `*modified`. -/
def inodeMap (p : Ptr) (offset : Nat) : V (Nat × Bool) := do
  let s ← get
  if h : offset < inodeNumDirect then do
    let addr := (s.heap p).entry.addrs ⟨offset, h⟩
    if addr = 0 then do
      let b ← blockAlloc sb
      modify fun s => s.editEntry p fun e =>
        {e with addrs := update e.addrs ⟨offset, h⟩ (UInt32.ofNat b)}
      return (b, true)
    else return (addr.toNat, false)
  else if offset - inodeNumDirect < inodeNumIndirect then do
    let bp ← indirectBlock sb p
    let s ← get
    let addr := getAddr (s.blocks bp) (offset - inodeNumDirect)
    if addr = 0 then do
      let b ← blockAlloc sb
      modify fun s => s.setBlock bp (setAddr (s.blocks bp) (offset - inodeNumDirect) (UInt32.ofNat b))
      return (b, true)
    else return (addr.toNat, false)
  else throw (.panic "offset out of bound")

/-- What `console_read` gives a reader who asks for that many bytes: its result, and
the bytes it has stored. -/
abbrev Console := Nat → Nat × List UInt8

/-- `console_read`; it gives the inode's lock back while it waits. -/
def consoleRead (console : Console) (p : Ptr) (n : Nat) : V (Nat × List UInt8) := do
  inodeUnlock p
  inodeLock p
  return console n

def consoleWrite (p : Ptr) (n : Nat) : V Nat := do
  inodeUnlock p
  inodeLock p
  return n

/-- How many bytes one iteration moves: to the end of the block, or what is left. -/
def chunk (offset count : Nat) : Nat := min count (blockSize - offset % blockSize)

/-- The loop of `inode_read`, with `count` bytes to go. An iteration moves at least one
byte, so the first argument bounds the iterations when it is `count`. -/
def readLoop (p : Ptr) : Nat → Nat → Nat → V (List UInt8)
  | 0, _, count => if count = 0 then return [] else throw .hang
  | fuel + 1, offset, count =>
    if count = 0 then return []
    else do
      let b ← inodeMap sb p (offset / blockSize)
      let s ← get
      let m := chunk offset count
      let rest ← readLoop p fuel (offset + m) (count - m)
      return (List.range m).map (fun j => bytes (s.blocks b.1) (offset % blockSize + j)) ++ rest

/-- The count and the bytes stored at `dest`. -/
def inodeRead (console : Console) (p : Ptr) (offset count : Nat) : V (Nat × List UInt8) := do
  let s ← get
  let entry := (s.heap p).entry
  if entry.type = inodeDevice then do
    assertThat "inode->entry.major == 1" (entry.major = 1)
    consoleRead console p count
  else do
    let size := entry.numBytes.toNat
    let count := if (count + offset) % 2 ^ 64 > size then (size + 2 ^ 64 - offset) % 2 ^ 64 else count
    let stop := (offset + count) % 2 ^ 64
    assertThat "offset <= entry->num_bytes" (offset ≤ size)
    assertThat "end <= entry->num_bytes" (stop ≤ size)
    assertThat "offset <= end" (offset ≤ stop)
    let data ← readLoop sb p count offset count
    return (count, data)

/-- The loop of `inode_write`; it returns the offset it has reached. -/
def writeLoop (p : Ptr) : Nat → Nat → List UInt8 → V Nat
  | 0, offset, src => if src = [] then return offset else throw .hang
  | fuel + 1, offset, src =>
    if src = [] then return offset
    else do
      let b ← inodeMap sb p (offset / blockSize)
      let m := chunk offset src.length
      modify fun s => s.setBlock b.1 (overwrite (s.blocks b.1) (offset % blockSize) (src.take m))
      writeLoop p fuel (offset + m) (src.drop m)

def inodeWrite (p : Ptr) (src : List UInt8) (offset : Nat) : V Nat := do
  let count := src.length
  let stop := (offset + count) % 2 ^ 64
  let s ← get
  let entry := (s.heap p).entry
  if entry.type = inodeDevice then do
    assertThat "inode->entry.major == 1" (entry.major = 1)
    consoleWrite p count
  else do
    assertThat "offset <= entry->num_bytes" (offset ≤ entry.numBytes.toNat)
    assertThat "end <= INODE_MAX_BYTES" (stop ≤ inodeMaxBytes)
    assertThat "offset <= end" (offset ≤ stop)
    let offset ← writeLoop sb p count offset src
    let s ← get
    if 0 < count ∧ (s.heap p).entry.numBytes.toNat < offset then do
      modify fun s => s.editEntry p fun e => {e with numBytes := UInt32.ofNat offset}
      inodeSync sb p true
      return count
    else return count

/-! ### Directories -/

/-- `de.inode_no` of a `DirEntry` given by its bytes. -/
def direntInodeNo (de : List UInt8) : Nat := (de.getD 0 0).toNat + 256 * (de.getD 1 0).toNat

/-- The bytes of a `DirEntry`; its `inode_no` has 16 bits. -/
def direntBytes (inodeNo : Nat) (name : List UInt8) : List UInt8 :=
  [leByte inodeNo 0, leByte inodeNo 1] ++ strncpy name fileNameMaxLength

/-- The offsets of the entries of a directory. -/
def direntOffsets (size : Nat) : List Nat :=
  (List.range ((size + dirEntrySize - 1) / dirEntrySize)).map (· * dirEntrySize)

variable (console : Console)

/-- `inode_read` of an entry into `de`, which keeps the bytes that are not read. -/
def readDirent (p : Ptr) (off : Nat) (de : List UInt8) : V (List UInt8) := do
  let r ← inodeRead sb console p off dirEntrySize
  return r.2 ++ de.drop r.2.length

def lookupFrom (p : Ptr) (name : List UInt8) : List Nat → List UInt8 → V (Nat × Option Nat)
  | [], _ => return (0, none)
  | off :: rest, de => do
    let de ← readDirent sb console p off de
    if direntInodeNo de = 0 then lookupFrom p name rest de
    else if strncmp (de.drop 2) name fileNameMaxLength = 0 then return (direntInodeNo de, some off)
    else lookupFrom p name rest de

/-- The inode number found, 0 if none, and `*index`. `de` is what the stack holds where
the local variable is. -/
def inodeLookup (de : List UInt8) (p : Ptr) (name : List UInt8) : V (Nat × Option Nat) := do
  let s ← get
  assertThat "entry->type == INODE_DIRECTORY" ((s.heap p).entry.type = inodeDirectory)
  lookupFrom sb console p name (direntOffsets (s.heap p).entry.numBytes.toNat) de

/-- The first free entry, or the end. -/
def freeDirent (p : Ptr) (stop : Nat) : List Nat → List UInt8 → V Nat
  | [], _ => return stop
  | off :: rest, de => do
    let de ← readDirent sb console p off de
    if direntInodeNo de = 0 then return off else freeDirent p stop rest de

/-- The offset of the new entry, or -1 if the name is taken. -/
def inodeInsert (de de' : List UInt8) (p : Ptr) (name : List UInt8) (inodeNo : Nat) : V Nat := do
  let s ← get
  assertThat "entry->type == INODE_DIRECTORY" ((s.heap p).entry.type = inodeDirectory)
  let found ← inodeLookup sb console de' p name
  if found.1 ≠ 0 then return 2 ^ 64 - 1
  else do
    let offsets := direntOffsets (s.heap p).entry.numBytes.toNat
    let off ← freeDirent sb console p (offsets.length * dirEntrySize) offsets de
    let _ ← inodeWrite sb p (direntBytes inodeNo name) off
    return off

def inodeRemove (p : Ptr) (index : Nat) : V Unit := do
  let s ← get
  assertThat "entry->type == INODE_DIRECTORY" ((s.heap p).entry.type = inodeDirectory)
  let _ ← inodeWrite sb p (List.replicate dirEntrySize 0) index
  return ()

end Routines

end OS2021.Fs
