import Mathlib.Logic.Function.Basic
import OS2021.Fs.Defines
import OS2021.Lib.Exits
import OS2021.Lib.Sweep

/-! The block cache (`fs/cache.c`, first half), over a device that can lose power.

The state of `cache.c` is one record: its static variables, the memory of the
`Block` structs, the memory of the callers' `OpContext`s, and the device below.
The device accepts `power` more writes and then fails, as the test's mock does
when it is taken offline; a crash at a given point of a run is a run with the
matching `power`. Every access to the device is recorded.

Routines run in `M`: they return or they stop, and either way leave a state. A
routine that sleeps stops with the channel it sleeps on. -/
namespace OS2021.Fs
open Lib

/-- The address of a `Block`. -/
abbrev Ptr := Nat

/-- `Block`, with the flag of its sleeplock. -/
structure Block where
  blockNo : UInt64
  acquired : Bool
  pinned : Bool
  locked : Bool
  valid : Bool
  data : BlockData

structure OpContext where
  ts : Nat
  rm : Nat

/-- `struct LOG` -/
structure Log where
  outstanding : Int
  committing : Int
  mu : Int
  mx : Int

/-- What a device access is for. -/
inductive Target where
  | block (no : UInt64)
  | header
  deriving DecidableEq

/-- One call of `device->read` or `device->write`. -/
structure Access where
  write : Bool
  target : Target
  number : UInt64
  deriving DecidableEq

/-- What one can sleep on: `&log`, `&log.outstanding`, the sleeplock of a block. -/
inductive Chan where
  | log
  | outstanding
  | block (p : Ptr)
  deriving DecidableEq

/-- Why a routine does not return. -/
inductive Halt where
  | panic (message : String)
  | asleep (chan : Chan)
  /-- The device lost power. -/
  | offline
  /-- An array is indexed out of range. -/
  | fault
  /-- A loop whose counter wraps before it meets its bound. -/
  | hang
  deriving DecidableEq

/-- The memory pool of `Block` structs: given the number of the call and the
objects in use, `alloc_object` returns one that is not in use. -/
structure Arena where
  pick : Nat → List Ptr → Ptr
  fresh : ∀ n used, pick n used ∉ used

/-- A pool that never gives an object a second time while a later one is in use. -/
def Arena.next : Arena where
  pick _ used := used.foldr max 0 + 1
  fresh _ used h := by
    have hle : ∀ (l : List Ptr) (p : Ptr), p ∈ l → p ≤ l.foldr max 0 := by
      intro l p hp
      induction l with
      | nil => cases hp
      | cons q rest ih =>
        rcases List.mem_cons.mp hp with rfl | hp
        · exact le_max_left ..
        · exact (ih hp).trans (le_max_right ..)
    exact absurd (hle used _ h) (Nat.not_succ_le_self _)

structure Machine where
  disk : UInt64 → BlockData
  /-- Device writes before the power fails. -/
  power : Nat
  accesses : List Access
  heap : Ptr → Block
  /-- The blocks linked behind `head`, in the order of their `next` pointers. -/
  head : List Ptr
  /-- Calls of `alloc_object` so far. -/
  allocs : Nat
  /-- How often each object has been passed to `free_object`. -/
  frees : Ptr → Nat
  header : LogHeader
  log : Log
  ctx : Nat → OpContext

abbrev M := EStateM Halt Machine

/-! ### The device -/

/-- Where `device_read` and `device_write` look for a block. -/
def blockSector (b : UInt64) : UInt64 := b + 0x20800

/-- Where `read_header` and `write_header` look for the log header. -/
def headerSector (sb : SuperBlock) : UInt64 := sb.logStart.toUInt64

def Machine.setBlock (m : Machine) (p : Ptr) (f : Block → Block) : Machine :=
  {m with heap := Function.update m.heap p (f (m.heap p))}

def Machine.record (m : Machine) (a : Access) : Machine := {m with accesses := m.accesses ++ [a]}

/-- One sector, all or nothing. -/
def diskWrite (t : Target) (n : UInt64) (d : BlockData) : M Unit := do
  let m ← get
  if m.power = 0 then throw .offline
  else set {m.record ⟨true, t, n⟩ with disk := Function.update m.disk n d, power := m.power - 1}

def deviceRead (p : Ptr) : M Unit :=
  modify fun m =>
    let n := blockSector (m.heap p).blockNo
    (m.record ⟨false, .block (m.heap p).blockNo, n⟩).setBlock p fun b => {b with data := m.disk n}

def deviceWrite (p : Ptr) : M Unit := do
  let m ← get
  let b := m.heap p
  diskWrite (.block b.blockNo) (blockSector b.blockNo) b.data

/-! ### Sleeplocks -/

def acquireSleeplock (p : Ptr) : M Unit := do
  let m ← get
  if (m.heap p).locked then throw (.asleep (.block p))
  else set (m.setBlock p fun b => {b with locked := true})

def releaseSleeplock (p : Ptr) : M Unit :=
  modify fun m => m.setBlock p fun b => {b with locked := false}

/-! ### The list of cached blocks -/

/-- A block as `init_block` leaves it. -/
def initBlock : Block := ⟨0, false, false, false, false, fun _ => 0⟩

namespace Machine

def getNumCachedBlocks (m : Machine) : Nat := m.head.length

def lookup (m : Machine) (b : UInt64) : Option Ptr := m.head.find? fun p => (m.heap p).blockNo == b

/-- `detach_from_list(p); merge_list(&head, p)` -/
def touch (m : Machine) (p : Ptr) : Machine := {m with head := p :: m.head.erase p}

/-- The test of the eviction loop. -/
def removable (m : Machine) (p : Ptr) : Bool := !(m.heap p).pinned && !(m.heap p).acquired

/-- The eviction loop, from `head.prev` backwards; what it unlinks goes to `free_object`. -/
def evict (m : Machine) : Machine :=
  let kept := sweep evictionThreshold m.removable m.head
  {m with head := kept, frees := fun p => if p ∈ m.head ∧ p ∉ kept then m.frees p + 1 else m.frees p}

/-- A freshly allocated block becomes the first of the list. -/
def link (m : Machine) (p : Ptr) (b : UInt64) : Machine :=
  {m with head := p :: m.head, allocs := m.allocs + 1
          heap := Function.update m.heap p {initBlock with blockNo := b}}

end Machine

section Routines
variable (arena : Arena)

/-- `cache_acquire` up to the release of the cache's spinlock: the block, and
whether it was in the cache. -/
def cacheFind (b : UInt64) : M (Ptr × Bool) := do
  let m ← get
  match m.lookup b with
  | some p =>
    set (m.touch p)
    return (p, true)
  | none =>
    let n := m.evict
    let p := arena.pick n.allocs n.head
    set (n.link p b)
    return (p, false)

/-- What a miss does once it has the block's sleeplock. -/
def cacheLoad (p : Ptr) : M Unit := do
  deviceRead p
  modify fun m => m.setBlock p fun b => {b with valid := true, acquired := true}

def cacheAcquire (b : UInt64) : M Ptr := do
  let r ← cacheFind arena b
  acquireSleeplock r.1
  if r.2 then return r.1
  else do
    cacheLoad r.1
    return r.1

def cacheRelease (p : Ptr) : M Unit := do
  modify fun m => m.setBlock p fun b => {b with acquired := false}
  releaseSleeplock p

/-- `memmove(to->data, from->data, BLOCK_SIZE)` -/
def copyData (dst src : Ptr) : M Unit :=
  modify fun m => m.setBlock dst fun b => {b with data := (m.heap src).data}

end Routines

end OS2021.Fs
