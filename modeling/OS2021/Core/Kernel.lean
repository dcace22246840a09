import OS2021.Core.Container
import OS2021.Core.VirtualMemory
import OS2021.Fs.Path
import OS2021.Lib.Parts

/-! The kernel as system calls see it.

Its state is the volume, physical memory, the process tables and the file table, with
the number of operations that the log waits for. A call runs to its end; what it does
to inodes and to memory are the routines of these. The arguments of a call are in the
saved registers of the process and in its memory (`core/syscall.c`). -/
namespace OS2021.Core
open Fs Lib

/-! ### State -/

/-- `FD_NONE`, `FD_PIPE`, `FD_INODE` -/
inductive FileType where
  | none
  | pipe
  | inode
  deriving DecidableEq

/-- `struct file` -/
structure File where
  type : FileType
  ref : Int
  readable : Bool
  writable : Bool
  ip : Ptr
  off : UInt64

structure Kernel where
  vol : Volume
  mem : Memory
  procs : Containers
  ftable : Fin nfile → File
  /-- `log.outstanding` -/
  outstanding : Int

/-- What does not change while the kernel runs, and what a call cannot know: the objects
it gets, what the console reads and what is on its stack. -/
structure Env where
  sb : SuperBlock
  arena : Arena
  console : Console
  stack : List UInt8 → List UInt8
  /-- What the other local variables hold that are not initialised. -/
  locals : Nat → List UInt8
  /-- The linker's `end`. -/
  kend : Nat
  tree : ContainerTree
  initproc : ProcId

abbrev K := EStateM Halt Kernel

/-- A routine on inodes. -/
def onVol {α : Type} (x : V α) : K α := onPart Kernel.vol (fun vol k => {k with vol}) x

/-- A routine on memory. -/
def onMem {α : Type} (x : MemM α) : K α := onPart Kernel.mem (fun mem k => {k with mem}) x

theorem onVol_ok {α : Type} {x : V α} {k k' : Kernel} {a : α} (h : (onVol x).run k = .ok a k') :
    ∃ vol, x.run k.vol = .ok a vol ∧ k' = {k with vol} := onPart_ok h

theorem onMem_ok {α : Type} {x : MemM α} {k k' : Kernel} {a : α} (h : (onMem x).run k = .ok a k') :
    ∃ mem, x.run k.mem = .ok a mem ∧ k' = {k with mem} := onPart_ok h

theorem onVol_run {α : Type} {x : V α} {k : Kernel} {a : α} {vol : Volume} (h : x.run k.vol = .ok a vol) :
    (onVol x).run k = .ok a {k with vol} := onPart_run h

theorem onMem_run {α : Type} {x : MemM α} {k : Kernel} {a : α} {mem : Memory} (h : x.run k.mem = .ok a mem) :
    (onMem x).run k = .ok a {k with mem} := onPart_run h

namespace Kernel

def proc (k : Kernel) (p : ProcId) : Proc := k.procs.proc p

def setProc (k : Kernel) (p : ProcId) (f : Proc → Proc) : Kernel := {k with procs := k.procs.setProc p f}

/-- `p->ofile[fd] = f` -/
def setSlot (k : Kernel) (p : ProcId) (fd : Fin nofile) (f : Option (Fin nfile)) : Kernel :=
  k.setProc p fun q => {q with ofile := Function.update q.ofile fd f}

def setFile (k : Kernel) (i : Fin nfile) (f : File → File) : Kernel :=
  {k with ftable := Function.update k.ftable i (f (k.ftable i))}

end Kernel

/-- `bcache.begin_op`, once there is room in the log. -/
def beginOp : K Unit := modify fun k => {k with outstanding := k.outstanding + 1}

/-- `bcache.end_op`, once what it has done is committed. -/
def endOp : K Unit := modify fun k => {k with outstanding := k.outstanding - 1}

/-! ### Arguments (`core/syscall.c`) -/

/-- `USERTOP` -/
abbrev usertop : UInt64 := 0x0001000000000000

def inUser (p : Proc) (s n : UInt64) : Bool :=
  (p.base ≤ s && s + n ≤ p.sz) || (usertop - p.stksz ≤ s && s + n ≤ usertop)

/-- The `n`-th argument. -/
def argu64 (p : Proc) (n : Nat) : Option UInt64 := if h : n < 6 then some (p.tf.x ⟨n, h⟩) else none

def argint (p : Proc) (n : Nat) : Option Int32 := (argu64 p n).map toInt

def argptr (p : Proc) (n : Nat) (size : UInt64) : Option UInt64 :=
  (argu64 p n).bind fun i => if inUser p i size then some i else none

/-- The kernel reads and writes user memory through the page table of the process. An
address that is not mapped is a fault. -/
def userAddress (pgdir : Nat) (va : UInt64) : MemM Nat := do
  match ← pgdirWalk pgdir va false with
  | none => throw .fault
  | some pte =>
    let w := (← get).pte pte
    if isValid w then return pteAddress w + (va % 4096).toNat else throw .fault

def userByte (pgdir : Nat) (va : UInt64) : MemM UInt8 := do
  let a ← userAddress pgdir va
  return (← get).byte a

/-- `n` bytes from `va` on. -/
def loadUser (pgdir : Nat) : (n : Nat) → (va : UInt64) → MemM (List UInt8)
  | 0, _ => return []
  | n + 1, va => do
    let b ← userByte pgdir va
    let rest ← loadUser pgdir n (va + 1)
    return b :: rest

def storeUser (pgdir : Nat) : List UInt8 → (va : UInt64) → MemM Unit
  | [], _ => return ()
  | b :: rest, va => do
    let a ← userAddress pgdir va
    modify (·.setByte a b)
    storeUser pgdir rest (va + 1)

/-- The loops of `fetchstr`, `n` bytes before their end. -/
def fetchstrFrom (pgdir : Nat) : (n : Nat) → (va : UInt64) → MemM (Option (List UInt8))
  | 0, _ => return none
  | n + 1, va => do
    let b ← userByte pgdir va
    if b = 0 then return some []
    else do
      let rest ← fetchstrFrom pgdir n (va + 1)
      return rest.map (b :: ·)

/-- The string at `addr`; the length that `fetchstr` returns is an `int`. -/
def fetchstr (p : Proc) (addr : UInt64) : MemM (Option (List UInt8)) := do
  let stop := if p.base ≤ addr ∧ addr < p.sz then p.sz
    else if usertop - p.stksz ≤ addr ∧ addr < usertop then usertop
    else addr
  let s ← fetchstrFrom p.pgdir.toNat (stop - addr).toNat addr
  return s.filter fun s => 0 ≤ toInt (.ofNat s.length)

def argstr (p : Proc) (n : Nat) : MemM (Option (List UInt8)) :=
  match argu64 p n with
  | none => return none
  | some addr => fetchstr p addr

end OS2021.Core
