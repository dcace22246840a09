import OS2021.Fs.Cache

/-! Processes (`core/proc.h`). -/
namespace OS2021.Core
open Fs

/-- `NPROC` -/
abbrev nproc : Nat := 14

instance : NeZero nproc := ⟨by decide⟩

/-- `NOFILE` -/
abbrev nofile : Nat := 8

instance : NeZero nofile := ⟨by decide⟩

/-- `NFILE` (`fs/file.h`) -/
abbrev nfile : Nat := 100

instance : NeZero nfile := ⟨by decide⟩

/-- `enum procstate` -/
inductive ProcState where
  | unused
  | embryo
  | sleeping
  | runnable
  | running
  | zombie
  deriving DecidableEq

/-- The saved user registers: the arguments of a system call, `pc` and `sp`. -/
structure Trapframe where
  x : Fin 6 → UInt64
  elrEl1 : UInt64
  spEl0 : UInt64

instance Trapframe.neZero : NeZero 6 := ⟨by decide⟩

/-- The address of a `struct proc`: the container whose table it is in, and its place there. -/
abbrev ProcId := Nat × Fin nproc

/-- `struct proc`, with the trapframe its `tf` points to. -/
structure Proc where
  sz : UInt64
  pgdir : UInt64
  kstack : UInt64
  state : ProcState
  pid : Int
  parent : Option ProcId
  tf : Trapframe
  killed : Bool
  name : List UInt8
  ofile : Fin nofile → Option (Fin nfile)
  cwd : Option Ptr
  stksz : UInt64
  base : UInt64

/-- A process table is zero when its container is made. -/
def Proc.zero : Proc where
  sz := 0
  pgdir := 0
  kstack := 0
  state := .unused
  pid := 0
  parent := none
  tf := ⟨fun _ => 0, 0, 0⟩
  killed := false
  name := []
  ofile := fun _ => none
  cwd := none
  stksz := 0
  base := 0

end OS2021.Core
