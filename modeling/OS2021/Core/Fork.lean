import OS2021.Core.Sysfile

/-! The life of a process (`core/proc.c`). -/
namespace OS2021.Core
open Fs Lib
open Common (strncpy)

/-- `KSTACKSIZE` -/
abbrev kstacksize : UInt64 := 4096

/-- `alloc_pcb` of the scheduler of container `this`. -/
def allocPcb (env : Env) (this : Nat) : K (Option ProcId) := do
  let k ← get
  let r := allocPcbSimple env.tree this k.procs
  set {k with procs := r.2}
  return r.1

/-- `alloc_proc`. The stack is a page that is all zero, and the trapframe is in it. -/
def Kernel.allocProc (env : Env) (this : Nat) : K (Option ProcId) := do
  match ← allocPcb env this with
  | none => return none
  | some p => do
    modify (·.setProc p fun q => {q with state := .embryo})
    match ← onMem kalloc with
    | none => do
      modify (·.setProc p fun q => {q with state := .unused})
      return none
    | some stp => do
      modify (·.setProc p fun q => {q with kstack := .ofNat stp + kstacksize, tf := ⟨fun _ => 0, 0, 0⟩})
      return some p

/-! ### `growproc` -/

/-- The new size of a process that asks for `n` more bytes: the `int` that `uvm_alloc` or
`uvm_dealloc` returns. -/
def resize (kend : Nat) (q : Proc) (n : Int32) : K UInt64 :=
  if 0 < n then do
    let sz ← onMem (uvmAlloc kend q.pgdir.toNat q.sz (q.sz + ofInt n))
    return ofInt sz
  else if n < 0 then do
    let sz ← onMem (uvmDealloc kend q.pgdir.toNat q.sz (q.sz + ofInt n))
    return ofInt sz
  else return q.sz

/-- `growproc` of the process `p` that is running. -/
def growproc (kend : Nat) (p : ProcId) (n : Int32) : K Int := do
  let sz ← resize kend ((← get).proc p) n
  if 0 < n ∧ sz = 0 then return -1
  else do
    modify (·.setProc p fun q => {q with sz})
    return 0

/-! ### `fork` -/

/-- One round of the loop over descriptors. -/
def dupSlot (p np : ProcId) (fd : Fin nofile) : K Unit := do
  match ((← get).proc p).ofile fd with
  | none => pure ()
  | some f => do
    let f ← filedup f
    modify (·.setSlot np fd (some f))

/-- `np->cwd = inodes.share(p->cwd)`, which follows the pointer without a test. -/
def shareCwd (p np : ProcId) : K Unit := do
  match ((← get).proc p).cwd with
  | none => throw .fault
  | some cwd => do
    let cwd ← onVol (inodeShare cwd)
    modify (·.setProc np fun q => {q with cwd := some cwd})

/-- The child of `p` gets its memory and registers; `fork` returns 0 to it. -/
def Proc.forked (parent : Proc) (pgdir : Nat) (p : ProcId) (q : Proc) : Proc :=
  {q with
    pgdir := .ofNat pgdir, sz := parent.sz, tf := {parent.tf with x := Function.update parent.tf.x 0 0}
    parent := some p}

def fork (env : Env) (p : ProcId) : K Int := do
  match ← Kernel.allocProc env p.1 with
  | none => return -1
  | some np => do
    match ← onMem (uvmCopy ((← get).proc p).pgdir.toNat) with
    | none => do
      onMem (kfree env.kend (((← get).proc np).kstack - kstacksize).toNat)
      modify (·.setProc np fun q => {q with pgdir := 0, kstack := 0, state := .unused})
      return -1
    | some pgdir => do
      let parent := (← get).proc p
      modify (·.setProc np (parent.forked pgdir p))
      (List.finRange nofile).forM (dupSlot p np)
      modify (·.setProc np fun q => {q with name := strncpy parent.name 16})
      shareCwd p np
      modify (·.setProc np fun q => {q with state := .runnable})
      return ((← get).proc np).pid

/-! ### `exit` and `wait` -/

/-- One round of the loop over descriptors. -/
def closeSlot (sb : SuperBlock) (p : ProcId) (fd : Fin nofile) : K Unit := do
  match ((← get).proc p).ofile fd with
  | none => pure ()
  | some f => do
    fileclose sb f
    modify (·.setSlot p fd none)

/-- `inodes.put(&ctx, p->cwd)`, which follows the pointer without a test. -/
def putCwd (sb : SuperBlock) (p : ProcId) : K Unit := do
  beginOp
  match ((← get).proc p).cwd with
  | none => throw .fault
  | some cwd => do
    onVol (inodePut sb cwd)
    endOp
    modify (·.setProc p fun q => {q with cwd := none})

/-- `exit`, up to where it leaves for the scheduler. -/
def exit (env : Env) (p : ProcId) : K Unit := do
  if p = env.initproc then throw (.panic "exit INITPROC")
  else do
    (List.finRange nofile).forM (closeSlot env.sb p)
    putCwd env.sb p
    modify fun k => {k with procs := bury env.initproc p k.procs}

/-- One round of the loop of `wait`: what it returns, or `none` if it goes to sleep. -/
def waitRound (env : Env) (p : ProcId) : K (Option Int) := do
  let k ← get
  match deadChild p k.procs with
  | some i => do
    let q := k.proc (p.1, i)
    set {k with procs := reap p k.procs}
    onMem (vmFree env.kend q.pgdir.toNat)
    onMem (kfree env.kend (q.kstack - kstacksize).toNat)
    return some q.pid
  | none =>
    if (∀ i, (k.proc (p.1, i)).parent ≠ some p) ∨ (k.proc p).killed then return some (-1)
    else do
      set (k.setProc p fun q => {q with state := .sleeping})
      return none

end OS2021.Core
