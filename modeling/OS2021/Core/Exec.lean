import OS2021.Core.FileCalls

/-! Replacing the image of a process (`core/exec.c`).

`execve` begins an operation, and ends it once the file is loaded. Where it leaves before
that, it leaves the operation open. -/
namespace OS2021.Core
open Fs Lib
open Common (strncmp)

/-! ### ELF files -/

/-- `sizeof(Elf64_Ehdr)` -/
abbrev ehdrSize : Nat := 64

/-- `sizeof(Elf64_Phdr)` -/
abbrev phdrSize : Nat := 56

/-- `ELFMAG` -/
abbrev elfmag : List UInt8 := [0x7f, 69, 76, 70]

/-- Field `i` of a struct, in units of its width `w`. -/
def field (w : Nat) (bytes : List UInt8) (i : Nat) : UInt64 := .ofNat (wordAt w (fun j => bytes.getD j 0) i)

section Ehdr
variable (elf : List UInt8)

/-- `elf.e_entry` -/
def eEntry : UInt64 := field 8 elf 3

/-- `elf.e_phoff` -/
def ePhoff : UInt64 := field 8 elf 4

/-- `elf.e_phnum` -/
def ePhnum : UInt64 := field 2 elf 28

end Ehdr

section Phdr
variable (ph : List UInt8)

/-- `ph.p_type` -/
def pType : UInt64 := field 4 ph 0

/-- `ph.p_offset` -/
def pOffset : UInt64 := field 8 ph 1

/-- `ph.p_vaddr` -/
def pVaddr : UInt64 := field 8 ph 2

/-- `ph.p_filesz` -/
def pFilesz : UInt64 := field 8 ph 4

/-- `ph.p_memsz` -/
def pMemsz : UInt64 := field 8 ph 5

end Phdr

/-- `PT_LOAD` -/
abbrev ptLoad : UInt64 := 1

/-- `inodes.read` into a struct that holds `old`: the result, and what the struct holds then. -/
def readStruct (env : Env) (ip : Ptr) (off : UInt64) (size : Nat) (old : List UInt8) : V (Nat × List UInt8) := do
  let r ← inodeRead env.sb env.console ip off.toNat size
  return (r.1, r.2 ++ old.drop r.2.length)

/-! ### Loading -/

section Loading
variable (env : Env) (pgdir : Nat) (ip : Ptr)

/-- The loop of `loaduvm`, and whether it has read all; every round reads at least one byte. -/
def loaduvmFrom : Nat → UInt64 → UInt32 → UInt32 → K Bool
  | 0, _, _, _ => throw .hang
  | fuel + 1, va, offset, sz =>
    if sz = 0 then return true
    else do
      let va0 := roundDown va
      match ← onMem (uva2ka pgdir va0) with
      | none => throw (.panic "addr not exist")
      | some pa => do
        let n := min (4096 - (va - va0)) sz.toUInt64
        let r ← onVol (inodeRead env.sb env.console ip offset.toNat n.toNat)
        onMem (modify fun m => m.setBytes (pa + (va - va0).toNat) r.2)
        if r.1 ≠ n.toNat then return false
        else loaduvmFrom fuel (va + n) (offset + n.toUInt32) (sz - n.toUInt32)

/-- `loaduvm` -/
def loaduvm (va : UInt64) (offset sz : UInt32) : K Bool := loaduvmFrom env pgdir ip (sz.toNat + 1) va offset sz

/-- The loop over `n` program headers from `off` on: the size of the image, unless it fails. -/
def loadSegments : Nat → UInt64 → List UInt8 → UInt64 → K (Option UInt64)
  | 0, _, _, sz => return some sz
  | n + 1, off, ph, sz => do
    let r ← onVol (readStruct env ip off phdrSize ph)
    let ph := r.2
    if r.1 ≠ phdrSize then return none
    else if pType ph ≠ ptLoad then loadSegments n (off + .ofNat phdrSize) ph sz
    else if pMemsz ph < pFilesz ph then return none
    else do
      let sz ← onMem (uvmAlloc env.kend pgdir sz (pVaddr ph + pMemsz ph))
      if ofInt sz = 0 then return none
      else do
        let loaded ← loaduvm env pgdir ip (pVaddr ph) (pOffset ph).toUInt32 (pFilesz ph).toUInt32
        if loaded then loadSegments n (off + .ofNat phdrSize) ph (ofInt sz) else return none

end Loading

/-- A program in memory: its page table, its size and where it starts. -/
structure Loaded where
  pgdir : Nat
  sz : UInt64
  entry : UInt64

/-- From the first read to the last segment; a failure leaves the page table made so far. -/
def loadImage (env : Env) (ip : Ptr) : K (Except (Option Nat) Loaded) := do
  let r ← onVol (readStruct env ip 0 ehdrSize (env.locals 8))
  let elf := r.2
  if r.1 < ehdrSize then return .error none
  else if strncmp elf elfmag 4 ≠ 0 then throw (.panic "bad magic")
  else do
    match ← onMem pgdirInit with
    | none => return .error none
    | some pgdir => do
      let sz ← loadSegments env pgdir ip (ePhnum elf).toNat (ePhoff elf) (env.locals 9) 0
      match sz with
      | none => return .error (some pgdir)
      | some sz => return .ok ⟨pgdir, sz, eEntry elf⟩

/-! ### The first stack of a program -/

/-- The strings of the arguments; `sp` after them, and where they are. -/
def pushArgs (pgdir : Nat) : List (List UInt8) → Nat → UInt64 → List UInt64 → MemM (Option (UInt64 × List UInt64))
  | [], _, sp, ustk => return some (sp, ustk)
  | arg :: rest, argc, sp, ustk => do
    if 32 < argc then return none
    else do
      let sp := sp - .ofNat (arg.length + 1)
      let sp := sp - sp % 16
      let r ← copyout pgdir sp (arg ++ [0])
      if r < 0 then return none else pushArgs pgdir rest (argc + 1) sp (ustk ++ [sp])

/-- A register of the caller. -/
def setX (p : ProcId) (i : Fin 6) (w : UInt64) : K Unit :=
  modify (·.setProc p fun q => {q with tf := {q.tf with x := Function.update q.tf.x i w}})

/-- `AT_PAGESZ` -/
abbrev atPagesz : UInt64 := 6

/-- What lies below the strings: the auxiliary vector, the end of the environment, the
arguments and their number. `copyout` takes eight bytes at `argc`, which has four. -/
def pushVectors (env : Env) (p : ProcId) (pgdir : Nat) (argc : Nat) (sp : UInt64) (ustk : List UInt64) :
    K (Option UInt64) := do
  setX p 0 (.ofNat argc)
  let sp := if argc % 2 = 0 then sp - 8 else sp
  let sp := sp - 32
  let r ← onMem (copyout pgdir sp (wordBytes [0, atPagesz, 4096, 0]))
  if r < 0 then return none
  else do
    let sp := sp - 8
    let r ← onMem (copyout pgdir sp (wordBytes [0]))
    if r < 0 then return none
    else do
      let sp := sp - .ofNat (argc + 1) * 8
      setX p 1 sp
      let r ← onMem (copyout pgdir sp (wordBytes (ustk ++ [0])))
      if r < 0 then return none
      else do
        let sp := sp - 8
        let beside := (List.range 4).map fun j => (env.locals 10).getD j 0
        let r ← onMem (copyout pgdir sp ((List.range 4).map (leByte argc) ++ beside))
        if r < 0 then return none else return some sp

/-- The size of the image with its stack, and `sp`. -/
def pushStack (env : Env) (p : ProcId) (pgdir : Nat) (argv : List (List UInt8)) (sz : UInt64) :
    K (Option (UInt64 × UInt64)) := do
  let sz := roundUp sz
  let r ← onMem (uvmAlloc env.kend pgdir sz (sz + 8192))
  let sz := ofInt r
  if sz = 0 then return none
  else do
    onMem (clearpteu pgdir (sz - 8192))
    match ← onMem (pushArgs pgdir argv 0 sz []) with
    | none => return none
    | some (sp, ustk) => do
      let sp ← pushVectors env p pgdir argv.length sp ustk
      return sp.map fun sp => (sz, sp)

/-! ### `execve` -/

/-- The image of a process, and where it goes on. -/
structure Image where
  pgdir : UInt64
  sz : UInt64
  elrEl1 : UInt64
  spEl0 : UInt64
  deriving DecidableEq

/-- Where `execve` leaves. -/
inductive ExecExit where
  | noFile
  /-- `bad`, before the file is closed -/
  | badFile
  /-- `bad`, after that -/
  | badStack
  | done (image : Image)

/-- What it returns. -/
def ExecExit.result : ExecExit → Int
  | done _ => 0
  | noFile | badFile | badStack => -1

/-- The new image takes the place of the old one. `strncpy` copies the whole path into
`name`, which has 16 bytes. -/
def switchImage (env : Env) (p : ProcId) (path : List UInt8) (image : Image) : K Unit := do
  let oldpgdir := ((← get).proc p).pgdir
  if 16 < path.length + 1 then throw .fault
  else do
    modify (·.setProc p fun q => {q with
      name := path ++ 0 :: q.name.drop (path.length + 1), pgdir := image.pgdir, sz := image.sz
      tf := {q.tf with elrEl1 := image.elrEl1, spEl0 := image.spEl0}})
    onMem (vmFree env.kend oldpgdir.toNat)

/-- `if (pgdir) vm_free(pgdir);` -/
def freeImage (env : Env) : Option Nat → K Unit
  | some pgdir => onMem (vmFree env.kend pgdir)
  | none => return ()

/-- `inodes.unlock` and `inodes.put`. -/
def closeInode (sb : SuperBlock) (ip : Ptr) : K Unit := do
  onVol (inodeUnlock ip)
  onVol (inodePut sb ip)

/-- `execve` up to its exit. `argv` are the arguments without the zeros at their ends. -/
def execveExit (env : Env) (p : ProcId) (path : List UInt8) (argv : List (List UInt8)) : K ExecExit := do
  beginOp
  let cwd ← walkFrom ((← get).proc p) path
  match ← onVol (namei env.sb env.arena env.console env.stack cwd path (env.locals 7)) with
  | none => return .noFile
  | some ip => do
    onVol (inodeLock ip)
    match ← loadImage env ip with
    | .error pgdir => do
      freeImage env pgdir
      closeInode env.sb ip
      return .badFile
    | .ok loaded => do
      closeInode env.sb ip
      endOp
      match ← pushStack env p loaded.pgdir argv loaded.sz with
      | none => do
        freeImage env (some loaded.pgdir)
        return .badStack
      | some (sz, sp) => do
        let image := ⟨.ofNat loaded.pgdir, sz, loaded.entry, sp⟩
        switchImage env p path image
        return .done image

def execve (env : Env) (p : ProcId) (path : List UInt8) (argv : List (List UInt8)) : K Int := do
  let e ← execveExit env p path argv
  return e.result

end OS2021.Core
