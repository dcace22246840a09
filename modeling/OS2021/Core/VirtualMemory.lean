import OS2021.Core.Memory

/-! User page tables (`core/virtual_memory.c`). -/
namespace OS2021.Core
open Fs Lib

/-! ### Page table entries (`aarch64/mmu.h`) -/

abbrev pteValid : UInt64 := 0x1
abbrev pteTable : UInt64 := 0x3
abbrev pteUser : UInt64 := 0x40
/-- `PTE_USER | PTE_NORMAL | PTE_PAGE` -/
abbrev pteUserData : UInt64 := 0x647

def isValid (pte : UInt64) : Bool := pte &&& pteValid != 0

/-- `PTE_ADDRESS`: the mask `~0xFFFu` is 32 bits wide. -/
def pteAddress (pte : UInt64) : Nat := (pte &&& 0xFFFFF000).toNat

/-- `PTE_FLAGS` -/
def pteFlags (pte : UInt64) : UInt64 := pte &&& 0xFFF

/-- `PX` -/
def px (level : Nat) (va : UInt64) : Fin nPtePerTable :=
  ⟨(va >>> (.ofNat (12 + 9 * level))).toNat % nPtePerTable, Nat.mod_lt _ (by decide)⟩

/-- `ROUNDDOWN(_, PGSIZE)` -/
def roundDown (a : UInt64) : UInt64 := a - a % 4096

/-- `ROUNDUP(_, PGSIZE)` -/
def roundUp (a : UInt64) : UInt64 := roundDown (a + 4096 - 1)

/-- The address of a page table entry: its table, and its place there. -/
abbrev PtePtr := Nat × Fin nPtePerTable

def Memory.pte (m : Memory) (pte : PtePtr) : UInt64 := m.page pte.1 pte.2

def Memory.setPte (m : Memory) (pte : PtePtr) (w : UInt64) : Memory :=
  { m with page := Function.update m.page pte.1 (Function.update (m.page pte.1) pte.2 w) }

/-! ### Walking and mapping -/

/-- `my_pgdir_init` -/
def pgdirInit : MemM (Option Nat) := kalloc

/-- The loop of `my_pgdir_walk`, at `level` and below. -/
def pgdirWalkFrom (va : UInt64) (alloc : Bool) : (level : Nat) → (pgdir : Nat) → MemM (Option PtePtr)
  | 0, pgdir => pure (some (pgdir, px 0 va))
  | level + 1, pgdir => do
    let pte := (← get).pte (pgdir, px (level + 1) va)
    if isValid pte then pgdirWalkFrom va alloc level (pteAddress pte)
    else if alloc then
      match ← kalloc with
      | none => pure none
      | some p =>
        modify (·.setPte (pgdir, px (level + 1) va) (.ofNat p ||| pteTable))
        pgdirWalkFrom va alloc level p
    else pure none

/-- `my_pgdir_walk` -/
def pgdirWalk (pgdir : Nat) (va : UInt64) (alloc : Bool) : MemM (Option PtePtr) := pgdirWalkFrom va alloc 3 pgdir

/-- The loop of `my_uvm_map`, `n` pages before its end. -/
def uvmMapFrom (pgdir : Nat) : (n : Nat) → (a pa : UInt64) → MemM Int32
  | 0, _, _ => pure 0
  | n + 1, a, pa => do
    match ← pgdirWalk pgdir a true with
    | none => pure (-1)
    | some pte =>
      if isValid ((← get).pte pte) then throw (.panic "remap")
      modify (·.setPte pte (pa ||| pteUserData))
      uvmMapFrom pgdir n (a + 4096) (pa + 4096)

/-- How many pages `my_uvm_map` goes through until `a == last`. -/
def mapPages (va sz : UInt64) : Nat := ((roundDown (va + sz - 1) - roundDown va) / 4096).toNat + 1

/-- `my_uvm_map` -/
def uvmMap (pgdir : Nat) (va sz pa : UInt64) : MemM Int32 := do
  if sz = 0 then throw (.panic "map:sz 0")
  uvmMapFrom pgdir (mapPages va sz) (roundDown va) pa

/-! ### Unmapping and freeing -/

/-- The loop of `uvmunmap`, `n` pages before its end. -/
def uvmunmapFrom (kend pgdir : Nat) (doFree : Bool) : (n : Nat) → (a : UInt64) → MemM Unit
  | 0, _ => pure ()
  | n + 1, a => do
    match ← pgdirWalk pgdir a false with
    | none => throw (.panic "walk")
    | some pte =>
      let w := (← get).pte pte
      if !isValid w then throw (.panic "not mapped")
      if pteFlags w = pteValid then throw (.panic "not a leaf")
      if doFree then kfree kend (pteAddress w)
      modify (·.setPte pte 0)
      uvmunmapFrom kend pgdir doFree n (a + 4096)

def uvmunmap (kend pgdir : Nat) (va npages : UInt64) (doFree : Bool) : MemM Unit := do
  if va % 4096 ≠ 0 then throw (.panic "not aligned")
  let stop := va + npages * 4096
  uvmunmapFrom kend pgdir doFree (if va < stop then ((stop - va) / 4096).toNat else 0) va

/-- `(int)` -/
def toInt (a : UInt64) : Int32 := a.toUInt32.toInt32

/-- `(u64)` of an `int` -/
def ofInt (a : Int32) : UInt64 := a.toInt64.toUInt64

/-- `my_uvm_dealloc`, which does not use `base`. -/
def uvmDealloc (kend pgdir : Nat) (oldsz newsz : UInt64) : MemM Int32 := do
  if oldsz ≤ newsz then return toInt oldsz
  if roundUp newsz < roundUp oldsz then
    let npgs := toInt ((roundUp oldsz - roundUp newsz) / 4096)
    uvmunmap kend pgdir (roundUp newsz) (ofInt npgs) true
  return 0

/-- The loop of `my_uvm_alloc`, `n` pages before its end. A page that cannot be
mapped is given back with all before it, and the loop goes on. -/
def uvmAllocFrom (kend pgdir : Nat) (oldsz newsz : UInt64) : (n : Nat) → (a : UInt64) → MemM Int32
  | 0, _ => pure (toInt newsz)
  | n + 1, a => do
    match ← kalloc with
    | none =>
      let _ ← uvmDealloc kend pgdir a oldsz
      pure 0
    | some mem =>
      if (← uvmMap pgdir a 4096 (.ofNat mem)) ≠ 0 then
        kfree kend mem
        let _ ← uvmDealloc kend pgdir a oldsz
      uvmAllocFrom kend pgdir oldsz newsz n (a + 4096)

/-- `my_uvm_alloc`, which does not use `base` and `stksz`. -/
def uvmAlloc (kend pgdir : Nat) (oldsz newsz : UInt64) : MemM Int32 :=
  if newsz < oldsz then pure (toInt oldsz)
  else uvmAllocFrom kend pgdir (roundUp oldsz) newsz ((newsz.toNat - (roundUp oldsz).toNat + 4095) / 4096)
    (roundUp oldsz)

/-- The loop of `my_uvm_copy`. A null page is a fault. `n` pages are enough if it is
more than are free: every round takes one. -/
def uvmCopyFrom (pgdir : Nat) (newpgdir : Option Nat) : (n : Nat) → (i : UInt64) → MemM Unit
  | 0, _ => throw .hang
  | n + 1, i => do
    match ← pgdirWalk pgdir i false with
    | none => pure ()
    | some pte =>
      let w := (← get).pte pte
      if isValid w then
        match ← kalloc, newpgdir with
        | some mem, some dir =>
          modify fun m => { m with page := Function.update m.page mem (m.page (pteAddress w)) }
          let _ ← uvmMap dir i 4096 (.ofNat mem)
          uvmCopyFrom pgdir newpgdir n (i + 4096)
        | _, _ => throw .fault

/-- `my_uvm_copy` -/
def uvmCopy (pgdir : Nat) : MemM (Option Nat) := do
  let newpgdir ← pgdirInit
  uvmCopyFrom pgdir newpgdir ((← get).free.length + 1) 0
  pure newpgdir

/-- `f` on what an entry of a table points to, if it is valid. -/
def onEntry (f : Nat → MemM Unit) (pgdir : Nat) (i : Fin nPtePerTable) : MemM Unit := do
  let pte := (← get).pte (pgdir, i)
  if isValid pte then f (pteAddress pte)

/-- `my_vm_free_r` on a table with `levels` levels of tables below it (`x` is 3 less `levels`). -/
def vmFreeR (kend : Nat) : (levels : Nat) → (pgdir : Nat) → MemM Unit
  | 0, pgdir => (List.finRange nPtePerTable).forM (onEntry (kfree kend) pgdir)
  | levels + 1, pgdir => do
    (List.finRange nPtePerTable).forM (onEntry (vmFreeR kend levels) pgdir)
    kfree kend pgdir

/-- `my_vm_free` -/
def vmFree (kend pgdir : Nat) : MemM Unit := vmFreeR kend 3 pgdir

/-! ### User addresses -/

def clearpteu (pgdir : Nat) (uva : UInt64) : MemM Unit := do
  match ← pgdirWalk pgdir uva false with
  | none => throw (.panic "clearpteu")
  | some pte => modify fun m => m.setPte pte (m.pte pte &&& ~~~pteUser)

/-- `uva2ka` follows the pointer it gets from the walk without a test. -/
def uva2ka (pgdir : Nat) (uva : UInt64) : MemM (Option Nat) := do
  match ← pgdirWalk pgdir uva false with
  | none => throw .fault
  | some pte =>
    let w := (← get).pte pte
    if !isValid w then return none
    if w &&& pteUser = 0 then return none
    return some (pteAddress w)

/-- `uva2ka1` also takes an entry that is not valid, which has address 0. -/
def uva2ka1 (pgdir : Nat) (uva : UInt64) : MemM Nat := do
  match ← pgdirWalk pgdir uva true with
  | none => throw .fault
  | some pte => return pteAddress ((← get).pte pte)

/-- The loop of `my_copyout`; every round copies at least one byte. -/
def copyoutFrom (pgdir : Nat) : (fuel : Nat) → (va : UInt64) → (buf : List UInt8) → MemM Int32
  | 0, _, _ => pure 0
  | fuel + 1, va, buf => do
    if buf.isEmpty then return 0
    let va0 := roundDown va
    let pa0 ← uva2ka1 pgdir va0
    let n := min (pageSize - (va - va0).toNat) buf.length
    modify (·.setBytes (pa0 + (va - va0).toNat) (buf.take n))
    copyoutFrom pgdir fuel (va0 + 4096) (buf.drop n)

/-- `my_copyout` -/
def copyout (pgdir : Nat) (va : UInt64) (p : List UInt8) : MemM Int32 := copyoutFrom pgdir p.length va p

/-! ### A page of words -/

/-- A page table with one page, at address 0, that has the given words. -/
def pageWith (words : Nat → UInt64) : Memory where
  page := fun p i =>
    if p = 0x5000 then words i
    else if i ≠ 0 then 0
    else if p = 0x1000 then 0x2003
    else if p = 0x2000 then 0x3003
    else if p = 0x3000 then 0x4003
    else if p = 0x4000 then 0x5647
    else 0
  free := []

end OS2021.Core
