import OS2021.Core.Proc

/-! Physical memory (`core/physical_memory.c`).

A page is named by its physical address; `P2K` and `K2P` only move an address in and
out of the kernel's half of the address space. A page is 512 words of eight bytes,
which is how page tables read it; user memory is read by the byte. The free list is
kept in the free pages: the first word of each has the next one. -/
namespace OS2021.Core
open Fs Lib Function

/-- `PAGE_SIZE`, `PGSIZE` -/
abbrev pageSize : Nat := 4096

/-- `N_PTE_PER_TABLE` -/
abbrev nPtePerTable : Nat := 512

/-- The end of memory that the manager is given (`phystop`). -/
abbrev phystop : Nat := 0x3F000000

/-- `KERNBASE` -/
abbrev kernbase : Nat := 0xffff000000000000

/-- `P2K` -/
def p2k (address : Nat) : UInt64 := .ofNat (address + 0xffff000000000000)

structure Memory where
  page : Nat → Fin nPtePerTable → UInt64
  /-- The pages from the list head on. -/
  free : List Nat

abbrev MemM := EStateM Halt Memory

/-- `freelist_alloc`: the first free page, all zero. -/
def kalloc : MemM (Option Nat) := do
  let m ← get
  match m.free with
  | [] => pure none
  | p :: rest =>
    set { m with page := update m.page p fun _ => 0, free := rest }
    pure (some p)

/-- `freelist_free`. `kend` is the linker's `end`. -/
def kfree (kend p : Nat) : MemM Unit := do
  if p % pageSize ≠ 0 ∨ p < kend ∨ phystop ≤ p then throw (.panic "ERR ADDR")
  modify fun m =>
    let next : UInt64 := match m.free with
      | [] => 0
      | q :: _ => p2k q
    { m with page := update m.page p fun i => if i = 0 then next else 0, free := p :: m.free }

/-! ### Bytes of a page -/

/-- Byte `k` of a word, the machine being little-endian. -/
def wordByte (w : UInt64) (k : Nat) : UInt8 := (w >>> (.ofNat (8 * k))).toUInt8

/-- The bytes of some words. -/
def wordBytes (ws : List UInt64) : List UInt8 := ws.flatMap fun w => (List.range 8).map (wordByte w)

def setWordByte (w : UInt64) (k : Nat) (b : UInt8) : UInt64 :=
  w &&& ~~~((0xff : UInt64) <<< (.ofNat (8 * k))) ||| b.toUInt64 <<< (.ofNat (8 * k))

/-- The word of its page that an address is in. -/
def wordIndex (a : Nat) : Fin nPtePerTable := ⟨a % pageSize / 8, by
  have : a % 4096 < 4096 := Nat.mod_lt _ (by decide)
  show a % 4096 / 8 < 512
  omega⟩

def Memory.byte (m : Memory) (a : Nat) : UInt8 := wordByte (m.page (a / pageSize * pageSize) (wordIndex a)) (a % 8)

def Memory.setByte (m : Memory) (a : Nat) (b : UInt8) : Memory :=
  let p := a / pageSize * pageSize
  let words := update (m.page p) (wordIndex a) (setWordByte (m.page p (wordIndex a)) (a % 8) b)
  { m with page := update m.page p words }

/-- `memmove` into memory. -/
def Memory.setBytes (m : Memory) (a : Nat) : List UInt8 → Memory
  | [] => m
  | b :: bs => (m.setByte a b).setBytes (a + 1) bs

end OS2021.Core
