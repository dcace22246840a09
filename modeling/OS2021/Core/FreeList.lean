import OS2021.Core.PageTable
import OS2021.Lib.Chain
import OS2021.Lib.Runs
import Mathlib.Data.List.Perm.Basic

/-! The free list of the page allocator (`core/physical_memory.c`).

The list is threaded through the free pages: the first eight bytes of each are the address of
the next. Its head is a variable of the kernel, and all pages lie behind the kernel. A page is
wiped when it is handed out and when it comes back. Here memory is bytes at addresses of the
kernel; `kalloc` and `kfree` as the other modules have them are these (`kalloc_refines`,
`kfree_refines`). -/
namespace OS2021.Core.FreeList
open Fs Lib Function

/-! ### Memory -/

/-- The bytes of memory, and `pmem.struct_ptr`. -/
structure Heap where
  byte : Nat → UInt8
  structPtr : Nat

namespace Heap

/-- `p->next` -/
def next (h : Heap) (p : Nat) : Nat := leNat 8 fun j => h.byte (p + j)

/-- `p->next = q` -/
def setNext (h : Heap) (p q : Nat) : Heap :=
  {h with byte := fun x => if p ≤ x ∧ x < p + 8 then leByte q (x - p) else h.byte x}

def setByte (h : Heap) (a : Nat) (b : UInt8) : Heap := {h with byte := update h.byte a b}

/-- The loop that writes `n` zeros from `p` on. -/
def clear (h : Heap) (p : Nat) : Nat → Heap
  | 0 => h
  | n + 1 => (h.clear p n).setByte (p + n) 0

/-- The page `f` is taken from the list and wiped. -/
def taken (h : Heap) (ds f : Nat) : Heap := (h.setNext ds (h.next f)).clear f pageSize

/-- The page `p` is wiped and put in front of the list. -/
def given (h : Heap) (ds p : Nat) : Heap :=
  let h := h.clear p pageSize
  let h := h.setNext p (h.next ds)
  h.setNext ds p

end Heap

abbrev F := EStateM Halt Heap

/-- `P2K(phystop)` -/
abbrev physEnd : Nat := kernbase + phystop

/-! ### Routines -/

def freelistAlloc (ds : Nat) : F Nat := do
  let h ← get
  let f := h.next ds
  if f ≠ 0 then do
    set (h.taken h.structPtr f)
    return f
  else return f

/-- `kend` is the linker's `end`. -/
def freelistFree (kend ds p : Nat) : F Unit :=
  if p % pageSize ≠ 0 ∨ p < kend ∨ physEnd ≤ p then throw (.panic "ERR ADDR")
  else modify (·.given ds p)

def kalloc : F Nat := do freelistAlloc (← get).structPtr

def kfree (kend p : Nat) : F Unit := do freelistFree kend (← get).structPtr p

/-- The loop of `free_range`. -/
def freeRangeFrom (kend stop : Nat) : (fuel p : Nat) → F Unit
  | 0, _ => throw .hang
  | fuel + 1, p =>
    if (p + pageSize) % 2 ^ 64 ≤ stop then do
      freelistFree kend (← get).structPtr p
      freeRangeFrom kend stop fuel ((p + pageSize) % 2 ^ 64)
    else return ()

/-- `free_range`, with a round for each page there can be and one to end. -/
def freeRange (kend start stop : Nat) : F Unit := freeRangeFrom kend stop (2 ^ 52 + 1) start

def freelistInit (kend start stop : Nat) : F Unit := freeRange kend start stop

/-! ### Reading what has been written -/

namespace Heap
variable {h h' : Heap} {p q x n : Nat}

theorem next_congr (hbyte : ∀ y, x ≤ y → y < x + 8 → h'.byte y = h.byte y) : h'.next x = h.next x :=
  leNat_congr fun j hj => hbyte (x + j) (Nat.le_add_right x j) (Nat.add_lt_add_left hj x)

theorem next_zero (hbyte : ∀ y, x ≤ y → y < x + 8 → h.byte y = 0) : h.next x = 0 := by
  have hzero : h.next x = leNat 8 fun _ => 0 :=
    leNat_congr fun j hj => hbyte (x + j) (Nat.le_add_right x j) (Nat.add_lt_add_left hj x)
  rw [hzero]
  rfl

theorem next_lt (h : Heap) (x : Nat) : h.next x < 2 ^ 64 := leNat_lt 8 _

theorem structPtr_setNext : (h.setNext p q).structPtr = h.structPtr := rfl

theorem byte_setNext_of_out (hx : x < p ∨ p + 8 ≤ x) : (h.setNext p q).byte x = h.byte x :=
  if_neg fun hin => by omega

theorem next_setNext_self (hq : q < 2 ^ 64) : (h.setNext p q).next p = q := by
  have hbytes : (h.setNext p q).next p = leNat 8 (leByte q) := leNat_congr fun j hj => by
    rw [setNext]
    dsimp only
    rw [if_pos ⟨Nat.le_add_right p j, Nat.add_lt_add_left hj p⟩, Nat.add_sub_cancel_left]
  rw [hbytes, leNat_leByte]
  exact Nat.mod_eq_of_lt hq

theorem byte_setByte {a : Nat} {b : UInt8} : (h.setByte a b).byte x = if x = a then b else h.byte x :=
  update_apply ..

theorem byte_clear : (h.clear p n).byte x = if p ≤ x ∧ x < p + n then 0 else h.byte x := by
  induction n with
  | zero => rw [clear, if_neg (by omega)]
  | succ n ih =>
    rw [clear, byte_setByte]
    by_cases hlast : x = p + n
    · rw [if_pos hlast, if_pos (by omega)]
    · rw [if_neg hlast, ih]
      by_cases hin : p ≤ x ∧ x < p + n
      · rw [if_pos hin, if_pos (by omega)]
      · rw [if_neg hin, if_neg (by omega)]

theorem structPtr_clear : (h.clear p n).structPtr = h.structPtr := by
  induction n with
  | zero => rfl
  | succ n ih => exact ih

end Heap

/-! ### Pages -/

/-- A page that `kfree` takes. -/
def Managed (kend p : Nat) : Prop := p % pageSize = 0 ∧ kend ≤ p ∧ p < physEnd

/-- What changes: the head, and one page. -/
def Frame (head p : Nat) (h h' : Heap) : Prop :=
  ∀ x, x < head ∨ head + 8 ≤ x → x < p ∨ p + pageSize ≤ x → h'.byte x = h.byte x

section Pages
variable {kend head p q x : Nat} {h h' : Heap}

theorem Managed.apart (hp : Managed kend p) (hq : Managed kend q) (hne : q ≠ p) :
    q + pageSize ≤ p ∨ p + pageSize ≤ q := by
  have hp' : p % 4096 = 0 := hp.1
  have hq' : q % 4096 = 0 := hq.1
  show q + 4096 ≤ p ∨ p + 4096 ≤ q
  omega

section
variable (hf : Frame head p h h') (hhead : head + 8 ≤ kend) (hp : Managed kend p) (hq : Managed kend q)
include hf hhead hp hq

/-- The other pages are as they were. -/
theorem Frame.page (hne : q ≠ p) (hx : q ≤ x) (hx' : x < q + pageSize) : h'.byte x = h.byte x := by
  have hafter := hq.2.1
  have hapart := hp.apart hq hne
  exact hf x (by omega) (by omega)

theorem Frame.next (hne : q ≠ p) : h'.next q = h.next q :=
  Heap.next_congr fun y hy hy' => hf.page hhead hp hq hne hy (by show y < q + 4096; omega)

end

namespace Heap

theorem taken_frame : Frame head p h (h.taken head p) := fun x hx hx' => by
  rw [taken, byte_clear, if_neg (by omega), byte_setNext_of_out hx]

theorem taken_zero (hx : p ≤ x) (hx' : x < p + pageSize) : (h.taken head p).byte x = 0 := by
  rw [taken, byte_clear, if_pos ⟨hx, hx'⟩]

/-- The head points to the page behind the one that was taken. -/
theorem taken_next (hhead : head + 8 ≤ p) : (h.taken head p).next head = h.next p := by
  have hkept : (h.taken head p).next head = (h.setNext head (h.next p)).next head := next_congr fun y _ hy => by
    rw [taken, byte_clear, if_neg (by omega)]
  rw [hkept, next_setNext_self (h.next_lt p)]

theorem structPtr_given : (h.given head p).structPtr = h.structPtr := by
  rw [given, structPtr_setNext, structPtr_setNext, structPtr_clear]

theorem given_frame : Frame head p h (h.given head p) := fun x hx hx' => by
  have hx'' : x < p ∨ p + 4096 ≤ x := hx'
  rw [given, byte_setNext_of_out hx, byte_setNext_of_out (by omega), byte_clear, if_neg (by omega)]

/-- The page is first in the list, and the list it was put in front of is behind it. -/
theorem given_next (hhead : head + 8 ≤ p) (hp : p < 2 ^ 64) :
    (h.given head p).next head = p ∧ (h.given head p).next p = h.next head := by
  have hold : (h.clear p pageSize).next head = h.next head := next_congr fun y _ hy => by
    rw [byte_clear, if_neg (by omega)]
  refine ⟨next_setNext_self hp, ?_⟩
  rw [given, hold]
  refine (next_congr fun y hy _ => byte_setNext_of_out ?_).trans (next_setNext_self (h.next_lt head))
  omega

end Heap

end Pages

/-! ### Calls -/

/-- The allocator, and the pages that it has handed out. -/
structure State where
  heap : Heap
  out : List Nat

/-- The free pages are those of the list, and with the ones handed out they are `pages`. -/
structure Conserved (head : Nat) (pages : List Nat) (s : State) (free : List Nat) : Prop where
  ptr : s.heap.structPtr = head
  chain : Chain s.heap.next 0 (s.heap.next head) free
  perm : (free ++ s.out).Perm pages

section Calls
variable {kend head p q a : Nat} {b : UInt8} {pages free : List Nat} {s : State} (hhead : head + 8 ≤ kend)
  (hpages : ∀ p ∈ pages, Managed kend p)

namespace Conserved

theorem mem_iff (h : Conserved head pages s free) : p ∈ free ∨ p ∈ s.out ↔ p ∈ pages := by
  rw [← List.mem_append]
  exact h.perm.mem_iff

/-- Without free pages `kalloc` returns a null pointer. -/
theorem kalloc_none (h : Conserved head pages s []) : kalloc.run s.heap = .ok 0 s.heap := by
  have hnext : s.heap.next s.heap.structPtr = 0 := by
    rw [h.ptr]
    exact h.chain
  rw [kalloc, bind_ok (get_run _), freelistAlloc, bind_ok (get_run _), hnext]
  rfl

include hhead hpages

/-- Otherwise it returns the first page. -/
theorem kalloc_some (h : Conserved head pages s (p :: free)) :
    kalloc.run s.heap = .ok p (s.heap.taken head p) ∧ p ≠ 0 ∧
      Conserved head pages ⟨s.heap.taken head p, p :: s.out⟩ free := by
  have hp := hpages p (h.mem_iff.mp (Or.inl List.mem_cons_self))
  have hbefore : head + 8 ≤ p := hhead.trans hp.2.1
  have hne : p ≠ 0 := by omega
  obtain ⟨hfirst, -, hrest⟩ := h.chain
  rw [hfirst] at hrest
  refine ⟨?_, hne, ?_, ?_, ?_⟩
  · rw [kalloc, bind_ok (get_run _), freelistAlloc, bind_ok (get_run _), h.ptr]
    dsimp only
    rw [hfirst, if_pos hne, bind_ok (set_run _ _)]
    rfl
  · exact Heap.structPtr_clear.trans h.ptr
  · rw [Heap.taken_next hbefore]
    refine hrest.congr fun q hq => Heap.taken_frame.next hhead hp ?_ fun he => ?_
    · exact hpages q (h.mem_iff.mp (Or.inl (List.mem_cons_of_mem p hq)))
    · exact (List.nodup_cons.mp h.chain.nodup).1 (he ▸ hq)
  · exact List.perm_middle.trans h.perm

/-- A page that was handed out can be given back. -/
theorem kfree_run (h : Conserved head pages s free) (hnodup : pages.Nodup) (hout : p ∈ s.out) :
    (kfree kend p).run s.heap = .ok () (s.heap.given head p) ∧
      Conserved head pages ⟨s.heap.given head p, s.out.erase p⟩ (p :: free) := by
  have hp := hpages p (h.mem_iff.mp (Or.inr hout))
  have hbefore : head + 8 ≤ p := hhead.trans hp.2.1
  have hlt : p < 2 ^ 64 := by
    have hhigh : p < 0xffff00003f000000 := hp.2.2
    omega
  obtain ⟨hfirst, hbehind⟩ := Heap.given_next (h := s.heap) hbefore hlt
  refine ⟨?_, Heap.structPtr_given.trans h.ptr, ⟨hfirst, ?_, ?_⟩, ?_⟩
  · have hcheck : ¬ (p % pageSize ≠ 0 ∨ p < kend ∨ physEnd ≤ p) := by
      have hlow := hp.2.1
      have hhigh := hp.2.2
      have hmod := hp.1
      omega
    rw [kfree, bind_ok (get_run _), freelistFree, if_neg hcheck, modify_run, h.ptr]
  · rw [hfirst]
    omega
  · rw [hfirst, hbehind]
    refine h.chain.congr fun q hq => Heap.given_frame.next hhead hp ?_ fun he => ?_
    · exact hpages q (h.mem_iff.mp (Or.inl hq))
    · exact (List.nodup_append.mp (h.perm.nodup_iff.mpr hnodup)).2.2 q hq p hout he
  · exact (List.perm_middle.symm.trans ((List.perm_cons_erase hout).symm.append_left free)).trans h.perm

/-- What is written to a page that was handed out is no part of the list. -/
theorem write (h : Conserved head pages s free) (hnodup : pages.Nodup) (hout : p ∈ s.out) (ha : p ≤ a)
    (ha' : a < p + pageSize) : Conserved head pages ⟨s.heap.setByte a b, s.out⟩ free := by
  have hp := hpages p (h.mem_iff.mp (Or.inr hout))
  have hafter := hp.2.1
  have hhead' : (s.heap.setByte a b).next head = s.heap.next head := Heap.next_congr fun y _ hy => by
    rw [Heap.byte_setByte, if_neg (by omega)]
  refine ⟨h.ptr, ?_, h.perm⟩
  rw [hhead']
  refine h.chain.congr fun q hq => Heap.next_congr fun y hy hy' => ?_
  have hne : q ≠ p := (List.nodup_append.mp (h.perm.nodup_iff.mpr hnodup)).2.2 q hq p hout
  have hapart : q + 4096 ≤ p ∨ p + 4096 ≤ q := hp.apart (hpages q (h.mem_iff.mp (Or.inl hq))) hne
  have ha'' : a < p + 4096 := ha'
  rw [Heap.byte_setByte, if_neg (by omega)]

end Conserved

end Calls

/-! ### The first list -/

/-- The first `n` pages from `start` on. -/
def pagesFrom (start n : Nat) : List Nat := (List.range n).map fun i => start + pageSize * i

theorem pagesFrom_succ (start n : Nat) : pagesFrom start (n + 1) = pagesFrom start n ++ [start + pageSize * n] := by
  rw [pagesFrom, List.range_succ, List.map_append]
  rfl

theorem pagesFrom_nodup (start n : Nat) : (pagesFrom start n).Nodup :=
  List.nodup_range.map fun i j h => by
    have h' : start + 4096 * i = start + 4096 * j := h
    omega

section Init
variable {kend head start stop n fuel : Nat} {free : List Nat} {h h' : Heap} (hhead : head + 8 ≤ kend)

theorem pagesFrom_managed (hpages : ∀ p ∈ pagesFrom start n, Managed kend p)
    (hp : Managed kend (start + pageSize * n)) : ∀ p ∈ pagesFrom start (n + 1), Managed kend p := by
  intro p hmem
  rw [pagesFrom_succ] at hmem
  rcases List.mem_append.mp hmem with hmem | hmem
  · exact hpages p hmem
  · exact List.mem_singleton.mp hmem ▸ hp

include hhead

/-- One more page is in the list. -/
theorem freelistFree_run (hc : Conserved head (pagesFrom start n) ⟨h, []⟩ free)
    (hpages : ∀ p ∈ pagesFrom start n, Managed kend p) (hp : Managed kend (start + pageSize * n)) :
    (freelistFree kend h.structPtr (start + pageSize * n)).run h = .ok () (h.given head (start + pageSize * n)) ∧
      Conserved head (pagesFrom start (n + 1)) ⟨h.given head (start + pageSize * n), []⟩
        ((start + pageSize * n) :: free) := by
  -- as if the page had been handed out
  have hout : Conserved head (pagesFrom start (n + 1)) ⟨h, [start + pageSize * n]⟩ free := by
    refine ⟨hc.ptr, hc.chain, ?_⟩
    rw [pagesFrom_succ]
    have hperm := hc.perm
    rw [List.append_nil] at hperm
    exact hperm.append_right _
  obtain ⟨hrun, hc'⟩ := hout.kfree_run hhead (pagesFrom_managed hpages hp) (pagesFrom_nodup ..)
    (List.mem_singleton.mpr rfl)
  rw [kfree, bind_ok (get_run _)] at hrun
  rw [List.erase_cons_head] at hc'
  exact ⟨hrun, hc'⟩

/-- Where `free_range` returns, the pages of the range are in the list. -/
theorem freeRangeFrom_ok (hstart : start % pageSize = 0) (hstop : stop < 2 ^ 64)
    (hn : n = 0 ∧ start < 2 ^ 64 ∨ start + pageSize * n ≤ stop ∧ start + pageSize * n ≤ physEnd)
    (hc : Conserved head (pagesFrom start n) ⟨h, []⟩ free) (hpages : ∀ p ∈ pagesFrom start n, Managed kend p)
    (hrun : (freeRangeFrom kend stop fuel (start + pageSize * n)).run h = .ok () h') :
    ∃ free', Conserved head (pagesFrom start ((stop - start) / pageSize)) ⟨h', []⟩ free' ∧
      ∀ p ∈ pagesFrom start ((stop - start) / pageSize), Managed kend p := by
  induction fuel generalizing n h free with
  | zero => cases hrun
  | succ fuel ih =>
    have hstart' : start % 4096 = 0 := hstart
    have hn' : n = 0 ∧ start < 2 ^ 64 ∨ start + 4096 * n ≤ stop ∧ start + 4096 * n ≤ 0xffff00003f000000 := hn
    rw [freeRangeFrom] at hrun
    by_cases hmore : (start + pageSize * n + pageSize) % 2 ^ 64 ≤ stop
    · rw [if_pos hmore, bind_ok (get_run _)] at hrun
      obtain ⟨_, h1, hfree, hrest⟩ := bind_eq_ok hrun
      have hp : Managed kend (start + pageSize * n) := by
        by_contra hnot
        have hcheck : (start + pageSize * n) % pageSize ≠ 0 ∨ start + pageSize * n < kend ∨
            physEnd ≤ start + pageSize * n := by
          rw [Managed] at hnot
          omega
        rw [freelistFree, if_pos hcheck] at hfree
        cases hfree
      obtain ⟨hrun1, hc1⟩ := freelistFree_run hhead hc hpages hp
      rw [hrun1] at hfree
      cases hfree
      have hhigh : start + 4096 * n < 0xffff00003f000000 := hp.2.2
      have hmore' : (start + 4096 * n + 4096) % 2 ^ 64 ≤ stop := hmore
      have hnext : (start + pageSize * n + pageSize) % 2 ^ 64 = start + pageSize * (n + 1) := by
        show (start + 4096 * n + 4096) % 2 ^ 64 = start + 4096 * (n + 1)
        omega
      rw [hnext] at hrest
      refine ih (Or.inr ⟨?_, ?_⟩) hc1 (pagesFrom_managed hpages hp) hrest
      · show start + 4096 * (n + 1) ≤ stop
        omega
      · show start + 4096 * (n + 1) ≤ 0xffff00003f000000
        omega
    · rw [if_neg hmore] at hrun
      cases hrun
      have hmore' : ¬ (start + 4096 * n + 4096) % 2 ^ 64 ≤ stop := hmore
      have hcount : (stop - start) / pageSize = n := by
        show (stop - start) / 4096 = n
        omega
      rw [hcount]
      exact ⟨free, hc, hpages⟩

/-- A range of memory behind the kernel is taken in. -/
theorem freeRangeFrom_run (hstart : start % pageSize = 0) (hlow : kend ≤ start) (hhigh : stop ≤ physEnd)
    (hn : start + pageSize * n ≤ stop) (hfuel : (stop - (start + pageSize * n)) / pageSize < fuel)
    (hc : Conserved head (pagesFrom start n) ⟨h, []⟩ free) (hpages : ∀ p ∈ pagesFrom start n, Managed kend p) :
    ∃ h', (freeRangeFrom kend stop fuel (start + pageSize * n)).run h = .ok () h' := by
  induction fuel generalizing n h free with
  | zero => exact absurd hfuel (Nat.not_lt_zero _)
  | succ fuel ih =>
    have hstart' : start % 4096 = 0 := hstart
    have hhigh' : stop ≤ 0xffff00003f000000 := hhigh
    have hn' : start + 4096 * n ≤ stop := hn
    have hfuel' : (stop - (start + 4096 * n)) / 4096 < fuel + 1 := hfuel
    rw [freeRangeFrom]
    by_cases hmore : (start + pageSize * n + pageSize) % 2 ^ 64 ≤ stop
    · have hmore' : (start + 4096 * n + 4096) % 2 ^ 64 ≤ stop := hmore
      have hnext : (start + pageSize * n + pageSize) % 2 ^ 64 = start + pageSize * (n + 1) := by
        show (start + 4096 * n + 4096) % 2 ^ 64 = start + 4096 * (n + 1)
        omega
      have hp : Managed kend (start + pageSize * n) := by
        refine ⟨?_, by omega, ?_⟩
        · show (start + 4096 * n) % 4096 = 0
          omega
        · show start + 4096 * n < 0xffff00003f000000
          omega
      obtain ⟨hrun, hc'⟩ := freelistFree_run hhead hc hpages hp
      rw [if_pos hmore, bind_ok (get_run _), bind_ok hrun, hnext]
      refine ih ?_ ?_ hc' (pagesFrom_managed hpages hp)
      · show start + 4096 * (n + 1) ≤ stop
        omega
      · show (stop - (start + 4096 * (n + 1))) / 4096 < fuel
        omega
    · rw [if_neg hmore]
      exact ⟨h, rfl⟩

end Init

/-! ### Histories -/

/-- What happens to the allocator; the owners of pages write to them. -/
inductive Call where
  | alloc
  | free (p : Nat)
  | write (a : Nat) (b : UInt8)

namespace State

def call (kend : Nat) (s : State) : Call → Option State
  | .alloc => match kalloc.run s.heap with
    | .ok p h => some ⟨h, if p = 0 then s.out else p :: s.out⟩
    | .error _ _ => none
  | .free p => match (kfree kend p).run s.heap with
    | .ok _ h => some ⟨h, s.out.erase p⟩
    | .error _ _ => none
  | .write a b => some ⟨s.heap.setByte a b, s.out⟩

/-- Only pages that are handed out are freed and written to. -/
def Allowed (s : State) : Call → Prop
  | .alloc => True
  | .free p => p ∈ s.out
  | .write a _ => ∃ p ∈ s.out, p ≤ a ∧ a < p + pageSize

end State

section History
variable {kend head start stop p : Nat} {pages free : List Nat} {s s' : State} {c : Call}

theorem Conserved.call (hhead : head + 8 ≤ kend) (hpages : ∀ p ∈ pages, Managed kend p) (hnodup : pages.Nodup)
    (h : Conserved head pages s free) (hok : s.Allowed c) (hcall : s.call kend c = some s') :
    ∃ free', Conserved head pages s' free' := by
  cases c with
  | alloc =>
    cases free with
    | nil =>
      rw [State.call, h.kalloc_none] at hcall
      cases hcall
      exact ⟨[], h⟩
    | cons p free =>
      obtain ⟨hrun, hne, h'⟩ := h.kalloc_some hhead hpages
      rw [State.call, hrun] at hcall
      dsimp only at hcall
      rw [if_neg hne] at hcall
      cases hcall
      exact ⟨free, h'⟩
  | free p =>
    obtain ⟨hrun, h'⟩ := h.kfree_run hhead hpages hnodup hok
    rw [State.call, hrun] at hcall
    cases hcall
    exact ⟨p :: free, h'⟩
  | write a b =>
    obtain ⟨p, hout, ha, ha'⟩ := hok
    cases hcall
    exact ⟨free, h.write hhead hpages hnodup hout ha ha'⟩

theorem mem_pagesFrom (hstart : start % pageSize = 0) :
    p ∈ pagesFrom start ((stop - start) / pageSize) ↔ p % pageSize = 0 ∧ start ≤ p ∧ p + pageSize ≤ stop := by
  have hstart' : start % 4096 = 0 := hstart
  rw [pagesFrom, List.mem_map]
  constructor
  · intro ⟨i, hi, hp⟩
    have hi' : i < (stop - start) / 4096 := List.mem_range.mp hi
    have hp' : start + 4096 * i = p := hp
    show p % 4096 = 0 ∧ start ≤ p ∧ p + 4096 ≤ stop
    omega
  · intro hp
    have hp' : p % 4096 = 0 ∧ start ≤ p ∧ p + 4096 ≤ stop := hp
    refine ⟨(p - start) / 4096, List.mem_range.mpr ?_, ?_⟩
    · show (p - start) / 4096 < (stop - start) / 4096
      omega
    · show start + 4096 * ((p - start) / 4096) = p
      omega

end History

/-- **No page is lost and none is handed out twice.** `freelist_init` returns for every range of
pages in the memory behind the kernel. Wherever it returns, and whatever calls follow it, the
free list ends and goes through no page twice; the free pages and those handed out are all
different, and together they are the pages of the range. `kalloc` returns a null pointer just
if no page is free, and otherwise a page of zeros. `kfree` takes every page that was handed out.
Neither changes the other pages that are handed out. -/
theorem pages_conserved (kend head start stop : Nat) (h0 : Heap) (hhead : head + 8 ≤ kend)
    (hstart : start % pageSize = 0) (hlt : start < 2 ^ 64) (hstop : stop < 2 ^ 64) (hptr : h0.structPtr = head)
    (hnull : h0.next head = 0) :
    (kend ≤ start → start ≤ stop → stop ≤ physEnd → ∃ h1, (freelistInit kend start stop).run h0 = .ok () h1) ∧
    ∀ h1, (freelistInit kend start stop).run h0 = .ok () h1 →
      ∀ s, Reach (fun s c s' => s.call kend c = some s') State.Allowed ⟨h1, []⟩ s →
        ∃ free, Chain s.heap.next 0 (s.heap.next head) free ∧ (free ++ s.out).Nodup ∧
          (∀ p, p ∈ free ++ s.out ↔ p % pageSize = 0 ∧ start ≤ p ∧ p + pageSize ≤ stop) ∧
          (∃ p h', kalloc.run s.heap = .ok p h' ∧ (p = 0 ↔ free = []) ∧
            (p ≠ 0 → p ∈ free ∧ ∀ x, p ≤ x → x < p + pageSize → h'.byte x = 0) ∧
            ∀ q ∈ s.out, ∀ x, q ≤ x → x < q + pageSize → h'.byte x = s.heap.byte x) ∧
          ∀ p ∈ s.out, ∃ h', (kfree kend p).run s.heap = .ok () h' ∧
            ∀ q ∈ s.out, q ≠ p → ∀ x, q ≤ x → x < q + pageSize → h'.byte x = s.heap.byte x := by
  have hempty : Conserved head (pagesFrom start 0) ⟨h0, []⟩ [] := ⟨hptr, hnull, .refl _⟩
  have hnone : ∀ p ∈ pagesFrom start 0, Managed kend p := fun p hp => nomatch hp
  refine ⟨fun hlow hle hhigh => ?_, fun h1 hinit s hreach => ?_⟩
  · refine freeRangeFrom_run hhead (n := 0) hstart hlow hhigh hle ?_ hempty hnone
    show (stop - (start + 4096 * 0)) / 4096 < 2 ^ 52 + 1
    omega
  obtain ⟨free1, hc1, hpages⟩ := freeRangeFrom_ok hhead (n := 0) hstart hstop (Or.inl ⟨rfl, hlt⟩) hempty hnone hinit
  have hnodup := pagesFrom_nodup start ((stop - start) / pageSize)
  obtain ⟨free, hc⟩ := hreach.invariant (I := fun s => ∃ free, Conserved head _ s free) ⟨free1, hc1⟩
    fun s c s' ⟨free, hc⟩ hok hcall => hc.call hhead hpages hnodup hok hcall
  have hall := hc.perm.nodup_iff.mpr hnodup
  have hout : ∀ q ∈ s.out, Managed kend q := fun q hq => hpages q (hc.mem_iff.mp (Or.inr hq))
  refine ⟨free, hc.chain, hall, fun p => hc.perm.mem_iff.trans (mem_pagesFrom hstart), ?_, fun p hp => ?_⟩
  · cases free with
    | nil => exact ⟨0, s.heap, hc.kalloc_none, iff_of_true rfl rfl, fun hne => absurd rfl hne, fun _ _ _ _ _ => rfl⟩
    | cons p free =>
      obtain ⟨hrun, hne, -⟩ := hc.kalloc_some hhead hpages
      have hp := hpages p (hc.mem_iff.mp (Or.inl List.mem_cons_self))
      refine ⟨p, _, hrun, iff_of_false hne (List.cons_ne_nil p free), fun _ =>
        ⟨List.mem_cons_self, fun x hx hx' => Heap.taken_zero hx hx'⟩, fun q hq x hx hx' => ?_⟩
      refine Heap.taken_frame.page hhead hp (hout q hq) (fun he => ?_) hx hx'
      exact (List.nodup_append.mp hall).2.2 p List.mem_cons_self q hq he.symm
  · obtain ⟨hrun, -⟩ := hc.kfree_run hhead hpages hnodup hp
    exact ⟨_, hrun, fun q hq hne x hx hx' => Heap.given_frame.page hhead (hout p hp) (hout q hq) hne hx hx'⟩

/-- Memory from which two pages are taken in. -/
theorem pages_conserved_two : ∃ h1 p h',
    (freelistInit (kernbase + 0x1000) (kernbase + 0x1000) (kernbase + 0x3000)).run ⟨fun _ => 0, kernbase⟩ =
      .ok () h1 ∧
      kalloc.run h1 = .ok p h' ∧ p ≠ 0 := by
  obtain ⟨hinit, hall⟩ := pages_conserved (kernbase + 0x1000) kernbase (kernbase + 0x1000) (kernbase + 0x3000)
    ⟨fun _ => 0, kernbase⟩ (by decide) (by decide) (by decide) (by decide) rfl rfl
  obtain ⟨h1, hrun⟩ := hinit (by decide) (by decide) (by decide)
  obtain ⟨free, -, -, hmem, ⟨p, h', halloc, hzero, -⟩, -⟩ := hall h1 hrun _ .start
  refine ⟨h1, p, h', hrun, halloc, fun he => ?_⟩
  have hpage := (hmem (kernbase + 0x1000)).mpr ⟨by decide, by decide, by decide⟩
  rw [hzero.mp he] at hpage
  exact absurd hpage List.not_mem_nil

/-! ### The allocator of the other modules -/

/-- The pages and the free list of `m` are what is in memory; `kend` is a physical address. -/
structure Represents (kend head : Nat) (h : Heap) (m : Memory) : Prop where
  before : head + 8 ≤ kernbase + kend
  ptr : h.structPtr = head
  chain : Chain h.next 0 (h.next head) (m.free.map (kernbase + ·))
  isPage : ∀ p ∈ m.free, IsPage kend p
  words : ∀ p, IsPage kend p → ∀ i : Fin nPtePerTable, h.next (kernbase + p + 8 * i) = (m.page p i).toNat

/-- A page is given back, or one is asked for. -/
def request (kend : Nat) : Option Nat → F Nat
  | none => kalloc
  | some p => do
    kfree (kernbase + kend) (kernbase + p)
    return 0

def pageRequest (kend : Nat) : Option Nat → MemM (Option Nat)
  | none => Core.kalloc
  | some p => do
    Core.kfree kend p
    return none

/-- Both are asked, and both return; a page that is given back is not free. -/
def BothReturn (kend : Nat) (s : Heap × Memory) (c : Option Nat) (s' : Heap × Memory) : Prop :=
  (∀ p ∈ c, p ∉ s.2.free) ∧ (∃ a, (request kend c).run s.1 = .ok a s'.1) ∧
    ∃ o, (pageRequest kend c).run s.2 = .ok o s'.2

/-- Both return the same page, or stop with the same message. -/
inductive SameAnswer (kend head : Nat) (h : Heap) (m : Memory) (c : Option Nat) : Prop
  | returns {o h' m'} (hrun : (request kend c).run h = .ok (o.elim 0 (kernbase + ·)) h')
    (hrun' : (pageRequest kend c).run m = .ok o m') (hr : Represents kend head h' m')
  | stops {e} (hrun : (request kend c).run h = .error e h) (hrun' : (pageRequest kend c).run m = .error e m)

section Refinement
variable {kend head p : Nat} {h h0 h' : Heap} {m m0 : Memory}

theorem managed_iff : Managed (kernbase + kend) (kernbase + p) ↔ IsPage kend p := by
  show (0xffff000000000000 + p) % 4096 = 0 ∧ 0xffff000000000000 + kend ≤ 0xffff000000000000 + p ∧
    0xffff000000000000 + p < 0xffff000000000000 + 0x3f000000 ↔ p % 4096 = 0 ∧ kend ≤ p ∧ p < 0x3f000000
  omega

section
variable (hr : Represents kend head h m)
include hr

theorem Represents.managed : ∀ a ∈ m.free.map (kernbase + ·), Managed (kernbase + kend) a := by
  intro a ha
  obtain ⟨p, hp, rfl⟩ := List.mem_map.mp ha
  exact managed_iff.mpr (hr.isPage p hp)

/-- One page changes, and the list. -/
theorem Represents.change (hp : IsPage kend p) (hf : Frame head (kernbase + p) h h') {pages out free : List Nat}
    {ws : Fin nPtePerTable → UInt64} (hc : Conserved head pages ⟨h', out⟩ (free.map (kernbase + ·)))
    (hfree : ∀ q ∈ free, IsPage kend q)
    (hwords : ∀ i : Fin nPtePerTable, h'.next (kernbase + p + 8 * i) = (ws i).toNat) :
    Represents kend head h' ⟨update m.page p ws, free⟩ := by
  refine ⟨hr.before, hc.ptr, hc.chain, hfree, fun q hq i => ?_⟩
  show _ = (update m.page p ws q i).toNat
  rw [update_apply]
  split
  case isTrue he => exact he ▸ hwords i
  case isFalse hne =>
    have hi : i.val < 512 := i.isLt
    rw [← hr.words q hq i]
    refine Heap.next_congr fun y hy hy' => ?_
    refine hf.page hr.before (managed_iff.mpr hp) (managed_iff.mpr hq) (by omega) (by omega) ?_
    show y < kernbase + q + 4096
    omega

/-- The head of the list. -/
theorem Represents.next_head : h.next head = (match m.free with | [] => 0 | q :: _ => p2k q : UInt64).toNat := by
  obtain ⟨page, free⟩ := m
  cases free with
  | nil => exact hr.chain
  | cons q rest =>
    have hhigh : q < 0x3f000000 := (hr.isPage q List.mem_cons_self).2.2
    have hmod : (q + 0xffff000000000000) % 2 ^ 64 = 0xffff000000000000 + q := by omega
    exact hr.chain.1.trans ((UInt64.toNat_ofNat' (n := q + 0xffff000000000000)).trans hmod).symm

theorem kalloc_refines : SameAnswer kend head h m none := by
  obtain ⟨page, free⟩ := m
  have hc : Conserved head (free.map (kernbase + ·)) ⟨h, []⟩ (free.map (kernbase + ·)) :=
    ⟨hr.ptr, hr.chain, by rw [List.append_nil]⟩
  cases free with
  | nil => exact .returns (o := none) hc.kalloc_none (Core.kalloc_run _) hr
  | cons p rest =>
    obtain ⟨hrun, -, hc'⟩ := hc.kalloc_some hr.before hr.managed
    refine .returns (o := some p) hrun (Core.kalloc_run _) (hr.change (hr.isPage p List.mem_cons_self)
      Heap.taken_frame hc' (fun q hq => hr.isPage q (List.mem_cons_of_mem p hq)) fun i => ?_)
    have hi : i.val < 512 := i.isLt
    refine Heap.next_zero fun y hy hy' => Heap.taken_zero (by omega) ?_
    show y < kernbase + p + 4096
    omega

omit hr in
/-- What `kfree` leaves in the page. -/
theorem given_word (hhead : head + 8 ≤ kernbase + p) (hlt : kernbase + p < 2 ^ 64) (i : Fin nPtePerTable) :
    (h.given head (kernbase + p)).next (kernbase + p + 8 * i) = if i = 0 then h.next head else 0 := by
  have hi : i.val < 512 := i.isLt
  by_cases hzero : i = 0
  · rw [if_pos hzero, hzero]
    exact (Heap.given_next hhead hlt).2
  · have hpos : 0 < i.val := Nat.pos_of_ne_zero fun he => hzero (Fin.ext he)
    rw [if_neg hzero]
    refine Heap.next_zero fun y hy hy' => ?_
    have hin : kernbase + p ≤ y ∧ y < kernbase + p + pageSize := by
      show kernbase + p ≤ y ∧ y < kernbase + p + 4096
      omega
    rw [Heap.given, Heap.byte_setNext_of_out (by omega), Heap.byte_setNext_of_out (by omega), Heap.byte_clear,
      if_pos hin]

theorem kfree_refines (hfree : p ∉ m.free) : SameAnswer kend head h m (some p) := by
  by_cases hp : IsPage kend p
  · have hbefore : head + 8 ≤ kernbase + p := hr.before.trans (Nat.add_le_add_left hp.2.1 _)
    have hlt : kernbase + p < 2 ^ 64 := by
      have hhigh : p < 0x3f000000 := hp.2.2
      show 0xffff000000000000 + p < 2 ^ 64
      omega
    -- as if only this page had been handed out
    have hc : Conserved head ((kernbase + p) :: m.free.map (kernbase + ·)) ⟨h, [kernbase + p]⟩
        (m.free.map (kernbase + ·)) := ⟨hr.ptr, hr.chain, List.perm_append_singleton ..⟩
    have hmanaged : ∀ a ∈ (kernbase + p) :: m.free.map (kernbase + ·), Managed (kernbase + kend) a :=
      List.forall_mem_cons.mpr ⟨managed_iff.mpr hp, hr.managed⟩
    have hnodup : ((kernbase + p) :: m.free.map (kernbase + ·)).Nodup :=
      List.nodup_cons.mpr ⟨by rwa [List.mem_map_of_injective (add_right_injective _)], hr.chain.nodup⟩
    obtain ⟨hrun, hc'⟩ := hc.kfree_run hr.before hmanaged hnodup (List.mem_singleton.mpr rfl)
    refine .returns (o := none) (bind_ok hrun) (bind_ok (Core.kfree_run m hp))
      (hr.change hp Heap.given_frame hc' (List.forall_mem_cons.mpr ⟨hp, hr.isPage⟩) fun i => ?_)
    rw [given_word hbefore hlt, hr.next_head]
    split <;> rfl
  · have hcheck : (kernbase + p) % pageSize ≠ 0 ∨ kernbase + p < kernbase + kend ∨ physEnd ≤ kernbase + p := by
      have hnot := mt managed_iff.mp hp
      rw [Managed] at hnot
      omega
    have hcheck' : p % pageSize ≠ 0 ∨ p < kend ∨ phystop ≤ p := by
      rw [IsPage] at hp
      omega
    refine .stops (e := .panic "ERR ADDR") (bind_error ?_) (bind_error ?_)
    · rw [kfree, bind_ok (get_run _), freelistFree, if_pos hcheck]
      rfl
    · rw [Core.kfree, if_pos hcheck']
      rfl

theorem Represents.request (c : Option Nat) (hc : ∀ p ∈ c, p ∉ m.free) : SameAnswer kend head h m c := by
  cases c with
  | none => exact kalloc_refines hr
  | some p => exact kfree_refines hr (hc p rfl)

end

/-- **The free list in memory is the list of pages**: after any requests to both, the next one has
the same answer from both. Only pages that are not free are given back. -/
theorem allocators_agree (hr : Represents kend head h0 m0)
    (hrun : Reach (BothReturn kend) (fun _ _ => True) (h0, m0) (h, m)) (c : Option Nat) (hc : ∀ p ∈ c, p ∉ m.free) :
    SameAnswer kend head h m c := by
  refine Represents.request (hrun.invariant (I := fun s => Represents kend head s.1 s.2) hr ?_) c hc
  intro s c s' hs _ ⟨hok, ⟨a, ha⟩, o, ho⟩
  cases hs.request c hok with
  | returns hrun hrun' hr' =>
    cases ha.symm.trans hrun
    cases ho.symm.trans hrun'
    exact hr'
  | stops hrun => cases ha.symm.trans hrun

/-- Two pages are given back and one of them is handed out; the next request gets the other. -/
theorem allocators_agree_two_pages : ∃ h m,
    Reach (BothReturn 4096) (fun _ _ => True) (⟨fun _ => 0, kernbase⟩, ⟨fun _ _ => 0, []⟩) (h, m) ∧ m.free = [4096] ∧
    SameAnswer 4096 kernbase h m none := by
  have hr : Represents 4096 kernbase ⟨fun _ => 0, kernbase⟩ ⟨fun _ _ => 0, []⟩ :=
    ⟨by decide, rfl, Heap.next_zero fun _ _ _ => rfl, fun _ hp => absurd hp List.not_mem_nil,
      fun _ _ _ => Heap.next_zero fun _ _ _ => rfl⟩
  have hboth : ∀ {h m} c {o m'}, Represents 4096 kernbase h m → (∀ p ∈ c, p ∉ m.free) →
      (pageRequest 4096 c).run m = .ok o m' → ∃ h', BothReturn 4096 (h, m) c (h', m') ∧
        Represents 4096 kernbase h' m' := by
    intro h m c o m' hr hc hpage
    cases hr.request c hc with
    | returns hrun hrun' hr' =>
      cases hpage.symm.trans hrun'
      exact ⟨_, ⟨hc, ⟨_, hrun⟩, _, hpage⟩, hr'⟩
    | stops _ hrun' => cases hpage.symm.trans hrun'
  have hpage : ∀ m p, IsPage 4096 p → (pageRequest 4096 (some p)).run m = .ok none (m.freed p) := fun m p hp =>
    bind_ok (Core.kfree_run m hp)
  obtain ⟨h1, hs1, hr1⟩ := hboth (some 4096) hr (fun _ _ => List.not_mem_nil) (hpage _ 4096 (by decide))
  obtain ⟨h2, hs2, hr2⟩ := hboth (some 8192) hr1 (fun p hp => by cases hp; decide) (hpage _ 8192 (by decide))
  obtain ⟨h3, hs3, -⟩ := hboth none hr2 nofun (Core.kalloc_run _)
  have hreach : Reach (BothReturn 4096) (fun _ _ => True) _ _ :=
    ((Reach.start.next trivial hs1).next trivial hs2).next trivial hs3
  exact ⟨h3, _, hreach, rfl, allocators_agree hr hreach none nofun⟩

end Refinement

end OS2021.Core.FreeList
