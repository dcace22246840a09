import OS2021.Core.Kernel
import OS2021.Core.UvmAlloc

/-! The memory of a process as its program sees it.

`Memory.user m r x` is the byte at address `x` of the address space of directory `r`, if its
page is mapped. The kernel reads the buffers, words and strings of a process through the same
page table, so what a call gets to see is said by this map and by nothing else of memory. -/
namespace OS2021.Core
open Fs Lib

variable {m : Memory} {q : Proc} {r a n : Nat} {va w : UInt64} {b : UInt8} {bs cs s : List UInt8} {ws : List UInt64}

/-! ### The map -/

/-- The byte at user address `x`. -/
def Memory.user (m : Memory) (r x : Nat) : Option UInt8 :=
  (m.lookup r (x / pageSize)).map fun w => m.byte (pteAddress w + x % pageSize)

/-- The bytes `bs` are at user address `a`. -/
def Memory.HasBytes (m : Memory) (r a : Nat) (bs : List UInt8) : Prop := ∀ j < bs.length, m.user r (a + j) = bs[j]?

instance : Decidable (m.HasBytes r a bs) := inferInstanceAs (Decidable (∀ j < bs.length, _))

theorem hasBytes_cons : m.HasBytes r a (b :: bs) ↔ m.user r a = some b ∧ m.HasBytes r (a + 1) bs := by
  constructor
  · intro h
    refine ⟨h 0 (Nat.zero_lt_succ _), fun j hj => ?_⟩
    rw [Nat.add_assoc, Nat.add_comm 1 j, h (j + 1) (Nat.succ_lt_succ hj), List.getElem?_cons_succ]
  · intro ⟨hfirst, hrest⟩ j hj
    cases j with
    | zero => exact hfirst
    | succ j =>
      rw [List.getElem?_cons_succ, ← hrest j (Nat.lt_of_succ_lt_succ hj), Nat.add_assoc, Nat.add_comm 1 j]

theorem hasBytes_append : m.HasBytes r a (bs ++ cs) ↔ m.HasBytes r a bs ∧ m.HasBytes r (a + bs.length) cs := by
  induction bs generalizing a with
  | nil => exact ⟨fun h => ⟨fun j hj => absurd hj (Nat.not_lt_zero j), h⟩, fun h => h.2⟩
  | cons b bs ih =>
    rw [List.cons_append, hasBytes_cons, ih, hasBytes_cons, and_assoc, List.length_cons, Nat.add_right_comm,
      Nat.add_assoc]

/-! ### Bytes -/

theorem toNat_succ (h : va.toNat + 1 < 2 ^ 64) : (va + 1).toNat = va.toNat + 1 := by
  rw [UInt64.toNat_add]
  exact Nat.mod_eq_of_lt h

theorem userByte_run (h : m.user r va.toNat = some b) : (userByte r va).run m = .ok b m := by
  obtain ⟨w, hw, hbyte⟩ := Option.map_eq_some_iff.mp h
  obtain ⟨pte, hslot, hvalid, hpte⟩ := (lookup_eq_some ..).mp hw
  have haddr : (userAddress r va).run m = .ok (pteAddress w + va.toNat % pageSize) m := by
    rw [userAddress, bind_ok (pgdirWalk_lookup m r va), hslot]
    dsimp only
    rw [bind_ok (get_run m), hpte, if_pos hvalid]
    rfl
  rw [userByte, bind_ok haddr, bind_ok (get_run m), hbyte]
  rfl

/-- A buffer is read as its bytes. -/
theorem loadUser_run (hva : va.toNat + bs.length < 2 ^ 64) (h : m.HasBytes r va.toNat bs) :
    (loadUser r bs.length va).run m = .ok bs m := by
  induction bs generalizing va with
  | nil => rfl
  | cons b bs ih =>
    rw [List.length_cons] at hva
    obtain ⟨hfirst, hrest⟩ := hasBytes_cons.mp h
    have hnext : (va + 1).toNat = va.toNat + 1 := toNat_succ (by omega)
    rw [← hnext] at hrest
    rw [List.length_cons, loadUser, bind_ok (userByte_run hfirst), bind_ok (ih (by omega) hrest)]
    rfl

/-! ### Words -/

theorem wordByte_eq_leByte {k : Nat} (hk : k < 8) : wordByte w k = leByte w.toNat k := by
  have hshift : (UInt64.ofNat (8 * k)).toNat % 64 = 8 * k := by
    show 8 * k % 2 ^ 64 % 64 = _
    omega
  have hpow : 256 ^ k = 2 ^ (8 * k) := (Nat.pow_mul 2 8 k).symm
  apply UInt8.toNat_inj.mp
  rw [wordByte, leByte, UInt64.toNat_toUInt8, UInt64.toNat_shiftRight, hshift, UInt8.toNat_ofNat',
    Nat.shiftRight_eq_div_pow, hpow]

/-- The bytes of a word, read back. -/
theorem ofNat_leNat_wordByte (w : UInt64) :
    UInt64.ofNat (leNat 8 fun j => ((List.range 8).map (wordByte w)).getD j 0) = w := by
  have hbytes : leNat 8 (fun j => ((List.range 8).map (wordByte w)).getD j 0) = leNat 8 (leByte w.toNat) :=
    leNat_congr fun k hk => by
      rw [List.getD_eq_getElem?_getD, List.getElem?_map, List.getElem?_range hk, ← wordByte_eq_leByte hk]
      rfl
  rw [hbytes, leNat_leByte, Nat.mod_eq_of_lt (show w.toNat < 256 ^ 8 from w.toNat_lt), UInt64.ofNat_toNat]

theorem wordBytes_cons : wordBytes (w :: ws) = (List.range 8).map (wordByte w) ++ wordBytes ws := rfl

/-- The word at `va`. -/
def loadWord (pgdir : Nat) (va : UInt64) : MemM UInt64 := do
  let word ← loadUser pgdir 8 va
  return .ofNat (leNat 8 fun j => word.getD j 0)

theorem hasBytes_wordBytes_cons : m.HasBytes r a (wordBytes (w :: ws)) ↔
    m.HasBytes r a ((List.range 8).map (wordByte w)) ∧ m.HasBytes r (a + 8) (wordBytes ws) := by
  rw [wordBytes_cons, hasBytes_append, List.length_map, List.length_range]

theorem loadWord_run (hva : va.toNat + 8 < 2 ^ 64) (h : m.HasBytes r va.toNat (wordBytes (w :: ws))) :
    (loadWord r va).run m = .ok w m := by
  have hload : (loadUser r 8 va).run m = .ok ((List.range 8).map (wordByte w)) m :=
    loadUser_run hva (hasBytes_wordBytes_cons.mp h).1
  rw [loadWord, bind_ok hload, ofNat_leNat_wordByte]
  rfl

/-! ### Strings -/

/-- The zero behind a string ends the loop. -/
theorem fetchstrFrom_run (hva : va.toNat + s.length < 2 ^ 64) (hn : s.length < n)
    (h : m.HasBytes r va.toNat (s ++ [0])) (hs : 0 ∉ s) : (fetchstrFrom r n va).run m = .ok (some s) m := by
  induction s generalizing va n with
  | nil =>
    obtain ⟨n, rfl⟩ := Nat.exists_eq_succ_of_ne_zero hn.ne'
    rw [fetchstrFrom, bind_ok (userByte_run (hasBytes_cons.mp h).1)]
    rfl
  | cons b s ih =>
    rw [List.length_cons] at hva hn
    obtain ⟨n, rfl⟩ := Nat.exists_eq_succ_of_ne_zero (Nat.ne_zero_of_lt hn)
    obtain ⟨hfirst, hrest⟩ := hasBytes_cons.mp h
    have hne : b ≠ 0 := fun he => hs (he ▸ List.mem_cons_self)
    have hnext : (va + 1).toNat = va.toNat + 1 := toNat_succ (by omega)
    rw [← hnext] at hrest
    have htail := ih (n := n) (by omega) (by omega) hrest fun hmem => hs (List.mem_cons_of_mem b hmem)
    rw [fetchstrFrom, bind_ok (userByte_run hfirst), if_neg hne, bind_ok htail]
    rfl

/-- The string `s` is at address `addr` of the process with the zero behind it, all within the
program's memory or, if it does not start there, within the stack. -/
structure UserString (m : Memory) (q : Proc) (addr : UInt64) (s : List UInt8) : Prop where
  area : q.base ≤ addr ∧ addr.toNat + s.length < q.sz.toNat ∨
    ¬ (q.base ≤ addr ∧ addr < q.sz) ∧ usertop - q.stksz ≤ addr ∧ addr.toNat + s.length < usertop.toNat
  bytes : m.HasBytes q.pgdir.toNat addr.toNat (s ++ [0])
  nonzero : 0 ∉ s

theorem toInt_nonneg (h : n < 2 ^ 31) : 0 ≤ toInt (.ofNat n) := by
  have hn : (UInt64.ofNat n).toNat = n := Nat.mod_eq_of_lt (by omega)
  rw [Int32.le_iff_toInt_le, toInt_toInt (by omega), hn]
  exact Int.natCast_nonneg n

/-- `fetchstr` finds a string whose length is an `int`. -/
theorem UserString.fetchstr_run (h : UserString m q va s) (hint : s.length < 2 ^ 31) :
    (fetchstr q va).run m = .ok (some s) m := by
  -- the loop ends behind the zero at the latest
  have hloop : ∀ stop : UInt64, va.toNat + s.length < stop.toNat →
      (fetchstrFrom q.pgdir.toNat (stop - va).toNat va).run m = .ok (some s) m := fun stop hstop => by
    have hlt := stop.toNat_lt
    have hsub : (stop - va).toNat = stop.toNat - va.toNat :=
      UInt64.toNat_sub_of_le _ _ (UInt64.le_iff_toNat_le.mpr (by omega))
    exact fetchstrFrom_run (by omega) (by omega) h.bytes h.nonzero
  have hfilter : (some s).filter (fun s => decide (0 ≤ toInt (.ofNat s.length))) = some s :=
    Option.filter_some_pos (decide_eq_true (toInt_nonneg hint))
  rw [fetchstr]
  rcases h.area with ⟨hbase, hend⟩ | ⟨hout, hbase, hend⟩
  · have hin : va < q.sz := UInt64.lt_iff_toNat_lt.mpr (by omega)
    rw [if_pos ⟨hbase, hin⟩, bind_ok (hloop _ hend), hfilter]
    rfl
  · have hin : va < usertop := UInt64.lt_iff_toNat_lt.mpr (by omega)
    rw [if_neg hout, if_pos ⟨hbase, hin⟩, bind_ok (hloop _ hend), hfilter]
    rfl

end OS2021.Core
