import OS2021.Core.UvmAlloc

/-! Copying to user memory (`copyout`).

`uva2ka1` takes whatever the walk finds as the frame of a page. For pages that are mapped the
bytes end up where the map says and nowhere else, unless two of them have the same place. An
entry that is not valid reads as address 0, and then the bytes go to the first page of
physical memory. -/
namespace OS2021.Core
open Fs Lib Function

variable {r a x y f i j k : Nat} {m m' m1 : Memory} {w va : UInt64} {b : UInt8} {bs buf : List UInt8}

/-! ### Bytes -/

theorem toNat_shift (hk : k < 8) : ((UInt64.ofNat (8 * k)).toBitVec % 64).toNat = 8 * k := by
  show 8 * k % 2 ^ 64 % 64 = _
  omega

theorem getLsbD_wordByte (hk : k < 8) (hi : i < 8) :
    (wordByte w k).toBitVec.getLsbD i = w.toBitVec.getLsbD (8 * k + i) := by
  rw [wordByte, UInt64.toBitVec_toUInt8, UInt64.toBitVec_shiftRight, BitVec.getLsbD_setWidth, BitVec.ushiftRight_eq',
    BitVec.getLsbD_ushiftRight, toNat_shift hk, decide_eq_true hi, Bool.true_and]

theorem getLsbD_setWordByte (hk : k < 8) (hi : i < 64) : (setWordByte w k b).toBitVec.getLsbD i =
    if 8 * k ≤ i ∧ i < 8 * k + 8 then b.toBitVec.getLsbD (i - 8 * k) else w.toBitVec.getLsbD i := by
  have hones : (0xff : UInt64).toBitVec = BitVec.setWidth 64 (BitVec.allOnes 8) := rfl
  simp only [setWordByte, UInt64.toBitVec_or, UInt64.toBitVec_and, UInt64.toBitVec_not, UInt64.toBitVec_shiftLeft,
    UInt8.toBitVec_toUInt64, BitVec.shiftLeft_eq', toNat_shift hk, BitVec.getLsbD_or, BitVec.getLsbD_and,
    BitVec.getLsbD_not, BitVec.getLsbD_shiftLeft, BitVec.getLsbD_setWidth, BitVec.getLsbD_allOnes, hones]
  by_cases hlow : i < 8 * k
  · simp [hlow, hi, not_le.mpr hlow]
  · by_cases hhigh : i - 8 * k < 8
    · have hin : 8 * k ≤ i ∧ i < 8 * k + 8 := by omega
      have hsub : i - 8 * k < 64 := by omega
      simp [hlow, hi, hhigh, hin, hsub]
    · have hout : ¬ (8 * k ≤ i ∧ i < 8 * k + 8) := by omega
      have hzero : b.toBitVec.getLsbD (i - 8 * k) = false := BitVec.getLsbD_of_ge _ _ (by omega)
      simp [hlow, hi, hhigh, hout, hzero]

theorem wordByte_setWordByte (hj : j < 8) (hk : k < 8) :
    wordByte (setWordByte w k b) j = if j = k then b else wordByte w j := by
  apply UInt8.eq_of_toBitVec_eq
  apply BitVec.eq_of_getLsbD_eq
  intro i hi
  rw [getLsbD_wordByte hj hi, getLsbD_setWordByte hk (by omega)]
  by_cases hjk : j = k
  · rw [if_pos hjk, if_pos (by omega), hjk, Nat.add_sub_cancel_left]
  · rw [if_neg hjk, if_neg (by omega), getLsbD_wordByte hj hi]

theorem page_setByte : (m.setByte a b).page = update m.page (a / pageSize * pageSize)
    (update (m.page (a / pageSize * pageSize)) (wordIndex a)
      (setWordByte (m.page (a / pageSize * pageSize) (wordIndex a)) (a % 8) b)) := rfl

theorem byte_setByte : (m.setByte a b).byte x = if x = a then b else m.byte x := by
  have hx : x % 8 < 8 := Nat.mod_lt x (by decide)
  have ha : a % 8 < 8 := Nat.mod_lt a (by decide)
  rw [Memory.byte, Memory.byte, page_setByte]
  by_cases hpage : x / pageSize * pageSize = a / pageSize * pageSize
  · rw [hpage, update_self]
    by_cases hword : wordIndex x = wordIndex a
    · have hindex : x % 4096 / 8 = a % 4096 / 8 := congrArg Fin.val hword
      have hpage' : x / 4096 * 4096 = a / 4096 * 4096 := hpage
      rw [hword, update_self, wordByte_setWordByte hx ha]
      by_cases he : x = a
      · rw [if_pos (by rw [he]), if_pos he]
      · rw [if_neg (by omega), if_neg he]
    · rw [update_of_ne hword, if_neg fun he : x = a => hword (he ▸ rfl)]
  · rw [update_of_ne hpage, if_neg fun he : x = a => hpage (he ▸ rfl)]

theorem byte_setBytes : (m.setBytes a bs).byte x =
    if a ≤ x ∧ x < a + bs.length then bs.getD (x - a) 0 else m.byte x := by
  induction bs generalizing m a with
  | nil => rw [List.length_nil, if_neg (by omega), Memory.setBytes]
  | cons b bs ih =>
    rw [Memory.setBytes, ih, byte_setByte, List.length_cons]
    by_cases hfirst : x = a
    · rw [if_neg (by omega), if_pos hfirst, if_pos (by omega), hfirst, Nat.sub_self]
      rfl
    · rw [if_neg hfirst]
      by_cases hin : a + 1 ≤ x ∧ x < a + 1 + bs.length
      · have hsub : x - a = x - (a + 1) + 1 := by omega
        rw [if_pos hin, if_pos (by omega), hsub, List.getD_cons_succ]
      · rw [if_neg hin, if_neg (by omega)]

/-- Bytes that are written within a page. -/
theorem page_setBytes {q : Nat} (hf : f % pageSize = 0) (hq : q ≠ f) (ha : f ≤ a)
    (hend : a + bs.length ≤ f + pageSize) :
    (m.setBytes a bs).page q = m.page q := by
  have hf' : f % 4096 = 0 := hf
  induction bs generalizing m a with
  | nil => rfl
  | cons b bs ih =>
    rw [List.length_cons] at hend
    have hend' : a + (bs.length + 1) ≤ f + 4096 := hend
    rw [Memory.setBytes, ih (by omega) (by omega)]
    have hpage : a / 4096 * 4096 = f := by omega
    have hne : q ≠ a / pageSize * pageSize := fun he => hq (he.trans hpage)
    rw [page_setByte, update_of_ne hne]

theorem free_setBytes : (m.setBytes a bs).free = m.free := by
  induction bs generalizing m a with
  | nil => rfl
  | cons b bs ih =>
    rw [Memory.setBytes, ih]
    rfl

/-! ### The loop -/

/-- Where the map has the byte at user address `x`. -/
def Memory.target (m : Memory) (r x : Nat) : Nat := m.frame r (x / pageSize) + x % pageSize

theorem frame_mod (m : Memory) (r n : Nat) : m.frame r n % pageSize = 0 := by
  rw [Memory.frame]
  cases m.lookup r n with
  | none => rfl
  | some w => exact pteAddress_mod w

/-- The pages of the bytes from `a` on are mapped, and bytes that have the same place are equal. -/
structure Writable (m : Memory) (r a : Nat) (buf : List UInt8) : Prop where
  mapped : ∀ k < buf.length, m.lookup r ((a + k) / pageSize) ≠ none
  agree : ∀ k < buf.length, ∀ j < buf.length, m.target r (a + k) = m.target r (a + j) → buf.getD k 0 = buf.getD j 0

/-- The bytes are where the map has them, and nothing else has changed. -/
structure Written (m m' : Memory) (r a : Nat) (buf : List UInt8) : Prop where
  bytes : ∀ k < buf.length, m'.byte (m.target r (a + k)) = buf.getD k 0
  other : ∀ y, (∀ k < buf.length, m.target r (a + k) ≠ y) → m'.byte y = m.byte y
  free : m'.free = m.free

theorem target_add {k : Nat} (h : a % pageSize + k < pageSize) : m.target r (a + k) = m.target r a + k := by
  have h' : a % 4096 + k < 4096 := h
  have hpage : (a + k) / 4096 = a / 4096 := by omega
  show m.frame r ((a + k) / 4096) + (a + k) % 4096 = m.frame r (a / 4096) + a % 4096 + k
  rw [hpage]
  omega

namespace Written

theorem nil (m : Memory) (r a : Nat) : Written m m r a [] :=
  ⟨fun k hk => absurd hk (Nat.not_lt_zero k), fun _ _ => rfl, rfl⟩

/-- Bytes within a page. -/
theorem setBytes (h : a % pageSize + bs.length ≤ pageSize) : Written m (m.setBytes (m.target r a) bs) r a bs := by
  refine ⟨fun k hk => ?_, fun y hy => ?_, free_setBytes⟩
  · rw [target_add (by omega), byte_setBytes, if_pos (by omega), Nat.add_sub_cancel_left]
  · rw [byte_setBytes, if_neg fun hin => ?_]
    refine hy (y - m.target r a) (by omega) ?_
    rw [target_add (by omega)]
    omega

/-- What is written later is elsewhere, or the same bytes. -/
theorem append {cs : List UInt8} (h : Written m m1 r a bs) (h' : Written m1 m' r (a + bs.length) cs)
    (htarget : ∀ x, m1.target r x = m.target r x)
    (hagree : ∀ k < (bs ++ cs).length, ∀ j < (bs ++ cs).length, m.target r (a + k) = m.target r (a + j) →
      (bs ++ cs).getD k 0 = (bs ++ cs).getD j 0) : Written m m' r a (bs ++ cs) := by
  have hlen : (bs ++ cs).length = bs.length + cs.length := List.length_append
  have hlater : ∀ j < cs.length, m'.byte (m.target r (a + (bs.length + j))) = (bs ++ cs).getD (bs.length + j) 0 := by
    intro j hj
    rw [← htarget, ← Nat.add_assoc, h'.bytes j hj, List.getD_append_right _ _ _ _ (by omega), Nat.add_sub_cancel_left]
  refine ⟨fun k hk => ?_, fun y hy => ?_, h'.free.trans h.free⟩
  · by_cases hkn : k < bs.length
    · by_cases hagain : ∃ j < cs.length, m.target r (a + (bs.length + j)) = m.target r (a + k)
      · obtain ⟨j, hj, he⟩ := hagain
        rw [← he, hlater j hj]
        exact hagree _ (by omega) k hk he
      · rw [h'.other _ fun j hj he => hagain ⟨j, hj, by rw [← he, htarget, Nat.add_assoc]⟩, h.bytes k hkn,
          List.getD_append _ _ _ _ hkn]
    · obtain ⟨j, rfl⟩ := Nat.exists_eq_add_of_le (not_lt.mp hkn)
      exact hlater j (by omega)
  · rw [h'.other y fun j hj he => ?_, h.other y fun k hk => hy k (by omega)]
    rw [htarget, Nat.add_assoc] at he
    exact hy _ (by omega) he

end Written

theorem copyoutFrom_spec {fuel : Nat} (hfuel : buf.length ≤ fuel) (hva : va.toNat + buf.length ≤ 2 ^ 48)
    (h : Writable m r va.toNat buf)
    (hapart : ∀ k < buf.length, ¬ m.IsTable r (m.frame r ((va.toNat + k) / pageSize))) :
    ∃ m', (copyoutFrom r fuel va buf).run m = .ok 0 m' ∧ Written m m' r va.toNat buf := by
  induction fuel generalizing m va buf with
  | zero =>
    obtain rfl := List.length_eq_zero_iff.mp (Nat.le_zero.mp hfuel)
    exact ⟨m, rfl, .nil ..⟩
  | succ fuel ih =>
    cases hbuf : buf with
    | nil => exact ⟨m, rfl, .nil ..⟩
    | cons b0 rest =>
      rw [← hbuf]
      have hne : ¬ buf.isEmpty = true := by rw [hbuf]; exact Bool.false_ne_true
      have hpos : 0 < buf.length := by rw [hbuf]; exact Nat.succ_pos _
      have hdown : (roundDown va).toNat = va.toNat - va.toNat % 4096 := toNat_roundDown va
      have hoff := toNat_sub_roundDown va
      have hpage : (roundDown va).toNat / 4096 = va.toNat / 4096 := by omega
      -- this round: the rest of the page, or of the buffer
      obtain ⟨n, hn⟩ : ∃ n, min (4096 - va.toNat % 4096) buf.length = n := ⟨_, rfl⟩
      have hlen : (buf.take n).length = n := by rw [List.length_take]; omega
      have hfits : va.toNat % 4096 + (buf.take n).length ≤ 4096 := by omega
      obtain ⟨w, hw⟩ := Option.ne_none_iff_exists'.mp (h.mapped 0 hpos)
      obtain ⟨pte, hslot, hvalid, hpte⟩ := (lookup_eq_some ..).mp hw
      have hwalk : (uva2ka1 r (roundDown va)).run m = .ok (m.frame r (va.toNat / 4096)) m := by
        have hrun : (pgdirWalk r (roundDown va) true).run m = .ok (some pte) m :=
          pgdirWalkFrom_present (Nat.le_refl 3) (by
            show m.slot r ((roundDown va).toNat / 4096) = _
            rw [hpage]
            exact hslot)
        rw [uva2ka1, bind_ok hrun]
        show EStateM.Result.ok (pteAddress (m.pte pte)) m = _
        rw [hpte]
        exact congrArg (EStateM.Result.ok · m) (frame_of_lookup hw).symm
      obtain ⟨m1, hm1⟩ : ∃ m1, m.setBytes (m.target r va.toNat) (buf.take n) = m1 := ⟨_, rfl⟩
      have hwrote : Written m m1 r va.toNat (buf.take n) := hm1 ▸ .setBytes hfits
      have htables : ∀ t, m.IsTable r t → m1.page t = m.page t := fun t ht => by
        rw [← hm1]
        refine page_setBytes (frame_mod m r (va.toNat / 4096)) (fun he => hapart 0 hpos (he ▸ ht))
          (Nat.le_add_right ..) ?_
        rw [Memory.target, Nat.add_assoc]
        exact Nat.add_le_add_left hfits _
      have hlookup := lookup_congr htables
      have htarget : ∀ x, m1.target r x = m.target r x := fun x => by
        rw [Memory.target, Memory.target, Memory.frame, Memory.frame, hlookup]
      have hstep : (copyoutFrom r (fuel + 1) va buf).run m =
          (copyoutFrom r fuel (roundDown va + 4096) (buf.drop n)).run m1 := by
        rw [copyoutFrom, if_neg hne, bind_ok hwalk]
        dsimp only
        rw [hoff, hn, hm1.symm]
        rfl
      have hrest : ∃ m', (copyoutFrom r fuel (roundDown va + 4096) (buf.drop n)).run m1 = .ok 0 m' ∧
          Written m1 m' r (va.toNat + (buf.take n).length) (buf.drop n) := by
        have hdrop : (buf.drop n).length = buf.length - n := List.length_drop
        by_cases hdone : n = buf.length
        · rw [hdone, List.drop_length]
          exact ⟨m1, by cases fuel <;> rfl, .nil ..⟩
        · have hnext : (roundDown va + 4096).toNat = va.toNat + (buf.take n).length := by
            rw [UInt64.toNat_add, hdown]
            show (_ + 4096) % 2 ^ 64 = _
            omega
          have hadd : ∀ k, (roundDown va + 4096).toNat + k = va.toNat + (n + k) := fun k => by omega
          have hgetD : ∀ k, (buf.drop n).getD k 0 = buf.getD (n + k) 0 := fun k => by
            rw [List.getD_eq_getElem?_getD, List.getElem?_drop, List.getD_eq_getElem?_getD]
          rw [← hnext]
          refine ih (by omega) (by omega) ⟨fun k hk => ?_, fun k hk j hj => ?_⟩ fun k hk => ?_
          · rw [hlookup, hadd]
            exact h.mapped (n + k) (by omega)
          · rw [htarget, htarget, hgetD, hgetD, hadd, hadd]
            exact h.agree (n + k) (by omega) (n + j) (by omega)
          · rw [hadd, Memory.frame, hlookup, isTable_congr fun π hπ => table_congr htables hπ]
            exact hapart (n + k) (by omega)
      obtain ⟨m', hrun, hwritten⟩ := hrest
      have hall := hwrote.append hwritten htarget (by rw [List.take_append_drop]; exact h.agree)
      rw [List.take_append_drop] at hall
      exact ⟨m', hstep.trans hrun, hall⟩

/-- `P2K` of what the walk finds is never null. -/
theorem copyoutFrom_zero {fuel : Nat} {res : Int32} (h : (copyoutFrom r fuel va buf).run m = .ok res m') :
    res = 0 := by
  induction fuel generalizing va buf m with
  | zero =>
    cases h
    rfl
  | succ fuel ih =>
    rw [copyoutFrom] at h
    split at h
    · cases h
      rfl
    · obtain ⟨pa, m1, -, h⟩ := bind_eq_ok h
      obtain ⟨u, m2, -, h⟩ := bind_eq_ok h
      exact ih h

/-- What a call that returns `res` is to have done: a negative result, or byte `k` at its place
in the frame of its page; and no other byte has changed, but for pages that were free and
tables. -/
structure ThroughMap (m m' : Memory) (r : Nat) (va : UInt64) (p : List UInt8) (res : Int32) : Prop where
  stored : res < 0 ∨ res = 0 ∧ ∀ k < p.length, ∃ w, m.lookup r ((va.toNat + k) / pageSize) = some w ∧
    m'.byte (pteAddress w + (va.toNat + k) % pageSize) = p.getD k 0
  other : ∀ y, (∀ k < p.length, m.target r (va.toNat + k) ≠ y) → m'.byte y = m.byte y ∨
    y / pageSize * pageSize ∈ m.free ∨ m'.IsTable r (y / pageSize * pageSize)

/-- **`copyout` writes only through the map**, exactly if the pages it writes to are mapped and
bytes that have the same place are equal. The directory maps none of its own tables there. -/
theorem copyout_throughMap (m : Memory) (r : Nat) (va : UInt64) (p : List UInt8) (hva : va.toNat + p.length ≤ 2 ^ 47)
    (hapart : ∀ k < p.length, ∀ w, m.lookup r ((va.toNat + k) / pageSize) = some w → ¬ m.IsTable r (pteAddress w)) :
    (∃ res m', (copyout r va p).run m = .ok res m' ∧ ThroughMap m m' r va p res) ↔ Writable m r va.toNat p := by
  constructor
  · intro ⟨res, m', hrun, hthrough⟩
    have hstored := (hthrough.stored.resolve_left (by rw [copyoutFrom_zero hrun]; decide)).2
    have hbyte : ∀ k < p.length, m'.byte (m.target r (va.toNat + k)) = p.getD k 0 := fun k hk => by
      obtain ⟨w, hw, hb⟩ := hstored k hk
      rw [Memory.target, frame_of_lookup hw, hb]
    refine ⟨fun k hk => ?_, fun k hk j hj he => ?_⟩
    · obtain ⟨w, hw, -⟩ := hstored k hk
      rw [hw]
      exact Option.some_ne_none w
    · rw [← hbyte k hk, he, hbyte j hj]
  · intro h
    have hmapped : ∀ k < p.length, ∃ w, m.lookup r ((va.toNat + k) / pageSize) = some w :=
      fun k hk => Option.ne_none_iff_exists'.mp (h.mapped k hk)
    obtain ⟨m', hrun, hwritten⟩ := copyoutFrom_spec le_rfl (by omega) h fun k hk => by
      obtain ⟨w, hw⟩ := hmapped k hk
      rw [frame_of_lookup hw]
      exact hapart k hk w hw
    refine ⟨0, m', hrun, Or.inr ⟨rfl, fun k hk => ?_⟩, fun y hy => Or.inl (hwritten.other y hy)⟩
    obtain ⟨w, hw⟩ := hmapped k hk
    refine ⟨w, hw, ?_⟩
    rw [← frame_of_lookup hw]
    exact hwritten.bytes k hk

/-- Two bytes at the end of a page that has just been mapped. -/
theorem copyout_throughMap_mapped : ∃ m m' res, (uvmMap 0x100000 0 0x1000 0x300000).run blankMemory = .ok 0 m ∧
    (copyout 0x100000 0xffe [1, 2]).run m = .ok res m' ∧ ThroughMap m m' 0x100000 0xffe [1, 2] res := by
  obtain ⟨hdir, htables, -⟩ := blankMemory_pgdir
  have hspec := uvmMap_spec 0 0x1000 0x300000 hdir (by decide) (by decide) (by decide)
  have hrun : returnedWith (fun res m => res = 0 ∧ m.lookup 0x100000 0 = some (userEntry 0x300000))
      ((uvmMap 0x100000 0 0x1000 0x300000).run blankMemory) = true := by decide
  obtain ⟨res, m, hrun, htest⟩ := exists_of_returnedWith hrun
  obtain ⟨rfl, hlookup⟩ := of_decide_eq_true htest
  obtain ⟨j, tabs, -, hgrows, -⟩ := hspec.of_ok hrun
  have hpage : ∀ k < 2, ((0xffe : UInt64).toNat + k) / pageSize = 0 := by decide
  have hwritable : Writable m 0x100000 (0xffe : UInt64).toNat [1, 2] := by
    refine ⟨fun k hk => ?_, fun k hk j hj he => ?_⟩
    · rw [hpage k hk, hlookup]
      exact Option.some_ne_none _
    · have hplace : ∀ k < 2, ((0xffe : UInt64).toNat + k) % pageSize = 0xffe + k := by decide
      rw [Memory.target, Memory.target, hpage k hk, hpage j hj, hplace k hk, hplace j hj] at he
      rw [show k = j by omega]
  obtain ⟨res, m', hrun', hthrough⟩ := (copyout_throughMap m 0x100000 0xffe [1, 2] (by decide) fun k hk w hw => by
    rw [hpage k hk, hlookup] at hw
    rw [← Option.some.inj hw, show pteAddress (userEntry 0x300000) = 0x300000 by decide, hgrows.tables, htables]
    intro ht
    refine ht.elim (by decide) fun hmem => ?_
    have hfree : 0x300000 ∈ blankMemory.free := hgrows.free ▸ List.mem_append_left _ hmem
    exact absurd hfree (by decide)).mpr hwritable
  exact ⟨m, m', res, hrun, hrun', hthrough⟩

/-- Nothing is mapped, and a byte for address 0 goes to the first byte of physical memory. -/
theorem copyout_unmapped : ∃ res m', (copyout 0x100000 0 [65]).run blankMemory = .ok res m' ∧ res = 0 ∧
    blankMemory.byte 0 = 0 ∧ m'.byte 0 = 65 ∧ blankMemory.lookup 0x100000 0 = none := by
  have hrun : returnedWith (fun res m' => res = 0 ∧ blankMemory.byte 0 = 0 ∧ m'.byte 0 = 65 ∧
      blankMemory.lookup 0x100000 0 = none) ((copyout 0x100000 0 [65]).run blankMemory) = true := by decide
  obtain ⟨res, m', hrun, htest⟩ := exists_of_returnedWith hrun
  exact ⟨res, m', hrun, of_decide_eq_true htest⟩

end OS2021.Core
