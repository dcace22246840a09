import OS2021.User.Mkfs.Main

/-! `iappend` is the kernel's `inode_write` with another allocator.

Take the image with the bitmap that `balloc` would write at this point, and a kernel
that holds the inode. The first free block by that bitmap is `freeblock`, and blocks
that were never handed out are zero as the kernel's allocator leaves them. So `mkfs`
and the kernel take the same blocks and write the same bytes, iteration by iteration,
and what is known about `inode_write` holds of `iappend`. -/
namespace OS2021.User.Mkfs
open Lib Fs Function

variable {m m' : State} {e e' : InodeEntry} {no b n j : Nat} {d : BlockData} {fbn : Nat} {k : Nat}

/-! ### The layout -/

theorem sb_bitmapStart : sb.bitmapStart.toNat = 91 := by decide

theorem sb_inodeStart : sb.inodeStart.toNat = 65 := by decide

theorem sb_numBlocks : sb.numBlocks.toNat = 1000 := by decide

theorem sb_numInodes : sb.numInodes.toNat = 200 := by decide

theorem sb_dataStart : sb.dataStart = 92 := by decide

theorem sb_layout : Layout sb := ⟨by decide, by decide, by decide⟩

/-! ### The kernel's view -/

/-- The bitmap block with the first `n` bits set. -/
def firstBits (n : Nat) : BlockData := (List.range n).foldl setBit zeroBlock

theorem firstBits_succ (n : Nat) : firstBits (n + 1) = setBit (firstBits n) n := by
  rw [firstBits, List.range_succ, List.foldl_append]
  rfl

theorem bitIsSet_zeroBlock (b : Nat) : bitIsSet zeroBlock b = false := by
  rw [bitIsSet_eq, bytes_zeroBlock]
  exact Nat.zero_testBit _

theorem bitIsSet_firstBits (h : n ≤ bitPerBlock) (b : Nat) : bitIsSet (firstBits n) b = decide (b < n) := by
  induction n with
  | zero =>
    rw [firstBits, List.range_zero, List.foldl_nil, bitIsSet_zeroBlock]
    exact (decide_eq_false (Nat.not_lt_zero b)).symm
  | succ n ih =>
    rw [firstBits_succ, bitIsSet_setBit h, ih (Nat.le_of_succ_le h), Bool.eq_iff_iff, Bool.or_eq_true,
      decide_eq_true_iff, decide_eq_true_iff, decide_eq_true_iff]
    omega

namespace State

/-- The blocks of the image, with the bitmap that `balloc` would write now. -/
def image (m : State) : Nat → BlockData := update m.blocks sb.bitmapStart.toNat (firstBits m.freeblock)

/-- An in-memory inode nobody has used. -/
def spare : Inode := ⟨false, 0, 0, false, .zero⟩

/-- A kernel that has no inode in memory. -/
def volume (m : State) : Volume := ⟨m.image, fun _ => spare, [], 0⟩

/-- A kernel that holds inode `no`, with the entry `e`. -/
def held (m : State) (no : Nat) (e : InodeEntry) : Volume :=
  ⟨m.image, update (fun _ => spare) 0 ⟨false, 1, no, true, e⟩, [0], 0⟩

/-- The next block is handed out. -/
def bump (m : State) : State := {m with freeblock := m.freeblock + 1}

def put (m : State) (b : Nat) (d : BlockData) : State := {m with blocks := update m.blocks b d}

end State

@[simp] theorem held_heap : (m.held no e).heap 0 = ⟨false, 1, no, true, e⟩ := by
  dsimp only [State.held]
  rw [update_self]

theorem held_heap_of_ne {q : Ptr} (h : q ≠ 0) : (m.held no e).heap q = State.spare := by
  dsimp only [State.held]
  rw [update_of_ne h]

theorem held_loaded : (m.held no e).Loaded 0 := by
  refine ⟨⟨List.mem_singleton.mpr rfl, ?_⟩, ?_⟩
  · rw [held_heap]
    exact Int.one_pos
  · rw [held_heap]

theorem image_bitmap : m.image sb.bitmapStart.toNat = firstBits m.freeblock := by
  rw [State.image, update_self]

theorem image_of_ne (h : b ≠ 91) : m.image b = m.blocks b := update_of_ne h ..

theorem held_editEntry (f : InodeEntry → InodeEntry) : (m.held no e).editEntry 0 f = m.held no (f e) := by
  rw [Volume.editEntry, Volume.setInode, held_heap]
  exact congrArg (fun h => {m.held no e with heap := h}) (update_idem ..)

theorem put_image (h : b ≠ 91) : (m.put b d).image = update m.image b d := by
  have hne : sb.bitmapStart.toNat ≠ b := fun he => h (he ▸ sb_bitmapStart)
  exact (update_comm hne ..).symm

theorem held_setBlock (h : b ≠ 91) : (m.held no e).setBlock b d = (m.put b d).held no e := by
  show (⟨update m.image b d, _, _, _⟩ : Volume) = ⟨(m.put b d).image, _, _, _⟩
  rw [put_image h]
  rfl

/-! ### States between two appends -/

/-- The image has all its blocks and its super block, and the blocks from `freeblock` on
are still zero. -/
structure Ready (m : State) : Prop where
  size : m.size = fssize
  superBlock : m.blocks 1 = superBlockBytes sb
  lower : nmeta ≤ m.freeblock
  upper : m.freeblock ≤ fssize
  blank : ∀ b, m.freeblock ≤ b → m.blocks b = zeroBlock

theorem Ready.range (h : Ready m) : 92 ≤ m.freeblock ∧ m.freeblock ≤ 1000 := ⟨h.lower, h.upper⟩

theorem Ready.bump (h : Ready m) (hlt : m.freeblock < fssize) : Ready m.bump :=
  ⟨h.size, h.superBlock, Nat.le_succ_of_le h.lower, hlt, fun b hb => h.blank b (Nat.le_of_succ_le hb)⟩

theorem Ready.put (h : Ready m) (hne : 1 < b) (hb : b < m.freeblock) : Ready (m.put b d) := by
  have hother : ∀ x ≠ b, (m.put b d).blocks x = m.blocks x := fun x hx => update_of_ne hx ..
  refine ⟨h.size, ?_, h.lower, h.upper, fun x hx => ?_⟩
  · rw [hother 1 (Nat.ne_of_lt hne), h.superBlock]
  · rw [hother x (Nat.ne_of_gt (lt_of_lt_of_le hb hx))]
    exact h.blank x hx

section
variable (h : m.size = fssize)
include h

theorem rsect_run (hb : b < fssize) : (rsect b).run m = .ok (m.blocks b) m := by
  have hlt : place b < m.size := by rwa [place_eq hb.le, h]
  rw [rsect, bind_ok (get_run m), if_pos hlt, place_eq hb.le, pure_run]

/-- There is no block past the last one. -/
theorem rsect_end : (rsect fssize).run m = .error .read m := by
  have hge : ¬ place fssize < m.size := by
    rw [place_eq le_rfl, h]
    exact Nat.lt_irrefl _
  rw [rsect, bind_ok (get_run m), if_neg hge, throw_run]

theorem wsect_run (hb : b < fssize) : (wsect b d).run m = .ok () (m.put b d) := by
  have hsize : max m.size (b + 1) = m.size := by
    rw [h]
    exact Nat.max_eq_left hb
  rw [wsect, modify_run, place_eq hb.le, hsize]
  rfl

omit h in
theorem nextBlock_run : nextBlock.run m = .ok (UInt32.ofNat m.freeblock) m.bump := by
  rw [nextBlock, bind_ok (get_run m), bind_ok (set_run _ _), xint_eq, pure_run]
  rfl

theorem tableAddr_there {t : Nat} (ht : t < fssize) (hz : getAddr (m.blocks t) j ≠ 0) :
    (tableAddr t j).run m = .ok (getAddr (m.blocks t) j) m := by
  rw [tableAddr, bind_ok (rsect_run h ht), if_neg hz, xint_eq, pure_run]

theorem tableAddr_new {t : Nat} (ht : t < fssize) (hz : getAddr (m.blocks t) j = 0) :
    (tableAddr t j).run m = .ok (UInt32.ofNat m.freeblock)
      (m.bump.put t (setAddr (m.blocks t) j (UInt32.ofNat m.freeblock))) := by
  have hsize : m.bump.size = fssize := h
  rw [tableAddr, bind_ok (rsect_run h ht), if_pos hz, bind_ok nextBlock_run, bind_ok (wsect_run hsize ht), xint_eq,
    pure_run]

end

/-! ### The allocators -/

theorem Ready.toNat_freeblock (h : Ready m) : (UInt32.ofNat m.freeblock).toNat = m.freeblock := by
  have hr := h.range
  exact UInt32.toNat_ofNat_of_lt' (by show m.freeblock < 2 ^ 32; omega)

theorem held_isUsed (h : Ready m) (hb : b < fssize) : (m.held no e).isUsed sb b = decide (b < m.freeblock) := by
  have hb' : b < 1000 := hb
  have hr := h.range
  have hblock : bitmapBlock sb b = sb.bitmapStart.toNat := by
    show b / 4096 + _ = _
    omega
  have hmod : b % bitPerBlock = b := Nat.mod_eq_of_lt (by show b < 4096; omega)
  have hbits : (m.held no e).blocks sb.bitmapStart.toNat = firstBits m.freeblock := image_bitmap
  rw [Volume.isUsed, hblock, hmod, hbits, bitIsSet_firstBits (by show m.freeblock ≤ 4096; omega)]

/-- Setting the bit and zeroing the block does what handing it out does. -/
theorem taken_held (h : Ready m) (hlt : m.freeblock < fssize) :
    ((m.held no e).setUsed sb m.freeblock).setBlock m.freeblock zeroBlock = m.bump.held no e := by
  have hlt' : m.freeblock < 1000 := hlt
  have hr := h.range
  have hblock : bitmapBlock sb m.freeblock = sb.bitmapStart.toNat := by
    show m.freeblock / 4096 + _ = _
    omega
  have hmod : m.freeblock % bitPerBlock = m.freeblock := Nat.mod_eq_of_lt (by show m.freeblock < 4096; omega)
  have hblocks : update (update m.image sb.bitmapStart.toNat (firstBits (m.freeblock + 1)))
      m.freeblock zeroBlock = m.bump.image := by
    have hne : sb.bitmapStart.toNat ≠ m.freeblock := by
      rw [sb_bitmapStart]
      omega
    have hzero : update m.blocks m.freeblock zeroBlock = m.blocks := by
      rw [← h.blank _ le_rfl]
      exact update_eq_self ..
    rw [State.image, update_idem, update_comm hne, hzero]
    rfl
  have hbits : (m.held no e).blocks sb.bitmapStart.toNat = firstBits m.freeblock := image_bitmap
  rw [Volume.setUsed, hblock, hmod, hbits, ← firstBits_succ]
  show (⟨update (update m.image sb.bitmapStart.toNat (firstBits (m.freeblock + 1)))
      m.freeblock zeroBlock, _, _, _⟩ : Volume) = ⟨m.bump.image, _, _, _⟩
  rw [hblocks]
  rfl

/-- The kernel's allocator takes the block that `mkfs` takes. -/
theorem blockAlloc_bump (h : Ready m) (hlt : m.freeblock < fssize) :
    (blockAlloc sb).run (m.held no e) = .ok m.freeblock (m.bump.held no e) := by
  have hfind : (List.range sb.numBlocks.toNat).find? (fun b => !(m.held no e).isUsed sb b) = some m.freeblock := by
    rw [List.find?_range_eq_some, held_isUsed h hlt, sb_numBlocks]
    refine ⟨by simp, List.mem_range.mpr hlt, fun k hk => ?_⟩
    rw [held_isUsed h (hk.trans hlt), decide_eq_true hk]
    rfl
  rw [blockAlloc, bind_ok (get_run _), hfind, bind_ok (set_run _ _), pure_run, taken_held h hlt]

/-! ### Finding a block -/

/-- `k` more blocks have been handed out. -/
structure Took (m m' : State) (k : Nat) : Prop where
  ready : Ready m'
  freeinode : m'.freeinode = m.freeinode
  freeblock : m'.freeblock = m.freeblock + k

theorem Ready.took (h : Ready m) : Took m m 0 := ⟨h, rfl, rfl⟩

theorem Took.bump (h : Took m m' k) (hlt : m'.freeblock < fssize) : Took m m'.bump (k + 1) :=
  ⟨h.ready.bump hlt, h.freeinode, congrArg (· + 1) h.freeblock⟩

theorem Took.put (h : Took m m' k) (hne : 1 < b) (hb : b < m'.freeblock) : Took m (m'.put b d) k :=
  ⟨h.ready.put hne hb, h.freeinode, h.freeblock⟩

/-- How many blocks must be handed out before the file has block `fbn`. -/
def State.missing (m : State) (e : InodeEntry) (fbn : Nat) : Nat :=
  (if addrOf m.image e (blockSlot fbn) = 0 then 1 else 0) + if inodeNumDirect ≤ fbn ∧ e.indirect = 0 then 1 else 0

section Fetch
variable (hr : Ready m) (hw : Listed sb (m.held no e))
  (ho : Owned sb.dataStart sb.numBlocks.toNat ((m.held no e).addr sb) ((m.held no e).used sb))
include hr hw ho

omit hr ho in
theorem held_addr (σ : Slot) : (m.held no e).addr sb (no, σ) = addrOf m.image e σ := by
  have haddr := addr_loaded hw held_loaded σ
  rw [held_heap] at haddr
  exact haddr

/-- What the inode records has been handed out. -/
theorem addrOf_range {σ : Slot} (hne : addrOf m.image e σ ≠ 0) :
    92 ≤ addrOf m.image e σ ∧ addrOf m.image e σ < m.freeblock := by
  rw [← held_addr hw] at hne ⊢
  obtain ⟨hge, hlt⟩ := ho.range _ hne
  rw [sb_numBlocks] at hlt
  have hbit : (m.held no e).isUsed sb _ = true := ho.mem_used _ hne
  rw [held_isUsed hr hlt] at hbit
  exact ⟨sb_dataStart ▸ hge, of_decide_eq_true hbit⟩

theorem directAddr_room (h : fbn < inodeNumDirect) (hroom : m.freeblock + m.missing e fbn ≤ fssize) :
    ∃ x e' m' b, (directAddr e ⟨fbn, h⟩).run m = .ok (x, e') m' ∧
      (inodeMap sb 0 fbn).run (m.held no e) = .ok (x.toNat, b) (m'.held no e') ∧ Took m m' (m.missing e fbn) ∧
      92 ≤ x.toNat ∧ x.toNat < m'.freeblock ∧ e'.indirect = e.indirect := by
  have hslot : addrOf m.image e (blockSlot fbn) = (e.addrs ⟨fbn, h⟩).toNat := by
    rw [blockSlot, dif_pos h, addrOf]
  have hnot : ¬ (inodeNumDirect ≤ fbn ∧ e.indirect = 0) := fun hc => absurd hc.1 (not_le.mpr h)
  rw [State.missing, if_neg hnot, hslot, Nat.add_zero] at hroom ⊢
  rw [directAddr, inodeMap, bind_ok (get_run _), dif_pos h, held_heap, xint_eq]
  dsimp only
  by_cases hz : e.addrs ⟨fbn, h⟩ = 0
  · have hzero : (e.addrs ⟨fbn, h⟩).toNat = 0 := by rw [hz]; rfl
    rw [if_pos hzero] at hroom ⊢
    have hnum := hr.toNat_freeblock
    refine ⟨UInt32.ofNat m.freeblock, {e with addrs := update e.addrs ⟨fbn, h⟩ (UInt32.ofNat m.freeblock)},
      m.bump, true, ?_, ?_, hr.took.bump hroom, ?_, ?_, rfl⟩
    · rw [if_pos hz, bind_ok nextBlock_run, xint_eq, pure_run]
    · rw [if_pos hz, bind_ok (blockAlloc_bump hr hroom), bind_ok (modify_run _ _), pure_run, held_editEntry, hnum]
    · rw [hnum]
      exact hr.lower
    · rw [hnum]
      exact Nat.lt_succ_self _
  · have hne : (e.addrs ⟨fbn, h⟩).toNat ≠ 0 := toNat_ne_zero.mpr hz
    rw [if_neg hne] at hroom ⊢
    obtain ⟨hge, hlt⟩ := addrOf_range hr hw ho (hslot ▸ hne)
    rw [hslot] at hge hlt
    refine ⟨e.addrs ⟨fbn, h⟩, e, m, false, ?_, ?_, hr.took, hge, hlt, rfl⟩
    · rw [if_neg hz, pure_run]
    · rw [if_neg hz, pure_run]

/-- The indirect block, new or old. -/
theorem withTable_room (hroom : m.freeblock + (if e.indirect = 0 then 1 else 0) ≤ fssize) :
    ∃ e' m', (withTable e).run m = .ok e' m' ∧
      (indirectBlock sb 0).run (m.held no e) = .ok e'.indirect.toNat (m'.held no e') ∧
      Took m m' (if e.indirect = 0 then 1 else 0) ∧ 92 ≤ e'.indirect.toNat ∧ e'.indirect.toNat < m'.freeblock ∧
      ∀ i, addrOf m.image e (.indirect i) = (getAddr (m'.blocks e'.indirect.toNat) i).toNat := by
  rw [withTable, indirectBlock, bind_ok (get_run _), held_heap, xint_eq]
  dsimp only
  by_cases hz : e.indirect = 0
  · simp only [if_pos hz] at hroom ⊢
    have hnum := hr.toNat_freeblock
    refine ⟨{e with indirect := UInt32.ofNat m.freeblock}, m.bump, ?_, ?_, hr.took.bump hroom, ?_, ?_, fun i => ?_⟩
    · rw [bind_ok nextBlock_run, pure_run]
    · rw [bind_ok (blockAlloc_bump hr hroom), bind_ok (modify_run _ _), pure_run, held_editEntry, hnum]
    · rw [hnum]
      exact hr.lower
    · rw [hnum]
      exact Nat.lt_succ_self _
    · have hblank : m.bump.blocks m.freeblock = zeroBlock := hr.blank _ le_rfl
      rw [addrOf, if_pos hz, hnum, hblank, getAddr_zeroBlock]
      rfl
  · simp only [if_neg hz] at hroom ⊢
    obtain ⟨hge, hlt⟩ := addrOf_range (σ := .table) hr hw ho (toNat_ne_zero.mpr hz)
    refine ⟨e, m, ?_, ?_, hr.took, hge, hlt, fun i => ?_⟩
    · rw [pure_run]
    · rw [pure_run]
    · have hge' : 92 ≤ e.indirect.toNat := hge
      rw [addrOf, if_neg hz, image_of_ne (by omega)]

theorem indirectAddr_room (h : ¬ fbn < inodeNumDirect) (hidx : fbn < inodeMaxBlocks)
    (hroom : m.freeblock + m.missing e fbn ≤ fssize) :
    ∃ x e' m' b, (indirectAddr e (fbn - inodeNumDirect)).run m = .ok (x, e') m' ∧
      (inodeMap sb 0 fbn).run (m.held no e) = .ok (x.toNat, b) (m'.held no e') ∧ Took m m' (m.missing e fbn) ∧
      92 ≤ x.toNat ∧ x.toNat < m'.freeblock ∧ e'.indirect ≠ 0 := by
  have hlt : fbn - inodeNumDirect < inodeNumIndirect := Nat.sub_lt_left_of_lt_add (not_lt.mp h) hidx
  have hiff : (inodeNumDirect ≤ fbn ∧ e.indirect = 0) ↔ e.indirect = 0 := and_iff_right (not_lt.mp h)
  simp only [State.missing, hiff, blockSlot_indirect h hlt] at hroom ⊢
  obtain ⟨e1, m1, htable, hkernel, htook, hge, hbelow, haddr⟩ := withTable_room hr hw ho (by omega)
  have hupper := htook.ready.upper
  have hread : (m1.held no e1).blocks e1.indirect.toNat = m1.blocks e1.indirect.toNat := image_of_ne (by omega)
  have hne : e1.indirect ≠ 0 := toNat_ne_zero.mp (by omega)
  simp only [haddr] at hroom ⊢
  rw [indirectAddr, bind_ok htable, xint_eq, inodeMap, bind_ok (get_run _), dif_neg h, if_pos hlt, bind_ok hkernel,
    bind_ok (get_run _), hread]
  dsimp only
  by_cases hz : getAddr (m1.blocks e1.indirect.toNat) (fbn - inodeNumDirect) = 0
  · have hzero : (getAddr (m1.blocks e1.indirect.toNat) (fbn - inodeNumDirect)).toNat = 0 := by rw [hz]; rfl
    have hfree : m1.freeblock < fssize := by
      rw [htook.freeblock]
      rw [if_pos hzero] at hroom
      omega
    have hnum := htook.ready.toNat_freeblock
    have hbump : (m1.bump.held no e1).blocks e1.indirect.toNat = m1.blocks e1.indirect.toNat :=
      image_of_ne (by omega)
    refine ⟨UInt32.ofNat m1.freeblock, e1, m1.bump.put e1.indirect.toNat (setAddr (m1.blocks e1.indirect.toNat)
      (fbn - inodeNumDirect) (UInt32.ofNat m1.freeblock)), true, ?_, ?_, ?_, ?_, ?_, hne⟩
    · rw [bind_ok (tableAddr_new htook.ready.size (by omega) hz), pure_run]
    · rw [if_pos hz, bind_ok (blockAlloc_bump htook.ready hfree), bind_ok (modify_run _ _), pure_run, hnum, hbump,
        held_setBlock (by omega)]
    · rw [if_pos hzero, Nat.add_comm]
      exact (htook.bump hfree).put (by omega) (Nat.lt_succ_of_lt hbelow)
    · rw [hnum]
      exact htook.ready.lower
    · rw [hnum]
      exact Nat.lt_succ_self _
  · have hnz : (getAddr (m1.blocks e1.indirect.toNat) (fbn - inodeNumDirect)).toNat ≠ 0 := toNat_ne_zero.mpr hz
    have hslot : addrOf m.image e (.indirect ⟨fbn - inodeNumDirect, hlt⟩) =
        (getAddr (m1.blocks e1.indirect.toNat) (fbn - inodeNumDirect)).toNat := haddr _
    obtain ⟨hxge, hxlt⟩ := addrOf_range hr hw ho (hslot ▸ hnz)
    rw [hslot] at hxge hxlt
    have hmore : m.freeblock ≤ m1.freeblock := htook.freeblock ▸ Nat.le_add_right ..
    refine ⟨getAddr (m1.blocks e1.indirect.toNat) (fbn - inodeNumDirect), e1, m1, false, ?_, ?_, ?_, hxge, by omega,
      hne⟩
    · rw [bind_ok (tableAddr_there htook.ready.size (by omega) hz), pure_run]
    · rw [if_neg hz, pure_run]
    · rw [if_neg hnz, Nat.zero_add]
      exact htook

/-- **`mkfs` finds block `fbn` where the kernel's `inode_map` finds it**, if there are blocks enough. -/
theorem fetch_room (hidx : fbn < inodeMaxBlocks) (hroom : m.freeblock + m.missing e fbn ≤ fssize) :
    ∃ x e' m' b, (fetch e fbn).run m = .ok (x, m'.blocks x.toNat, e') m' ∧
      (inodeMap sb 0 fbn).run (m.held no e) = .ok (x.toNat, b) (m'.held no e') ∧ Took m m' (m.missing e fbn) ∧
      92 ≤ x.toNat ∧ x.toNat < m'.freeblock ∧ (e'.indirect ≠ 0 ↔ e.indirect ≠ 0 ∨ inodeNumDirect ≤ fbn) := by
  have hread : ∀ {x e' m' k}, (fileAddr e fbn).run m = .ok (x, e') m' → Took m m' k → x.toNat < m'.freeblock →
      (fetch e fbn).run m = .ok (x, m'.blocks x.toNat, e') m' := by
    intro x e' m' k haddr htook hlt
    rw [fetch, bind_ok haddr]
    dsimp only
    rw [bind_ok (rsect_run htook.ready.size (lt_of_lt_of_le hlt htook.ready.upper)), pure_run]
  by_cases h : fbn < inodeNumDirect
  · obtain ⟨x, e', m', b, hrun, hkernel, htook, hge, hlt, hsame⟩ := directAddr_room hr hw ho h hroom
    have haddr : (fileAddr e fbn).run m = .ok (x, e') m' := by rw [fileAddr, dif_pos h, hrun]
    refine ⟨x, e', m', b, hread haddr htook hlt, hkernel, htook, hge, hlt, ?_⟩
    rw [hsame, or_iff_left (not_le.mpr h)]
  · obtain ⟨x, e', m', b, hrun, hkernel, htook, hge, hlt, hne⟩ := indirectAddr_room hr hw ho h hidx hroom
    have haddr : (fileAddr e fbn).run m = .ok (x, e') m' := by rw [fileAddr, dif_neg h, hrun]
    exact ⟨x, e', m', b, hread haddr htook hlt, hkernel, htook, hge, hlt,
      iff_of_true hne (Or.inr (not_lt.mp h))⟩

/-- With one block too few, what is read next is past the end of the image. -/
theorem fetch_full (hidx : fbn < inodeMaxBlocks) (hfull : fssize < m.freeblock + m.missing e fbn) :
    ∃ m', (fetch e fbn).run m = .error .read m' := by
  have hlast : (UInt32.ofNat fssize).toNat = fssize := by decide
  have hread : ∀ {e' m'}, (fileAddr e fbn).run m = .ok (UInt32.ofNat fssize, e') m' → m'.size = fssize →
      (fetch e fbn).run m = .error .read m' := by
    intro e' m' haddr hsize
    rw [fetch, bind_ok haddr]
    dsimp only
    rw [hlast, bind_error (rsect_end hsize)]
  by_cases h : fbn < inodeNumDirect
  · have hslot : addrOf m.image e (blockSlot fbn) = (e.addrs ⟨fbn, h⟩).toNat := by
      rw [blockSlot, dif_pos h, addrOf]
    have hnot : ¬ (inodeNumDirect ≤ fbn ∧ e.indirect = 0) := fun hc => absurd hc.1 (not_le.mpr h)
    rw [State.missing, if_neg hnot, hslot, Nat.add_zero] at hfull
    by_cases hz : e.addrs ⟨fbn, h⟩ = 0
    · have hone : m.freeblock = fssize := by
        have hupper := hr.upper
        split at hfull <;> omega
      have haddr : (fileAddr e fbn).run m = .ok (UInt32.ofNat fssize,
          {e with addrs := update e.addrs ⟨fbn, h⟩ (UInt32.ofNat fssize)}) m.bump := by
        rw [fileAddr, dif_pos h, directAddr, xint_eq, if_pos hz, bind_ok nextBlock_run, hone, xint_eq, pure_run]
      exact ⟨m.bump, hread haddr hr.size⟩
    · rw [if_neg (toNat_ne_zero.mpr hz)] at hfull
      exact absurd hr.upper (not_le.mpr hfull)
  · have hlt : fbn - inodeNumDirect < inodeNumIndirect := Nat.sub_lt_left_of_lt_add (not_lt.mp h) hidx
    have hiff : (inodeNumDirect ≤ fbn ∧ e.indirect = 0) ↔ e.indirect = 0 := and_iff_right (not_lt.mp h)
    simp only [State.missing, hiff, blockSlot_indirect h hlt] at hfull
    by_cases htab : m.freeblock + (if e.indirect = 0 then 1 else 0) ≤ fssize
    · -- the indirect block is there, the block itself is not
      obtain ⟨e1, m1, htable, -, htook, hge, hbelow, haddr⟩ := withTable_room hr hw ho htab
      have htook' := htook.freeblock
      simp only [haddr] at hfull
      by_cases hz : getAddr (m1.blocks e1.indirect.toNat) (fbn - inodeNumDirect) = 0
      · have hone : m1.freeblock = fssize := by
          split at hfull <;> omega
        have haddr : (fileAddr e fbn).run m = .ok (UInt32.ofNat fssize, e1) (m1.bump.put e1.indirect.toNat
            (setAddr (m1.blocks e1.indirect.toNat) (fbn - inodeNumDirect) (UInt32.ofNat fssize))) := by
          rw [fileAddr, dif_neg h, indirectAddr, bind_ok htable, xint_eq,
            bind_ok (tableAddr_new htook.ready.size (by omega) hz), hone, pure_run]
        exact ⟨_, hread haddr htook.ready.size⟩
      · rw [if_neg (toNat_ne_zero.mpr hz)] at hfull
        omega
    · -- the indirect block itself would be past the end
      have hz : e.indirect = 0 := by
        by_contra hne
        rw [if_neg hne] at htab
        exact htab hr.upper
      have hone : m.freeblock = fssize := by
        have hupper := hr.upper
        rw [if_pos hz] at htab
        omega
      have htable : (withTable e).run m = .ok {e with indirect := UInt32.ofNat fssize} m.bump := by
        rw [withTable, xint_eq, if_pos hz, bind_ok nextBlock_run, hone, pure_run]
      refine ⟨m.bump, ?_⟩
      have haddr : (fileAddr e fbn).run m = .error .read m.bump := by
        rw [fileAddr, dif_neg h, indirectAddr, bind_ok htable, xint_eq]
        dsimp only
        rw [hlast, tableAddr]
        exact bind_error (bind_error (rsect_end hr.size))
      rw [fetch, bind_error haddr]

end Fetch

/-! ### The loop -/

/-- How many blocks a file of that size takes, with its indirect block. -/
def need (n : Nat) : Nat := blocksFor n + if inodeNumDirect < blocksFor n then 1 else 0

variable {off : Nat} {src : List UInt8}

theorem need_mono {n k : Nat} (h : n ≤ k) : need n ≤ need k := by
  show (n + 511) / 512 + (if 12 < (n + 511) / 512 then 1 else 0) ≤
    (k + 511) / 512 + if 12 < (k + 511) / 512 then 1 else 0
  split <;> split <;> omega

theorem blocksFor_chunk (hpos : 0 < k) (hle : k ≤ blockSize - off % blockSize) :
    blocksFor (off + k) = off / blockSize + 1 := by
  have hle' : k ≤ 512 - off % 512 := hle
  show (off + k + 511) / 512 = off / 512 + 1
  omega

/-- What one iteration needs, where a file of `off` bytes has just the blocks it needs. -/
theorem missing_add_need (hpos : 0 < k) (hle : k ≤ blockSize - off % blockSize)
    (haddr : addrOf m.image e (blockSlot (off / blockSize)) ≠ 0 ↔ off / blockSize < blocksFor off)
    (htable : e.indirect ≠ 0 ↔ inodeNumDirect < blocksFor off) :
    m.missing e (off / blockSize) + need off = need (off + k) := by
  have hfirst : (if addrOf m.image e (blockSlot (off / blockSize)) = 0 then 1 else 0) =
      if off / blockSize < blocksFor off then 0 else 1 := by
    by_cases hlt : off / blockSize < blocksFor off
    · rw [if_pos hlt, if_neg (haddr.mpr hlt)]
    · rw [if_neg hlt, if_pos (by_contra fun hne => hlt (haddr.mp hne))]
  have hsecond : (inodeNumDirect ≤ off / blockSize ∧ e.indirect = 0) ↔
      inodeNumDirect ≤ off / blockSize ∧ ¬ inodeNumDirect < blocksFor off := by
    rw [← htable, not_not]
  rw [State.missing, hfirst, need, need, blocksFor_chunk hpos hle]
  simp only [hsecond]
  show (if off / 512 < (off + 511) / 512 then 0 else 1) +
    (if 12 ≤ off / 512 ∧ ¬ 12 < (off + 511) / 512 then 1 else 0) +
    ((off + 511) / 512 + if 12 < (off + 511) / 512 then 1 else 0) =
    off / 512 + 1 + if 12 < off / 512 + 1 then 1 else 0
  split <;> split <;> split <;> split <;> omega

/-- How many bytes an iteration moves. -/
theorem chunk_eq (off n : Nat) : min n ((off / blockSize + 1) * blockSize - off) = chunk off n := by
  show min n ((off / 512 + 1) * 512 - off) = min n (512 - off % 512)
  omega

section Iteration
variable (hr : Ready m) (hw : Listed sb (m.held no e))
  (ho : Owned sb.dataStart sb.numBlocks.toNat ((m.held no e).addr sb) ((m.held no e).used sb))
include hr hw ho

/-- One iteration, with blocks enough: the kernel makes the same step. -/
theorem append_step (hidx : off / blockSize < inodeMaxBlocks) (hsrc : src ≠ [])
    (hroom : m.freeblock + m.missing e (off / blockSize) ≤ fssize) :
    ∃ x e' m1, (fetch e (off / blockSize)).run m = .ok (x, m1.blocks x.toNat, e') m1 ∧
      ∃ m2, (wsect x.toNat
          (overwrite (m1.blocks x.toNat) (off % blockSize) (src.take (chunk off src.length)))).run m1 =
          .ok () m2 ∧ Took m m2 (m.missing e (off / blockSize)) ∧
        Written sb 0 off (src.take (chunk off src.length)) (m.held no e) (m2.held no e') ∧
        (∀ fuel, (writeLoop sb 0 (fuel + 1) off src).run (m.held no e) =
          (writeLoop sb 0 fuel (off + chunk off src.length) (src.drop (chunk off src.length))).run (m2.held no e')) ∧
        (e'.indirect ≠ 0 ↔ e.indirect ≠ 0 ∨ inodeNumDirect ≤ off / blockSize) := by
  have hpos := List.length_pos_iff.mpr hsrc
  have htake : (src.take (chunk off src.length)).length = chunk off src.length :=
    List.length_take_of_le (Nat.min_le_left ..)
  obtain ⟨x, e', m1, b, hfetch, hkernel, htook, hge, hlt, hind⟩ := fetch_room hr hw ho hidx hroom
  have hne : x.toNat ≠ 91 := by omega
  have hblock : (m1.held no e').blocks x.toNat = m1.blocks x.toNat := image_of_ne hne
  have hmapped : Mapped sb 0 (off / blockSize) x.toNat (m.held no e) (m1.held no e') :=
    (inodeMap_spec sb_layout hw held_loaded ho hidx).of_ok hkernel
  have hoff : off < inodeMaxBytes := by
    have hidx' : off / 512 < 140 := hidx
    show off < 71680
    omega
  have hnil : src.take (chunk off src.length) ≠ [] := fun h => by
    have hchunk := chunk_pos off hpos
    rw [h, List.length_nil] at htake
    omega
  have hwritten := hmapped.written sb_layout hoff hnil (htake.le.trans (Nat.min_le_right ..))
  rw [hblock, held_setBlock hne] at hwritten
  refine ⟨x, e', m1, hfetch, _, wsect_run htook.ready.size (lt_of_lt_of_le hlt htook.ready.upper),
    htook.put (by omega) hlt, hwritten, fun fuel => ?_, hind⟩
  rw [writeLoop, if_neg hsrc, bind_ok hkernel, bind_ok (modify_run _ _), hblock, held_setBlock hne]

end Iteration

/-- **`iappend`'s loop is the loop of `inode_write`.** Where a file of `off` bytes has just
the blocks it needs, both write the bytes, or there are not blocks enough, or the file
would be too long. -/
theorem appendLoop_spec {fuel : Nat} (hr : Ready m) (hw : Listed sb (m.held no e))
    (ho : Owned sb.dataStart sb.numBlocks.toNat ((m.held no e).addr sb) ((m.held no e).used sb))
    (hfuel : src.length ≤ fuel) (hoff : off ≤ inodeMaxBytes)
    (haddr : ∀ idx < inodeMaxBlocks, addrOf m.image e (blockSlot idx) ≠ 0 ↔ idx < blocksFor off)
    (htable : e.indirect ≠ 0 ↔ inodeNumDirect < blocksFor off) :
    Ends (fun r m' => off + src.length ≤ inodeMaxBytes ∧ r.1 = off + src.length ∧
        (writeLoop sb 0 fuel off src).run (m.held no e) = .ok r.1 (m'.held no r.2) ∧ Ready m' ∧
        m'.freeinode = m.freeinode ∧ m'.freeblock + need off = m.freeblock + need (off + src.length) ∧
        (r.2.indirect ≠ 0 ↔ inodeNumDirect < blocksFor (off + src.length)))
      (fun _ _ => inodeMaxBytes < off + src.length ∨ fssize + need off < m.freeblock + need (off + src.length))
      ((appendLoop fuel off src e).run m) := by
  induction fuel generalizing m e off src with
  | zero =>
    obtain rfl : src = [] := List.eq_nil_of_length_eq_zero (Nat.le_zero.mp hfuel)
    exact .ok ⟨hoff, rfl, rfl, hr, rfl, rfl, htable⟩
  | succ fuel ih =>
    rw [appendLoop]
    by_cases hsrc : src = []
    · rw [if_pos hsrc, hsrc, pure_run]
      refine .ok ⟨hoff, rfl, ?_, hr, rfl, rfl, htable⟩
      rw [writeLoop, if_pos rfl, pure_run]
    · have hpos := List.length_pos_iff.mpr hsrc
      rw [if_neg hsrc]
      by_cases hidx : off / blockSize < inodeMaxBlocks
      · have hcheck : (check "fbn < INODE_MAX_BLOCKS" (off / blockSize < inodeMaxBlocks)).run m = .ok () m := by
          rw [check, if_pos hidx, pure_run]
        have hmod : off - off / blockSize * blockSize = off % blockSize := (Nat.mod_eq_sub_div_mul ..).symm
        have hchunk := chunk_pos off hpos
        have hle : chunk off src.length ≤ src.length := Nat.min_le_left ..
        have hneed := missing_add_need hchunk (Nat.min_le_right ..) (haddr _ hidx) htable
        rw [bind_ok hcheck]
        by_cases hroom : m.freeblock + m.missing e (off / blockSize) ≤ fssize
        · obtain ⟨x, e', m1, hfetch, m2, hwrite, htook, hwritten, hkernel, hind⟩ :=
            append_step hr hw ho hidx hsrc hroom
          have htake : (src.take (chunk off src.length)).length = chunk off src.length := List.length_take_of_le hle
          have hdrop : (src.drop (chunk off src.length)).length = src.length - chunk off src.length :=
            List.length_drop
          have hsum : off + chunk off src.length + (src.drop (chunk off src.length)).length = off + src.length := by
            omega
          have hw2 := hwritten.listed sb_layout hw held_loaded
          have hnext : off + chunk off src.length ≤ inodeMaxBytes := by
            have hidx' : off / 512 < 140 := hidx
            have hend : chunk off src.length ≤ 512 - off % 512 := Nat.min_le_right ..
            show off + chunk off src.length ≤ 71680
            omega
          have haddr2 : ∀ idx < inodeMaxBlocks,
              addrOf m2.image e' (blockSlot idx) ≠ 0 ↔ idx < blocksFor (off + chunk off src.length) := by
            intro idx hlt
            have hgot := hwritten.got idx hlt
            have hcover : idx < blocksFor (max off (off + (src.take (chunk off src.length)).length)) ↔ _ :=
              blocks_of_write (Nat.le_refl off)
            rw [held_heap, held_addr hw2, held_addr hw, haddr idx hlt] at hgot
            rw [htake, Nat.max_eq_right (Nat.le_add_right ..)] at hcover
            rw [htake] at hgot
            rw [hgot, hcover]
          have htable2 : e'.indirect ≠ 0 ↔ inodeNumDirect < blocksFor (off + chunk off src.length) := by
            rw [hind, htable, blocksFor_chunk hchunk (Nat.min_le_right ..)]
            show 12 < (off + 511) / 512 ∨ 12 ≤ off / 512 ↔ 12 < off / 512 + 1
            omega
          rw [bind_ok hfetch, chunk_eq, hmod]
          dsimp only
          rw [bind_ok hwrite]
          refine (ih htook.ready hw2 hwritten.owned (by omega) hnext haddr2 htable2).mono ?_ ?_
          · intro r m' hres
            obtain ⟨hmax, hend, hloop, hready, hino, hblock, hres⟩ := hres
            rw [hsum] at hmax hend hblock hres
            refine ⟨hmax, hend, (hkernel fuel).trans hloop, hready, hino.trans htook.freeinode, ?_, hres⟩
            rw [htook.freeblock] at hblock
            omega
          · intro _ _ hstop
            rw [hsum, htook.freeblock] at hstop
            exact hstop.imp id fun h => by omega
        · obtain ⟨m', hfetch⟩ := fetch_full hr hw ho hidx (not_le.mp hroom)
          have hmono := need_mono (Nat.add_le_add_left hle off)
          rw [bind_error hfetch]
          exact .error (Or.inr (by omega))
      · have hcheck : (check "fbn < INODE_MAX_BLOCKS" (off / blockSize < inodeMaxBlocks)).run m =
            .error (.assertion "fbn < INODE_MAX_BLOCKS") m := by
          rw [check, if_neg hidx, throw_run]
        rw [bind_error hcheck]
        refine .error (Or.inl ?_)
        have hge : ¬ off / 512 < 140 := hidx
        show 71680 < off + src.length
        omega

end OS2021.User.Mkfs
