import OS2021.Fs.Bitmap
import OS2021.Fs.Entries
import OS2021.Lib.Ownership

/-! What a consistent file system is, and what of it a change can touch.

An inode counts with its in-memory entry where a valid one is referenced, with the
entry on the disk otherwise. Its slots (direct addresses, the indirect block, the
addresses in it) own blocks; the bitmap must have exactly the owned blocks of the
data area in use. A change to the bitmap touches no slot, a change to the inode
area only entries that nobody holds, a change to a data block only the slots of
the inode whose indirect block it is. -/
namespace OS2021.Fs
open Lib Function

/-! ### Layout -/

/-- The data area is the last `num_data_blocks` blocks. -/
def SuperBlock.dataStart (sb : SuperBlock) : Nat := sb.numBlocks.toNat - sb.numDataBlocks.toNat

/-- The areas do not overlap, as `mkfs` lays them out: inode blocks, bitmap blocks, data blocks. -/
structure Layout (sb : SuperBlock) : Prop where
  inodes : sb.inodeStart.toNat + sb.numInodes.toNat / inodePerBlock < sb.bitmapStart.toNat
  bitmap : sb.bitmapStart.toNat + sb.numBlocks.toNat / bitPerBlock < sb.dataStart
  counter : sb.numInodes.toNat + 1 < 2 ^ 32

example : Layout .mkfs := ⟨by decide, by decide, by decide⟩

namespace Layout
variable {sb : SuperBlock} {b i : Nat}

theorem toBlockNo_lt (h : Layout sb) (hi : i ≤ sb.numInodes.toNat) : toBlockNo sb i < sb.bitmapStart.toNat :=
  lt_of_le_of_lt (Nat.add_le_add_left (Nat.div_le_div_right hi) _) h.inodes

theorem bitmapBlock_lt (h : Layout sb) (hb : b < sb.numBlocks.toNat) : bitmapBlock sb b < sb.dataStart := by
  have hdiv : b / bitPerBlock ≤ sb.numBlocks.toNat / bitPerBlock := Nat.div_le_div_right hb.le
  have := h.bitmap
  rw [bitmapBlock]
  omega

theorem le_bitmapBlock (sb : SuperBlock) (b : Nat) : sb.bitmapStart.toNat ≤ bitmapBlock sb b :=
  Nat.le_add_left ..

theorem bitmapStart_le (h : Layout sb) : sb.bitmapStart.toNat ≤ sb.dataStart :=
  (Nat.le_add_right ..).trans h.bitmap.le

end Layout

/-! ### Entries and slots -/

/-- A place in an inode that can own a block. -/
inductive Slot where
  | direct (i : Fin inodeNumDirect)
  /-- `indirect` itself -/
  | table
  | indirect (j : Fin inodeNumIndirect)
  deriving DecidableEq

/-- What a slot of an entry owns, 0 for nothing. -/
def addrOf (blocks : Nat → BlockData) (e : InodeEntry) : Slot → Nat
  | .direct i => (e.addrs i).toNat
  | .table => e.indirect.toNat
  | .indirect j => if e.indirect = 0 then 0 else (getAddr (blocks e.indirect.toNat) j).toNat

/-- The slot for block `idx` of a file. -/
def blockSlot (idx : Nat) : Slot :=
  if h : idx < inodeNumDirect then .direct ⟨idx, h⟩
  else .indirect ⟨(idx - inodeNumDirect) % inodeNumIndirect, Nat.mod_lt _ (by decide)⟩

namespace Volume

/-- Somebody has a reference to the in-memory inode. -/
def Live (s : Volume) (p : Ptr) : Prop := p ∈ s.head ∧ 0 < (s.heap p).rc

/-- It is referenced, and its entry is loaded. -/
def Loaded (s : Volume) (p : Ptr) : Prop := s.Live p ∧ (s.heap p).valid = true

/-- The in-memory inode that holds the entry of inode `i`. -/
def holder (s : Volume) (i : Nat) : Option Ptr :=
  s.head.find? fun p => 0 < (s.heap p).rc && (s.heap p).inodeNo == i && (s.heap p).valid

variable (sb : SuperBlock)

def diskEntry (s : Volume) (i : Nat) : InodeEntry := getEntry (s.blocks (toBlockNo sb i)) i

/-- The entry inode `i` counts with. -/
def entryOf (s : Volume) (i : Nat) : InodeEntry :=
  match s.holder i with
  | some p => (s.heap p).entry
  | none => s.diskEntry sb i

def Allocated (s : Volume) (i : Nat) : Prop :=
  0 < i ∧ i ≤ sb.numInodes.toNat ∧ (s.entryOf sb i).type ≠ inodeInvalid

instance (s : Volume) (i : Nat) : Decidable (s.Allocated sb i) := inferInstanceAs (Decidable (_ ∧ _ ∧ _))

/-- What slot `k.2` of inode `k.1` owns. -/
def addr (s : Volume) (k : Nat × Slot) : Nat :=
  if s.Allocated sb k.1 then addrOf s.blocks (s.entryOf sb k.1) k.2 else 0

def used (s : Volume) : Set Nat := {b | s.isUsed sb b = true}

end Volume

/-- Blocks of a file of that size. -/
def blocksFor (size : Nat) : Nat := (size + blockSize - 1) / blockSize

/-- Inode `i` has the blocks its size calls for. -/
def Volume.Filled (sb : SuperBlock) (s : Volume) (i : Nat) : Prop :=
  (s.entryOf sb i).numBytes.toNat ≤ inodeMaxBytes ∧
    ∀ idx < blocksFor (s.entryOf sb i).numBytes.toNat, s.addr sb (i, blockSlot idx) ≠ 0

/-- Inode `i` has no other blocks. -/
def Volume.Trimmed (sb : SuperBlock) (s : Volume) (i : Nat) : Prop :=
  ∀ idx < inodeNumDirect + inodeNumIndirect, blocksFor (s.entryOf sb i).numBytes.toNat ≤ idx →
    s.addr sb (i, blockSlot idx) = 0

/-- No block is shared, and no file has holes. -/
structure Unshared (sb : SuperBlock) (s : Volume) : Prop where
  /-- Slots own different data blocks, and these and the metadata blocks are in use. -/
  owned : Owned sb.dataStart sb.numBlocks.toNat (s.addr sb) (s.used sb)
  filled : ∀ i, s.Allocated sb i → (s.entryOf sb i).type ≠ inodeDevice → s.Filled sb i

/-- Moreover no data block is in use, or kept in a file, for nothing. -/
structure Consistent (sb : SuperBlock) (s : Volume) : Prop extends Unshared sb s where
  exact : Exact sb.dataStart sb.numBlocks.toNat (s.addr sb) (s.used sb)
  trimmed : ∀ i, s.Allocated sb i → (s.entryOf sb i).type ≠ inodeDevice → s.Trimmed sb i

/-- The list of in-memory inodes: at most one live inode a number, each for an inode that exists. -/
structure Listed (sb : SuperBlock) (s : Volume) : Prop where
  nodup : s.head.Nodup
  unique : ∀ p q, s.Live p → s.Live q → (s.heap p).inodeNo = (s.heap q).inodeNo → p = q
  numbered : ∀ p, s.Live p → 0 < (s.heap p).inodeNo ∧ (s.heap p).inodeNo < sb.numInodes.toNat
  allocated : ∀ p, s.Live p → s.Allocated sb (s.heap p).inodeNo
  unlocked : ∀ p ∈ s.head, (s.heap p).rc = 0 → (s.heap p).locked = false

/-- Every loaded entry is as on the disk. -/
def Coherent (sb : SuperBlock) (s : Volume) : Prop :=
  ∀ p, s.Loaded p → s.diskEntry sb (s.heap p).inodeNo = (s.heap p).entry

variable {sb : SuperBlock} {s s' : Volume} {p q : Ptr} {i b : Nat} {d : BlockData} {f : InodeEntry → InodeEntry}

/-! ### Who holds an entry -/

theorem Volume.holder_some (h : s.holder i = some p) : s.Loaded p ∧ (s.heap p).inodeNo = i := by
  have htest := List.find?_some h
  simp only [Bool.and_eq_true, decide_eq_true_eq, beq_iff_eq] at htest
  exact ⟨⟨⟨List.mem_of_find?_eq_some h, htest.1.1⟩, htest.2⟩, htest.1.2⟩

theorem Listed.holder (hw : Listed sb s) (hp : s.Loaded p) : s.holder (s.heap p).inodeNo = some p := by
  have hsome : (s.holder (s.heap p).inodeNo).isSome := by
    rw [Volume.holder, List.find?_isSome]
    refine ⟨p, hp.1.1, ?_⟩
    simp only [hp.1.2, hp.2, decide_true, Bool.and_true, beq_self_eq_true]
  obtain ⟨q, hq⟩ := Option.isSome_iff_exists.mp hsome
  obtain ⟨hload, hno⟩ := Volume.holder_some hq
  rw [hq, hw.unique q p hload.1 hp.1 hno]

theorem Volume.entryOf_held (h : s.holder i = some p) : s.entryOf sb i = (s.heap p).entry := by
  rw [Volume.entryOf, h]

theorem Volume.entryOf_free (h : s.holder i = none) : s.entryOf sb i = s.diskEntry sb i := by
  rw [Volume.entryOf, h]

theorem Listed.entryOf (hw : Listed sb s) (hp : s.Loaded p) :
    s.entryOf sb (s.heap p).inodeNo = (s.heap p).entry :=
  Volume.entryOf_held (hw.holder hp)

/-- Who holds an entry depends on the list, the counts, the numbers and the valid flags only. -/
theorem holder_congr (hl : s'.head = s.head) (hh : ∀ p, (s'.heap p).rc = (s.heap p).rc ∧
    (s'.heap p).inodeNo = (s.heap p).inodeNo ∧ (s'.heap p).valid = (s.heap p).valid) :
    s'.holder i = s.holder i := by
  simp only [Volume.holder, hl, (hh _).1, (hh _).2.1, (hh _).2.2]

@[simp] theorem editEntry_self : (s.editEntry p f).heap p = {s.heap p with entry := f (s.heap p).entry} :=
  update_self ..

theorem editEntry_of_ne (h : q ≠ p) : (s.editEntry p f).heap q = s.heap q := update_of_ne h ..

theorem editEntry_flags (q : Ptr) : ((s.editEntry p f).heap q).rc = (s.heap q).rc ∧
    ((s.editEntry p f).heap q).inodeNo = (s.heap q).inodeNo ∧
    ((s.editEntry p f).heap q).valid = (s.heap q).valid := by
  by_cases h : q = p
  · rw [h, editEntry_self]
    exact ⟨rfl, rfl, rfl⟩
  · rw [editEntry_of_ne h]
    exact ⟨rfl, rfl, rfl⟩

theorem entryOf_editEntry (hw : Listed sb s) (hp : s.Loaded p) : (s.editEntry p f).entryOf sb i =
    if i = (s.heap p).inodeNo then f (s.heap p).entry else s.entryOf sb i := by
  have hholder : (s.editEntry p f).holder i = s.holder i := holder_congr rfl editEntry_flags
  by_cases he : i = (s.heap p).inodeNo
  · rw [if_pos he, Volume.entryOf_held (hholder.trans (he ▸ hw.holder hp)), editEntry_self]
  · rw [if_neg he]
    cases hq : s.holder i with
    | none =>
      rw [Volume.entryOf_free (hholder.trans hq), Volume.entryOf_free hq]
      rfl
    | some q =>
      have hne : q ≠ p := fun h => he (by rw [← (Volume.holder_some hq).2, h])
      rw [Volume.entryOf_held (hholder.trans hq), Volume.entryOf_held hq, editEntry_of_ne hne]

/-! ### Blocks outside the inode area -/

@[simp] theorem setBlock_self : (s.setBlock b d).blocks b = d := update_self ..

theorem setBlock_of_ne {x : Nat} (h : x ≠ b) : (s.setBlock b d).blocks x = s.blocks x := update_of_ne h ..

/-- An entry depends on the in-memory inodes and on its own block. -/
theorem entryOf_congr (hl : s'.head = s.head) (hh : s'.heap = s.heap)
    (hb : s'.blocks (toBlockNo sb i) = s.blocks (toBlockNo sb i)) : s'.entryOf sb i = s.entryOf sb i := by
  simp only [Volume.entryOf, Volume.holder, Volume.diskEntry, hl, hh, hb]

theorem entryOf_setBlock (hl : Layout sb) (hb : sb.bitmapStart.toNat ≤ b) (hi : i ≤ sb.numInodes.toNat) :
    (s.setBlock b d).entryOf sb i = s.entryOf sb i := by
  have := hl.toBlockNo_lt hi
  exact entryOf_congr rfl rfl (setBlock_of_ne (by omega))

/-! ### Slots -/

theorem allocated_congr (he : i ≤ sb.numInodes.toNat → (s'.entryOf sb i).type = (s.entryOf sb i).type) :
    s'.Allocated sb i ↔ s.Allocated sb i := by
  rw [Volume.Allocated, Volume.Allocated]
  refine and_congr_right fun _ => and_congr_right fun hle => ?_
  rw [he hle]

theorem addr_of_allocated {σ : Slot} (h : s.Allocated sb i) :
    s.addr sb (i, σ) = addrOf s.blocks (s.entryOf sb i) σ := if_pos h

theorem addrOf_congr {blocks blocks' : Nat → BlockData} {e : InodeEntry} (σ : Slot)
    (h : e.indirect ≠ 0 → blocks' e.indirect.toNat = blocks e.indirect.toNat) :
    addrOf blocks' e σ = addrOf blocks e σ := by
  cases σ with
  | direct i => rfl
  | table => rfl
  | indirect j =>
    rw [addrOf, addrOf]
    split
    case isTrue => rfl
    case isFalse hne => rw [h hne]

/-- The indirect block of an inode is what its `table` slot owns. -/
theorem addr_table (h : s.Allocated sb i) : s.addr sb (i, .table) = (s.entryOf sb i).indirect.toNat :=
  addr_of_allocated h

theorem toNat_eq_zero {a : UInt32} : a.toNat = 0 ↔ a = 0 := by
  rw [← UInt32.toNat_inj]
  rfl

theorem toNat_ne_zero {a : UInt32} : a.toNat ≠ 0 ↔ a ≠ 0 := not_congr toNat_eq_zero

/-- A change that leaves an inode its entry and its indirect block leaves it its slots. -/
theorem addr_congr {k : Nat × Slot} (he : k.1 ≤ sb.numInodes.toNat → s'.entryOf sb k.1 = s.entryOf sb k.1)
    (ht : s.Allocated sb k.1 → s.addr sb (k.1, .table) ≠ 0 →
      s'.blocks (s.addr sb (k.1, .table)) = s.blocks (s.addr sb (k.1, .table))) :
    s'.addr sb k = s.addr sb k := by
  have hiff : s'.Allocated sb k.1 ↔ s.Allocated sb k.1 := allocated_congr fun hle => by rw [he hle]
  rw [Volume.addr, Volume.addr]
  by_cases ha : s.Allocated sb k.1
  · rw [if_pos (hiff.mpr ha), if_pos ha, he ha.2.1]
    apply addrOf_congr
    intro hne
    have htable := addr_table ha
    rw [← htable]
    exact ht ha (by rw [htable]; exact toNat_ne_zero.mpr hne)
  · rw [if_neg (mt hiff.mp ha), if_neg ha]

/-! ### One inode changes -/

/-- All inodes but `no` are as they were. -/
structure Elsewhere (sb : SuperBlock) (no : Nat) (s s' : Volume) : Prop where
  entry : ∀ i ≤ sb.numInodes.toNat, i ≠ no → s'.entryOf sb i = s.entryOf sb i
  addr : ∀ k : Nat × Slot, k.1 ≠ no → s'.addr sb k = s.addr sb k

namespace Elsewhere
variable {no : Nat}

/-- What holds of every file by its entry and its slots needs a proof for `no` only. -/
theorem files (h : Elsewhere sb no s s') {P : Volume → Nat → Prop}
    (hP : ∀ i, s'.entryOf sb i = s.entryOf sb i → (∀ σ, s'.addr sb (i, σ) = s.addr sb (i, σ)) → P s i → P s' i)
    (hs : ∀ i, s.Allocated sb i → (s.entryOf sb i).type ≠ inodeDevice → P s i)
    (hno : s'.Allocated sb no → P s' no) (i : Nat) (hi : s'.Allocated sb i)
    (hd : (s'.entryOf sb i).type ≠ inodeDevice) : P s' i := by
  by_cases he : i = no
  · rw [he] at hi ⊢
    exact hno hi
  · have hentry := h.entry i hi.2.1 he
    rw [hentry] at hd
    exact hP i hentry (fun σ => h.addr (i, σ) he) (hs i ((allocated_congr fun _ => by rw [hentry]).mp hi) hd)

theorem unshared (h : Elsewhere sb no s s') (hc : Unshared sb s)
    (owned : Owned sb.dataStart sb.numBlocks.toNat (s'.addr sb) (s'.used sb))
    (filled : s'.Allocated sb no → s'.Filled sb no) : Unshared sb s' := by
  refine ⟨owned, h.files (fun i hentry haddr hf => ?_) hc.filled filled⟩
  rw [Volume.Filled, hentry]
  simp only [haddr]
  exact hf

theorem consistent (h : Elsewhere sb no s s') (hc : Consistent sb s) (hu : Unshared sb s')
    (exact : Exact sb.dataStart sb.numBlocks.toNat (s'.addr sb) (s'.used sb))
    (trimmed : s'.Allocated sb no → s'.Trimmed sb no) : Consistent sb s' := by
  refine ⟨hu, exact, h.files (fun i hentry haddr ht => ?_) hc.trimmed trimmed⟩
  rw [Volume.Trimmed, hentry]
  simp only [haddr]
  exact ht

end Elsewhere

theorem filled_of_empty (h : (s.entryOf sb i).numBytes = 0) : s.Filled sb i := by
  rw [Volume.Filled, h]
  exact ⟨Nat.zero_le _, fun idx hidx => absurd hidx (Nat.not_lt_zero idx)⟩

section Congr
variable (entry : ∀ i ≤ sb.numInodes.toNat, s'.entryOf sb i = s.entryOf sb i)
  (addr : ∀ k, s'.addr sb k = s.addr sb k) (used : ∀ x < sb.numBlocks.toNat, x ∈ s'.used sb ↔ x ∈ s.used sb)
include entry addr used

-- there is no inode 0
theorem Unshared.congr (hc : Unshared sb s) : Unshared sb s' :=
  (⟨fun i hi _ => entry i hi, fun k _ => addr k⟩ : Elsewhere sb 0 s s').unshared hc (hc.owned.congr addr used)
    fun h => absurd h.1 (Nat.lt_irrefl 0)

theorem Consistent.congr (hc : Consistent sb s) : Consistent sb s' :=
  (⟨fun i hi _ => entry i hi, fun k _ => addr k⟩ : Elsewhere sb 0 s s').consistent hc
    (hc.toUnshared.congr entry addr used) (hc.exact.congr addr used) fun h => absurd h.1 (Nat.lt_irrefl 0)

end Congr

/-! ### The bitmap -/

/-- The bits of one bitmap block are told apart by their places in it. -/
theorem bit_eq_iff {x : Nat} (h : bitmapBlock sb x = bitmapBlock sb b) :
    x % bitPerBlock = b % bitPerBlock ↔ x = b :=
  ⟨Nat.ext_div_mod (Nat.add_right_cancel h), fun he => by rw [he]⟩

theorem isUsed_setUsed (x : Nat) : (s.setUsed sb b).isUsed sb x = (decide (x = b) || s.isUsed sb x) := by
  have hmod : b % bitPerBlock < bitPerBlock := Nat.mod_lt b (by decide)
  rw [Volume.isUsed, Volume.isUsed, Volume.setUsed]
  by_cases hblock : bitmapBlock sb x = bitmapBlock sb b
  · rw [hblock, setBlock_self, bitIsSet_setBit hmod]
    simp only [bit_eq_iff hblock]
  · have hne : x ≠ b := fun h => hblock (by rw [h])
    rw [setBlock_of_ne hblock, decide_eq_false hne, Bool.false_or]

theorem isUsed_clearUsed (x : Nat) : (s.clearUsed sb b).isUsed sb x = (decide (x ≠ b) && s.isUsed sb x) := by
  have hmod : b % bitPerBlock < bitPerBlock := Nat.mod_lt b (by decide)
  rw [Volume.isUsed, Volume.isUsed, Volume.clearUsed]
  by_cases hblock : bitmapBlock sb x = bitmapBlock sb b
  · rw [hblock, setBlock_self, bitIsSet_clearBit hmod]
    simp only [ne_eq, bit_eq_iff hblock]
  · have hne : x ≠ b := fun h => hblock (by rw [h])
    rw [setBlock_of_ne hblock, decide_eq_true hne, Bool.true_and]

/-- A block outside the bitmap holds no bit. -/
theorem mem_used_congr (h : s'.blocks (bitmapBlock sb b) = s.blocks (bitmapBlock sb b)) :
    b ∈ s'.used sb ↔ b ∈ s.used sb := by
  show s'.isUsed sb b = true ↔ s.isUsed sb b = true
  rw [Volume.isUsed, Volume.isUsed, h]

end OS2021.Fs
