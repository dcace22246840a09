import OS2021.Fs.Clearing
import OS2021.Lib.Runs

/-! A consistent file system is a map from inode numbers to byte arrays.

`inode_write`, `inode_read` and `inode_clear` on a file that is held change that map
as one expects of byte arrays, in every state that a run of such calls leads to. The
one way a call can fail is that the disk is full. -/
namespace OS2021.Fs
open Lib Function

variable {sb : SuperBlock} {s s' s0 : Volume} {p : Ptr} {i j off count : Nat} {src data : List UInt8}
  {console : Console}

/-! ### Reading -/

theorem byteAt_add (h : j < blockSize - off % blockSize) : s.byteAt sb i (off + j) =
    bytes (s.blocks (s.addr sb (i, blockSlot (off / blockSize)))) (off % blockSize + j) := by
  have hlt : j < 512 - off % 512 := h
  have hdiv : (off + j) / blockSize = off / blockSize := by
    show (off + j) / 512 = off / 512
    omega
  have hmod : (off + j) % blockSize = off % blockSize + j := by
    show (off + j) % 512 = off % 512 + j
    omega
  rw [Volume.byteAt, hdiv, hmod]

section Read
variable (hw : Listed sb s) (hp : s.Loaded p)
include hw hp

/-- A loop over blocks that are there changes nothing. -/
theorem readLoop_there {fuel : Nat} (hfuel : count ≤ fuel) (hmax : off + count ≤ inodeMaxBytes)
    (hblocks : ∀ idx < blocksFor (off + count), s.addr sb ((s.heap p).inodeNo, blockSlot idx) ≠ 0) :
    (readLoop sb p fuel off count).run s =
      .ok (elements count fun j => s.byteAt sb (s.heap p).inodeNo (off + j)) s := by
  induction fuel generalizing off count with
  | zero =>
    obtain rfl : count = 0 := Nat.le_zero.mp hfuel
    rfl
  | succ fuel ih =>
    rw [readLoop]
    by_cases hz : count = 0
    · rw [if_pos hz, hz, pure_run]
      rfl
    · have hpos := chunk_pos off (Nat.pos_of_ne_zero hz)
      have hle : chunk off count ≤ count := Nat.min_le_left ..
      have hrest : off + chunk off count + (count - chunk off count) = off + count := by omega
      have hidx : off / blockSize < inodeNumDirect + inodeNumIndirect := index_lt (by omega)
      have hne : s.addr sb ((s.heap p).inodeNo, blockSlot (off / blockSize)) ≠ 0 :=
        hblocks _ (lt_blocksFor.mpr (lt_of_le_of_lt (Nat.div_mul_le_self ..) (by omega)))
      rw [if_neg hz, bind_ok (inodeMap_there hw hp hidx hne), bind_ok (get_run s)]
      dsimp only
      rw [bind_ok (ih (by omega) (by omega) (by rwa [hrest])), pure_run]
      have hsplit : elements count (fun j => s.byteAt sb (s.heap p).inodeNo (off + j)) = _ :=
        (congrArg (elements · _) (Nat.add_sub_cancel' hle).symm).trans (elements_append ..)
      have hfst : (List.range (chunk off count)).map (fun j =>
          bytes (s.blocks (s.addr sb ((s.heap p).inodeNo, blockSlot (off / blockSize)))) (off % blockSize + j)) =
          elements (chunk off count) fun j => s.byteAt sb (s.heap p).inodeNo (off + j) :=
        (elements_congr fun j hj => byteAt_add (lt_of_lt_of_le hj (Nat.min_le_right ..))).symm
      rw [hsplit, hfst]
      simp only [Nat.add_assoc]

variable (hdev : (s.heap p).entry.type ≠ inodeDevice) (hoff : off ≤ (s.heap p).entry.numBytes.toNat)
  (hn : off + count < 2 ^ 64)
include hdev hoff hn

/-- A read needs the blocks up to its end. -/
theorem inodeRead_there (hmax : off + min count ((s.heap p).entry.numBytes.toNat - off) ≤ inodeMaxBytes)
    (hblocks : ∀ idx < blocksFor (off + min count ((s.heap p).entry.numBytes.toNat - off)),
      s.addr sb ((s.heap p).inodeNo, blockSlot idx) ≠ 0) :
    (inodeRead sb console p off count).run s =
      .ok (min count ((s.heap p).entry.numBytes.toNat - off),
        ((s.content sb (s.heap p).inodeNo).drop off).take count) s := by
  have hsize : (s.heap p).entry.numBytes.toNat < 2 ^ 32 := UInt32.toNat_lt _
  have hmin : (if (count + off) % 2 ^ 64 > (s.heap p).entry.numBytes.toNat
      then ((s.heap p).entry.numBytes.toNat + 2 ^ 64 - off) % 2 ^ 64 else count) =
      min count ((s.heap p).entry.numBytes.toNat - off) := by
    split <;> omega
  have hstop : (off + min count ((s.heap p).entry.numBytes.toNat - off)) % 2 ^ 64 =
      off + min count ((s.heap p).entry.numBytes.toNat - off) := by
    omega
  rw [inodeRead, bind_ok (get_run s), if_neg hdev]
  dsimp only
  rw [hmin, hstop, bind_ok (assertThat_run hoff),
    bind_ok (assertThat_run (by omega)), bind_ok (assertThat_run (Nat.le_add_right ..)),
    bind_ok (readLoop_there hw hp le_rfl hmax hblocks), pure_run, Volume.content, hw.entryOf hp,
    elements_drop, elements_take]

end Read

/-- **`inode_read` returns the bytes that are there, and changes nothing.** -/
theorem inodeRead_spec (hw : Listed sb s) (hc : Unshared sb s) (hp : s.Loaded p)
    (hdev : (s.heap p).entry.type ≠ inodeDevice) (hoff : off ≤ (s.heap p).entry.numBytes.toNat)
    (hn : off + count < 2 ^ 64) :
    (inodeRead sb console p off count).run s =
      .ok (min count ((s.heap p).entry.numBytes.toNat - off),
        ((s.content sb (s.heap p).inodeNo).drop off).take count) s := by
  obtain ⟨hmax, hblocks⟩ := hc.loaded hw hp hdev
  refine inodeRead_there hw hp hdev hoff hn (by omega) fun idx hidx => hblocks idx ?_
  have hlt := lt_blocksFor.mp hidx
  exact lt_blocksFor.mpr (by omega)

/-! ### Files -/

/-- The files of a volume: regular files and directories, with their bytes. -/
def Volume.files (sb : SuperBlock) (s : Volume) (i : Nat) : Option (List UInt8) :=
  if s.Allocated sb i ∧ (s.entryOf sb i).type ≠ inodeDevice then some (s.content sb i) else none

theorem files_loaded (hw : Listed sb s) (hp : s.Loaded p) (hdev : (s.heap p).entry.type ≠ inodeDevice) :
    s.files sb (s.heap p).inodeNo = some (s.content sb (s.heap p).inodeNo) := by
  refine if_pos ⟨hw.allocated p hp.1, ?_⟩
  rw [hw.entryOf hp]
  exact hdev

/-- A file rewritten is one entry of the map replaced. -/
theorem Rewritten.files (h : Rewritten sb p data s s') (hw : Listed sb s) (hp : s.Loaded p)
    (hdev : (s.heap p).entry.type ≠ inodeDevice) :
    s'.files sb = update (s.files sb) (s.heap p).inodeNo (some data) := by
  have hiff : ∀ i, (s'.Allocated sb i ∧ (s'.entryOf sb i).type ≠ inodeDevice) ↔
      (s.Allocated sb i ∧ (s.entryOf sb i).type ≠ inodeDevice) := fun i => by
    rw [h.allocated]
    refine and_congr_right fun ha => ?_
    rw [h.types i ha.2.1]
  funext i
  by_cases hf : s.Allocated sb i ∧ (s.entryOf sb i).type ≠ inodeDevice
  · rw [Volume.files, if_pos ((hiff i).mpr hf), h.content i hf.1 hf.2]
    by_cases he : i = (s.heap p).inodeNo
    · rw [if_pos he, he, update_self]
    · rw [if_neg he, update_of_ne he, Volume.files, if_pos hf]
  · have hne : i ≠ (s.heap p).inodeNo := fun he => hf (by
      rw [he, hw.entryOf hp]
      exact ⟨hw.allocated p hp.1, hdev⟩)
    rw [Volume.files, if_neg (mt (hiff i).mp hf), update_of_ne hne, Volume.files, if_neg hf]

/-! ### Runs -/

inductive FileCall where
  | write (p : Ptr) (src : List UInt8) (off : Nat)
  | read (p : Ptr) (off count : Nat)
  | clear (p : Ptr)

namespace FileCall

/-- The call is on a regular file or directory somebody holds, within its bounds. -/
def Legal (s : Volume) : FileCall → Prop
  | write p src off => s.Loaded p ∧ (s.heap p).entry.type ≠ inodeDevice ∧
      off ≤ (s.heap p).entry.numBytes.toNat ∧ off + src.length ≤ inodeMaxBytes
  | read p off count => s.Loaded p ∧ (s.heap p).entry.type ≠ inodeDevice ∧
      off ≤ (s.heap p).entry.numBytes.toNat ∧ off + count < 2 ^ 64
  | clear p => s.Loaded p ∧ (s.heap p).entry.type ≠ inodeDevice

/-- The call returns, in that state. -/
def Returns (sb : SuperBlock) (console : Console) (s : Volume) (c : FileCall) (s' : Volume) : Prop :=
  match c with
  | write p src off => ∃ n, (inodeWrite sb p src off).run s = .ok n s'
  | read p off count => ∃ r, (inodeRead sb console p off count).run s = .ok r s'
  | clear p => (inodeClear sb p).run s = .ok () s'

theorem Returns.keeps {c : FileCall} (h : c.Returns sb console s s') (hok : c.Legal s) (hl : Layout sb)
    (hw : Listed sb s) (hc : Unshared sb s) : Listed sb s' ∧ Unshared sb s' := by
  cases c with
  | write p src off =>
    obtain ⟨n, hrun⟩ := h
    obtain ⟨hp, hdev, hoff, hmax⟩ := hok
    have hre := ((inodeWrite_spec hl hw hc hp hdev hoff hmax).of_ok hrun).2.1
    exact ⟨hre.listed hw, hre.unshared⟩
  | read p off count =>
    obtain ⟨r, hrun⟩ := h
    obtain ⟨hp, hdev, hoff, hn⟩ := hok
    rw [inodeRead_spec hw hc hp hdev hoff hn] at hrun
    cases hrun
    exact ⟨hw, hc⟩
  | clear p =>
    have hre := ((inodeClear_spec hl hw hc hok.1).of_ok h).1
    exact ⟨hre.listed hw, hre.unshared⟩

theorem reach_keeps (hl : Layout sb) (hw : Listed sb s0) (hc : Unshared sb s0)
    (hrun : Reach (fun s c s' => Returns sb console s c s') Legal s0 s) : Listed sb s ∧ Unshared sb s :=
  hrun.invariant (I := fun s => Listed sb s ∧ Unshared sb s) ⟨hw, hc⟩
    fun _ _ _ hs hok hret => hret.keeps hok hl hs.1 hs.2

end FileCall

/-- **Files are byte arrays.** Where no block is shared and no file has holes: in every
state that calls on files lead to, a held file is a byte array of its size. Writing
splices the bytes in and returns their count, or there is no block left to write them
to; reading returns the bytes that are there and changes nothing; clearing leaves it
empty. No other file changes. -/
theorem files_are_byte_arrays (hl : Layout sb) (hw : Listed sb s0) (hc : Unshared sb s0)
    (hrun : Reach (fun s c s' => FileCall.Returns sb console s c s') FileCall.Legal s0 s) (hp : s.Loaded p)
    (hdev : (s.heap p).entry.type ≠ inodeDevice) :
    ∃ data, s.files sb (s.heap p).inodeNo = some data ∧ data.length = (s.heap p).entry.numBytes.toNat ∧
      (∀ src off, off ≤ data.length → off + src.length ≤ inodeMaxBytes →
        Ends (fun n s' => n = src.length ∧
            s'.files sb = update (s.files sb) (s.heap p).inodeNo (some (splice data off src)))
          (NoBlock sb) ((inodeWrite sb p src off).run s)) ∧
      (∀ off n, off ≤ data.length → off + n < 2 ^ 64 →
        (inodeRead sb console p off n).run s = .ok (min n (data.length - off), (data.drop off).take n) s) ∧
      Ends (fun _ s' => s'.files sb = update (s.files sb) (s.heap p).inodeNo (some []))
        (fun _ _ => False) ((inodeClear sb p).run s) := by
  obtain ⟨hw', hc'⟩ := FileCall.reach_keeps hl hw hc hrun
  have hlen : (s.content sb (s.heap p).inodeNo).length = (s.heap p).entry.numBytes.toNat := by
    rw [Volume.content, elements_length, hw'.entryOf hp]
  refine ⟨_, files_loaded hw' hp hdev, hlen, ?write, ?read, ?clear⟩
  case write =>
    intro src off hoff hmax
    rw [hlen] at hoff
    refine (inodeWrite_spec hl hw' hc' hp hdev hoff hmax).mono ?_ fun _ _ he => he.1
    exact fun n s' h => ⟨h.1, h.2.1.files hw' hp hdev⟩
  case read =>
    intro off n hoff hn
    rw [hlen] at hoff ⊢
    exact inodeRead_spec hw' hc' hp hdev hoff hn
  case clear =>
    refine (inodeClear_spec hl hw' hc' hp).mono ?_ fun _ _ he => he
    exact fun _ s' h => h.1.files hw' hp hdev

/-! ### A single file of at most one block -/

/-- Inode 1 is the only inode. Its entry is `e`, and its only block is `b`; if that is 0, it has none. -/
structure OneInode (sb : SuperBlock) (s : Volume) (e : InodeEntry) (b : Nat) : Prop where
  allocated : ∀ i, s.Allocated sb i ↔ i = 1
  entry : s.entryOf sb 1 = e
  addrs : ∀ a, (e.addrs a).toNat = if a = 0 then b else 0
  indirect : e.indirect = 0
  size : blocksFor e.numBytes.toNat = if b = 0 then 0 else 1

theorem allocated_three (hn : sb.numInodes.toNat = 3) (h1 : (s.entryOf sb 1).type ≠ inodeInvalid)
    (h2 : (s.entryOf sb 2).type = inodeInvalid) (h3 : (s.entryOf sb 3).type = inodeInvalid) :
    s.Allocated sb i ↔ i = 1 := by
  constructor
  · intro hi
    obtain ⟨hpos, hle, htype⟩ := hi
    rw [hn] at hle
    have hcases : i = 1 ∨ i = 2 ∨ i = 3 := by omega
    rcases hcases with rfl | rfl | rfl
    · rfl
    · exact absurd h2 htype
    · exact absurd h3 htype
  · intro hi
    subst hi
    exact ⟨Nat.zero_lt_one, by omega, h1⟩

namespace OneInode
variable {e : InodeEntry} {b : Nat} (h : OneInode sb s e b)
include h

theorem addr_eq (k : Nat × Slot) : s.addr sb k = if k = (1, .direct 0) then b else 0 := by
  obtain ⟨i, σ⟩ := k
  by_cases hi : i = 1
  · subst hi
    rw [addr_of_allocated ((h.allocated 1).mpr rfl), h.entry]
    cases σ with
    | direct a => simp only [addrOf, h.addrs a, Prod.mk.injEq, Slot.direct.injEq, true_and]
    | table | indirect j => simp [addrOf, h.indirect]
  · rw [Volume.addr, if_neg (mt (h.allocated i).mp hi), if_neg fun he => hi (congrArg Prod.fst he)]

theorem owner {k : Nat × Slot} (hk : s.addr sb k ≠ 0) : k = (1, .direct 0) ∧ s.addr sb k = b ∧ b ≠ 0 := by
  rw [h.addr_eq] at hk ⊢
  split at hk
  case isTrue hslot => exact ⟨hslot, if_pos hslot, hk⟩
  case isFalse => exact absurd rfl hk

section Used
variable (hl : Layout sb) (hb : b ≠ 0 → sb.dataStart ≤ b ∧ b < sb.numBlocks.toNat ∧ b ∈ s.used sb)
  (hle : sb.dataStart ≤ sb.numBlocks.toNat) (hbelow : ∀ x < sb.dataStart, x ∈ s.used sb)
include hl hb hle hbelow

theorem unshared : Unshared sb s := by
  refine ⟨⟨lt_of_le_of_lt (Nat.zero_le _) hl.bitmap, hle, fun k k' hk he => ?distinct, fun k hk => ?range, hbelow,
    fun k hk => ?mem_used⟩, fun i hi _ => ?filled⟩
  case distinct => exact (h.owner hk).1.trans (h.owner (he ▸ hk)).1.symm
  case range =>
    obtain ⟨-, haddr, hne⟩ := h.owner hk
    rw [haddr]
    exact ⟨(hb hne).1, (hb hne).2.1⟩
  case mem_used =>
    obtain ⟨-, haddr, hne⟩ := h.owner hk
    rw [haddr]
    exact (hb hne).2.2
  case filled =>
    obtain rfl := (h.allocated i).mp hi
    rw [Volume.Filled, h.entry]
    have hone : blocksFor e.numBytes.toNat ≤ 1 := by
      rw [h.size]
      split <;> omega
    refine ⟨?_, fun idx hidx => ?_⟩
    · have hone' : (e.numBytes.toNat + 511) / 512 ≤ 1 := hone
      show e.numBytes.toNat ≤ 71680
      omega
    · have hzero : idx = 0 := by omega
      have hne : b ≠ 0 := fun hb => by simp [h.size, hb] at hidx
      rw [h.addr_eq, hzero]
      exact hne

theorem consistent (hexact : ∀ x ∈ s.used sb, sb.dataStart ≤ x → x < sb.numBlocks.toNat → x = b) :
    Consistent sb s := by
  refine ⟨h.unshared hl hb hle hbelow, fun x hx hge hlt => ?exact, fun i hi _ idx hidx hge => ?trimmed⟩
  case exact => exact ⟨(1, .direct 0), by rw [h.addr_eq, if_pos rfl, hexact x hx hge hlt]⟩
  case trimmed =>
    obtain rfl := (h.allocated i).mp hi
    by_contra haddr
    obtain ⟨hslot, -, hne⟩ := h.owner haddr
    have hzero : blockSlot idx = blockSlot 0 := congrArg Prod.snd hslot
    rw [h.entry, h.size, if_neg hne, blockSlot_inj hidx (by decide) hzero] at hge
    exact absurd hge (by decide)

end Used

theorem listed (hhead : s.head = [1]) (hno : (s.heap 1).inodeNo = 1) (hlocked : (s.heap 1).locked = false)
    (hn : 1 < sb.numInodes.toNat) : Listed sb s := by
  have hone : ∀ p ∈ s.head, p = 1 := fun p hp => by
    rw [hhead] at hp
    exact List.mem_singleton.mp hp
  constructor
  case nodup => simp [hhead]
  case unique => exact fun p q hp hq _ => (hone p hp.1).trans (hone q hq.1).symm
  case numbered =>
    intro p hp
    rw [hone p hp.1, hno]
    exact ⟨Nat.zero_lt_one, hn⟩
  case allocated =>
    intro p hp
    rw [hone p hp.1, hno]
    exact (h.allocated 1).mpr rfl
  case unlocked =>
    intro p hp _
    rw [hone p hp, hlocked]

end OneInode

/-! ### Small disks -/

/-- Eight blocks: the inodes are in block 4, the bitmap is block 5, the only data block is block 7. -/
def oneBlockDisk : SuperBlock where
  numBlocks := 8
  numDataBlocks := 1
  numInodes := 3
  numLogBlocks := 2
  logStart := 2
  inodeStart := 4
  bitmapStart := 5

/-- Twelve blocks: the inodes are in block 4, the bitmap is block 5, the last five are data blocks. -/
def roomyDisk : SuperBlock where
  numBlocks := 12
  numDataBlocks := 5
  numInodes := 3
  numLogBlocks := 2
  logStart := 2
  inodeStart := 4
  bitmapStart := 5

theorem roomyDisk_layout : Layout roomyDisk := ⟨by decide, by decide, by decide⟩

/-- A regular file of one block. -/
def oneBlockFile : InodeEntry :=
  {InodeEntry.zero with
    type := inodeRegular, numLinks := 1, numBytes := 512, addrs := fun i => if i = 0 then 7 else 0}

/-- Inode 1 is held and is that file; `disk` is its entry on the disk. Every block is in use. -/
def oneFile (disk : InodeEntry) : Volume where
  blocks := update (update (fun _ => zeroBlock) 4 (setEntry zeroBlock 1 disk)) 5 fun _ => 255
  heap := fun _ => ⟨false, 1, 1, true, oneBlockFile⟩
  head := [1]
  allocs := 1

theorem oneBlockDisk_layout : Layout oneBlockDisk := ⟨by decide, by decide, by decide⟩

section OneFile
variable {disk : InodeEntry}

theorem oneFile_one : OneInode oneBlockDisk (oneFile disk) oneBlockFile 7 where
  allocated _ := allocated_three rfl (show inodeRegular ≠ inodeInvalid by decide) rfl rfl
  entry := rfl
  addrs := by decide
  indirect := rfl
  size := by decide

theorem oneFile_consistent : Consistent oneBlockDisk (oneFile disk) := by
  have hused : ∀ b < 8, (oneFile disk).isUsed oneBlockDisk b = true := by
    have hbits : ∀ b < 8, bitIsSet (fun _ => 255) (b % bitPerBlock) = true := by decide
    intro b hb
    have hblock : (oneFile disk).blocks (bitmapBlock oneBlockDisk b) = fun _ => 255 := by
      rw [bitmapBlock, Nat.div_eq_of_lt (hb.trans (by decide))]
      rfl
    rw [Volume.isUsed, hblock]
    exact hbits b hb
  refine oneFile_one.consistent oneBlockDisk_layout (fun _ => ⟨by decide, by decide, hused 7 (by decide)⟩)
    (by decide) (fun b hb => hused b (hb.trans (by decide))) fun b _ hge hlt => ?_
  have hge' : 7 ≤ b := hge
  have hlt' : b < 8 := hlt
  omega

theorem oneFile_listed : Listed oneBlockDisk (oneFile disk) := oneFile_one.listed rfl rfl rfl (by decide)

end OneFile

/-- The theorem after a call: once its only file is cleared, the disk has room again. -/
theorem files_are_byte_arrays_cleared : ∃ s, FileCall.Returns oneBlockDisk (fun _ => (0, []))
      (oneFile oneBlockFile) (.clear 1) s ∧
    ∃ data, s.files oneBlockDisk 1 = some data ∧ data.length = 0 ∧
      ∀ src, src.length ≤ inodeMaxBytes →
        Ends (fun n s' => n = src.length ∧
            s'.files oneBlockDisk = update (s.files oneBlockDisk) 1 (some (splice data 0 src)))
          (NoBlock oneBlockDisk) ((inodeWrite oneBlockDisk 1 src 0).run s) := by
  have hret : FileCall.Returns oneBlockDisk (fun _ => (0, [])) (oneFile oneBlockFile) (.clear 1)
      (final ((inodeClear oneBlockDisk 1).run (oneFile oneBlockFile))) :=
    eq_ok_of_returned (by decide +kernel)
  have hlegal : FileCall.Legal (oneFile oneBlockFile) (.clear 1) := by
    refine ⟨⟨⟨List.mem_singleton.mpr rfl, by decide⟩, rfl⟩, ?_⟩
    show inodeRegular ≠ inodeDevice
    decide
  obtain ⟨data, hfile, hlen, hwrite, -, -⟩ := files_are_byte_arrays (p := 1) oneBlockDisk_layout oneFile_listed
    oneFile_consistent.toUnshared (Reach.start.next hlegal hret)
    ⟨⟨by decide +kernel, by decide +kernel⟩, by decide +kernel⟩ (by decide +kernel)
  have hzero :
      ((final ((inodeClear oneBlockDisk 1).run (oneFile oneBlockFile))).heap 1).entry.numBytes.toNat = 0 := by
    decide +kernel
  have hno : ((final ((inodeClear oneBlockDisk 1).run (oneFile oneBlockFile))).heap 1).inodeNo = 1 := by
    decide +kernel
  rw [hno] at hfile hwrite
  refine ⟨_, hret, data, hfile, hlen.trans hzero, fun src hmax => ?_⟩
  exact hwrite src 0 (Nat.zero_le _) (by rw [Nat.zero_add]; exact hmax)

/-- A consistent file system may have no block left: writing at the end of the file
then does not return. -/
theorem full_disk_refuses_write : Layout oneBlockDisk ∧ Listed oneBlockDisk (oneFile oneBlockFile) ∧
    Consistent oneBlockDisk (oneFile oneBlockFile) ∧ FileCall.Legal (oneFile oneBlockFile) (.write 1 [1] 512) ∧
    (inodeWrite oneBlockDisk 1 [1] 512).run (oneFile oneBlockFile) =
      .error (.panic "cache_alloc: no free block") (oneFile oneBlockFile) := by
  refine ⟨oneBlockDisk_layout, oneFile_listed, oneFile_consistent, ?_, rfl⟩
  refine ⟨⟨⟨List.mem_singleton.mpr rfl, by decide⟩, rfl⟩, ?_, by decide, by decide⟩
  show inodeRegular ≠ inodeDevice
  decide

end OS2021.Fs
