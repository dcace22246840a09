import Mathlib.Data.List.OfFn
import OS2021.Lib.Bytes

/-! On-disk representations (`fs/defines.h`): blocks, the super block, the log header. -/
namespace OS2021.Fs
open Lib

/-- `BLOCK_SIZE` -/
abbrev blockSize : Nat := 512

instance : NeZero blockSize := ⟨by decide⟩

/-- `LOG_MAX_SIZE`: how many block numbers the log header records. -/
abbrev logMaxSize : Nat := (blockSize - 8) / 8

/-- `OP_MAX_NUM_BLOCKS` -/
abbrev opMaxNumBlocks : Nat := 10

/-- `EVICTION_THRESHOLD` -/
abbrev evictionThreshold : Nat := 20

/-- `BIT_PER_BLOCK` -/
abbrev bitPerBlock : Nat := blockSize * 8

/-- `u8 data[BLOCK_SIZE]` -/
abbrev BlockData := Fin blockSize → UInt8

/-- A block's bytes by plain index. -/
def bytes (d : BlockData) (j : Nat) : UInt8 := if h : j < blockSize then d ⟨j, h⟩ else 0

theorem bytes_of_lt {d : BlockData} {j : Nat} (h : j < blockSize) : bytes d j = d ⟨j, h⟩ := dif_pos h

structure SuperBlock where
  numBlocks : UInt32
  numDataBlocks : UInt32
  numInodes : UInt32
  numLogBlocks : UInt32
  logStart : UInt32
  inodeStart : UInt32
  bitmapStart : UInt32
  deriving DecidableEq

/-- The super block that `mkfs` writes: 1000 blocks, with 63 for the log from block 2 on,
26 for 200 inodes, one for the bitmap. -/
def SuperBlock.mkfs : SuperBlock where
  numBlocks := 1000
  numDataBlocks := 1000 - 92
  numInodes := 200
  numLogBlocks := 63
  logStart := 2
  inodeStart := 2 + 63
  bitmapStart := 2 + 63 + 26

/-! ### The log header -/

@[ext]
structure LogHeader where
  numBlocks : Nat
  blockNo : Fin logMaxSize → UInt64

namespace LogHeader

/-- The entries in use: the first `num_blocks` of `block_no`. -/
def entries (h : LogHeader) : List UInt64 := (List.ofFn h.blockNo).take h.numBlocks

/-- The header as a struct of 64 words: the count, then the block numbers. -/
def word (h : LogHeader) (i : Nat) : Nat :=
  if i = 0 then h.numBlocks
  else if hi : i - 1 < logMaxSize then (h.blockNo ⟨i - 1, hi⟩).toNat else 0

def toBytes (h : LogHeader) : BlockData := fun j => ofWords 8 h.word j

def ofBytes (d : BlockData) : LogHeader :=
  ⟨wordAt 8 (bytes d) 0, fun k => UInt64.ofNat (wordAt 8 (bytes d) (k + 1))⟩

/-- The memory of a kernel that has just booted. -/
def zero : LogHeader := ⟨0, fun _ => 0⟩

theorem wordAt_toBytes (h : LogHeader) {i : Nat} (hi : i < 64) :
    wordAt 8 (bytes h.toBytes) i = h.word i % 256 ^ 8 := by
  rw [← wordAt_ofWords 8 h.word i]
  apply wordAt_congr
  intro k hk
  exact bytes_of_lt (show 8 * i + k < 512 by omega)

/-- A header read back from its block is the header. -/
theorem ofBytes_toBytes (h : LogHeader) (hn : h.numBlocks < 2 ^ 64) : ofBytes h.toBytes = h := by
  have hcount : wordAt 8 (bytes h.toBytes) 0 = h.numBlocks := by
    rw [wordAt_toBytes h (by decide)]
    exact Nat.mod_eq_of_lt hn
  have hentry (k : Fin logMaxSize) : UInt64.ofNat (wordAt 8 (bytes h.toBytes) (k + 1)) = h.blockNo k := by
    have hk : (k : Nat) < 63 := k.isLt
    have hword : h.word (k + 1) = (h.blockNo k).toNat := by
      rw [word, if_neg (Nat.succ_ne_zero _)]
      exact dif_pos k.isLt
    have hlt : (h.blockNo k).toNat < 256 ^ 8 := (h.blockNo k).toNat_lt
    rw [wordAt_toBytes h (by omega), hword, Nat.mod_eq_of_lt hlt, UInt64.ofNat_toNat]
  exact LogHeader.ext hcount (funext hentry)

theorem entries_length (h : LogHeader) (hn : h.numBlocks ≤ logMaxSize) :
    h.entries.length = h.numBlocks := by
  simp only [entries, List.length_take, List.length_ofFn]
  omega

theorem entries_get (h : LogHeader) {t : Nat} (ht : t < logMaxSize) (hn : t < h.numBlocks) :
    h.entries[t]? = some (h.blockNo ⟨t, ht⟩) := by
  simp [entries, hn, ht]

end LogHeader

end OS2021.Fs
